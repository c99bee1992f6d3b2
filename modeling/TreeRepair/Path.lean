import TreeRepair.Text.Lines

/-!
Paths as texts: their components, joining, the part of a path below another one, and file name
extensions. A component is what lies between separators; empty components and `.` say nothing except
that a path may begin with a separator or with `.`.
-/
namespace TreeRepair.Path

open TreeRepair.Text

/-- What a path begins with. -/
inductive Start where
  | root
  | current
  | plain
  deriving DecidableEq, Repr

/-- A path cut at its separators: what it begins with and the pieces behind that, raw. -/
structure Cut where
  start : Start
  pieces : List String
  deriving DecidableEq, Repr

/-- Cuts a path at its separators. -/
def cut (path : String) : Cut :=
  match splitString '/' path with
  | "" :: p :: rest => ⟨.root, p :: rest⟩
  | "." :: rest => ⟨.current, rest⟩
  | pieces => ⟨.plain, pieces⟩

/-- Whether a piece says nothing. -/
def isVoid (piece : String) : Bool := piece == "" || piece == "."

/-- A component of a path. -/
inductive Component where
  | root
  | current
  | parent
  | name (text : String)
  deriving DecidableEq, Repr

/-- The component of a piece that says something. -/
def Component.ofPiece (piece : String) : Component := if piece == ".." then .parent else .name piece

/-- The components that what a path begins with stands for. -/
def Start.components : Start → List Component
  | .root => [.root]
  | .current => [.current]
  | .plain => []

/-- The components of a path. -/
def components (path : String) : List Component :=
  let c := cut path
  c.start.components ++ (c.pieces.filter fun p => !isVoid p).map Component.ofPiece

/-- Pieces without void ones at the end. -/
def trimRight (pieces : List String) : List String := (pieces.reverse.dropWhile isVoid).reverse

/-- Pieces without the first `n` that say something, and without void ones at either end. -/
def dropPieces : Nat → List String → List String
  | 0, pieces => trimRight (pieces.dropWhile isVoid)
  | _ + 1, [] => []
  | n + 1, p :: rest => if isVoid p then dropPieces (n + 1) rest else dropPieces n rest

/-- The text of a whole path without void pieces at its end. -/
def Cut.trimmed (c : Cut) : String :=
  let body := String.intercalate "/" (trimRight c.pieces)
  match c.start with
  | .root => "/" ++ body
  | .current => if body.isEmpty then "." else "./" ++ body
  | .plain => body

/-- The part of a path below `root`, as written; nothing if the components of `root` do not begin
those of the path. -/
def below? (root path : String) : Option String :=
  let base := components root
  if base.isPrefixOf (components path) then
    let c := cut path
    if base.isEmpty then some c.trimmed
    else some (String.intercalate "/" (dropPieces (base.length - c.start.components.length) c.pieces))
  else none

/-- A path followed by another one; an absolute second path stands alone. -/
def join (path next : String) : String :=
  if next.startsWith "/" then next
  else if path.isEmpty || path.endsWith "/" then path ++ next
  else path ++ "/" ++ next

/-- The last component if it is a name. -/
def fileName? (path : String) : Option String :=
  match (components path).getLast? with
  | some (.name text) => some text
  | _ => none

/-- What follows the last dot of a file name, unless that dot is its first character. -/
def nameExtension? (name : String) : Option String :=
  let reversed := name.toList.reverse
  match reversed.dropWhile (· != '.') with
  | _ :: _ :: _ => some (String.ofList (reversed.takeWhile (· != '.')).reverse)
  | _ => none

/-- The extension of a path's file name. -/
def extension? (path : String) : Option String := (fileName? path).bind nameExtension?

end TreeRepair.Path
