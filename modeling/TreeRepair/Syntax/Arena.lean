import TreeRepair.Syntax.Tree
import TreeRepair.Text.Utf8

/-!
Parsed sources with their syntax in an arena: nodes in preorder that name each other by index, the
root first and every parent before its children. The accessors give nothing or an empty text where an
index or a byte range leads nowhere.
-/
namespace TreeRepair

/-- A node of an arena. Lines count from one, columns in bytes from zero. -/
structure SyntaxNode where
  kind : String
  named : Bool
  field : Option String
  start : Nat
  stop : Nat
  startLine : Nat
  startColumn : Nat
  endLine : Nat
  parent : Option Nat
  children : List Nat
  deriving DecidableEq, Repr

/-- A place in a text that no grammar accepts. -/
structure ParseIssue where
  message : String
  line : Nat
  column : Nat
  deriving DecidableEq, Repr

/-- What is kept of a text that no grammar accepts: its last issue and the length of its start. -/
structure Recovery where
  message : String
  line : Nat
  column : Nat
  prefixLength : Nat
  /-- The kept start is shorter than the text. -/
  truncated : Bool
  deriving DecidableEq, Repr

/-- A parsed source file. -/
structure ParsedUnit where
  /-- The key of the file. -/
  file : String
  /-- The key of its content in caches. -/
  key : String
  /-- The grammar that accepts the text, if one does. -/
  grammar : Option Grammar
  /-- The text, or its start if no grammar accepts it. -/
  source : String
  nodes : Array SyntaxNode
  errors : List ParseIssue
  recovery : Option Recovery
  deriving DecidableEq, Repr

namespace ParsedUnit

/-- Whether the text has parse errors. -/
def hasErrors (u : ParsedUnit) : Bool := !u.errors.isEmpty

/-- The index of the root, if there is a tree. -/
def root? (u : ParsedUnit) : Option Nat := if u.nodes.isEmpty then none else some 0

/-- The node with an index. -/
def node? (u : ParsedUnit) (i : Nat) : Option SyntaxNode := u.nodes[i]?

/-- The kind of a node. -/
def kind (u : ParsedUnit) (i : Nat) : String := (u.node? i).elim "" (·.kind)

/-- The parent of a node. -/
def parent? (u : ParsedUnit) (i : Nat) : Option Nat := (u.node? i).bind (·.parent)

/-- The children of a node. -/
def children (u : ParsedUnit) (i : Nat) : List Nat := (u.node? i).elim [] (·.children)

/-- The children of a node that are not anonymous tokens. -/
def namedChildren (u : ParsedUnit) (i : Nat) : List Nat :=
  (u.children i).filter fun c => (u.node? c).any (·.named)

/-- The first child of a node in a role. -/
def childByField? (u : ParsedUnit) (i : Nat) (field : String) : Option Nat :=
  (u.children i).find? fun c => (u.node? c).any (·.field == some field)

/-- The text of a node, empty if its range delimits none. -/
def text (u : ParsedUnit) (i : Nat) : String :=
  (u.node? i).elim "" fun n => Text.sliceOrEmpty u.source n.start n.stop

/-! ## Walks -/

/-- A node and all below it in preorder, down to a depth, in front of a list. -/
def preorderOnto (u : ParsedUnit) : Nat → Nat → List Nat → List Nat
  | 0, _, rest => rest
  | depth + 1, i, rest => i :: (u.children i).foldr (u.preorderOnto depth) rest

/-- The indices of the tree in preorder. -/
def preorder (u : ParsedUnit) : List Nat :=
  match u.root? with
  | none => []
  | some r => u.preorderOnto u.nodes.size r []

/-- The nodes of a kind in preorder. -/
def nodesOfKind (u : ParsedUnit) (kind : String) : List Nat := u.preorder.filter (u.kind · == kind)

/-- The nodes above a node from its parent on, up to a number. -/
def ancestorsFrom (u : ParsedUnit) : Nat → Nat → List Nat
  | 0, _ => []
  | height + 1, i =>
    match u.parent? i with
    | none => []
    | some p => p :: u.ancestorsFrom height p

/-- The nodes above a node, from its parent to the root. -/
def ancestors (u : ParsedUnit) (i : Nat) : List Nat := u.ancestorsFrom u.nodes.size i

/-- The height of the tree below a node, down to a depth. -/
def heightFrom (u : ParsedUnit) : Nat → Nat → Nat
  | 0, _ => 0
  | depth + 1, i => (u.children i).foldl (fun h c => max h (u.heightFrom depth c)) 0 + 1

/-- The height of the tree, zero without one. -/
def height (u : ParsedUnit) : Nat := (u.root?).elim 0 (u.heightFrom u.nodes.size)

end ParsedUnit

/-! ## Arenas of trees -/

/-- The byte offsets of the line feeds of a text behind an offset. -/
def lineFeeds : Nat → List Char → List Nat
  | _, [] => []
  | n, c :: cs => if c = '\n' then n :: lineFeeds (n + 1) cs else lineFeeds (n + c.utf8Size) cs

/-- The row and the column of an offset, where a row begins at an offset and the line feeds left are
at given offsets. -/
def rowAndColumnFrom (row start offset : Nat) : List Nat → Nat × Nat
  | [] => (row, offset - start)
  | feed :: feeds =>
    if feed < offset then rowAndColumnFrom (row + 1) (feed + 1) offset feeds else (row, offset - start)

/-- The row and the column of an offset, both from zero, where line feeds are at given offsets. -/
def rowAndColumn (feeds : List Nat) (offset : Nat) : Nat × Nat := rowAndColumnFrom 0 0 offset feeds

namespace SyntaxTree

/-- The indices of trees that stand one after another from an index on. -/
def startIndices : Nat → List SyntaxTree → List Nat
  | _, [] => []
  | i, t :: ts => i :: startIndices (i + t.size) ts

/-- The node of an arena for what a tree says about its root. -/
def arenaNode (feeds : List Nat) (parent : Option Nat) (info : NodeInfo) (children : List Nat) :
    SyntaxNode :=
  let (row, column) := rowAndColumn feeds info.start
  let (endRow, _) := rowAndColumn feeds info.stop
  ⟨info.kind, info.named, info.field, info.start, info.stop, row + 1, column, endRow + 1, parent, children⟩

mutual

/-- The nodes of a tree in preorder, its root at an index. -/
def flatten (feeds : List Nat) (parent : Option Nat) (index : Nat) : SyntaxTree → List SyntaxNode
  | .node info children =>
    arenaNode feeds parent info (startIndices (index + 1) children)
      :: flattenAll feeds index (index + 1) children

/-- The nodes of the trees below a parent, the first of them at an index. -/
def flattenAll (feeds : List Nat) (parent index : Nat) : List SyntaxTree → List SyntaxNode
  | [] => []
  | t :: ts => flatten feeds (some parent) index t ++ flattenAll feeds parent (index + t.size) ts

end

/-- The arena of a tree over a text. -/
def arena (text : String) (t : SyntaxTree) : Array SyntaxNode :=
  (flatten (lineFeeds 0 text.toList) none 0 t).toArray

end SyntaxTree

end TreeRepair
