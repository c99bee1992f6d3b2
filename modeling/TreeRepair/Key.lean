import TreeRepair.Path

/-!
Keys of files in a source tree: the names on the way down from the root with `/` in between.
`relative?` turns a path into a key, `parent` drops the last name, `join?` follows a specifier from a
directory without leaving the tree.
-/
namespace TreeRepair.Key

open TreeRepair.Text

/-- A text without leading `./`. -/
def dropHere : List Char → List Char
  | '.' :: '/' :: rest => dropHere rest
  | cs => cs

/-- The key that a relative path stands for: backslashes count as separators, and leading `./` are
dropped. -/
def ofRelative (path : String) : String :=
  String.ofList (dropHere (path.toList.map fun c => if c = '\\' then '/' else c))

/-- The key of the file reached by names from the root. -/
def ofNames (names : List String) : String := ofRelative (String.intercalate "/" names)

/-- The key of a path below a root, nothing for other paths. -/
def relative? (root path : String) : Option String := (Path.below? root path).map ofRelative

/-- The key of the directory that a key lies in, empty at the top. -/
def parent (key : String) : String :=
  String.ofList ((key.toList.reverse.dropWhile (· != '/')).tail.reverse)

/-- Follows segments from a directory that is given last segment first: `..` goes up and fails at the
root, `.` and an empty segment stay. -/
def fold : List String → List String → Option (List String)
  | here, [] => some here
  | here, s :: rest =>
    if s = "" ∨ s = "." then fold here rest
    else if s = ".." then
      match here with
      | [] => none
      | _ :: up => fold up rest
    else fold (s :: here) rest

/-- The segments of a specifier and the directory segments it starts from. -/
def anchor (dir spec : String) : List String × List String :=
  if spec.startsWith "/" then ([], splitString '/' (String.ofList spec.toList.tail))
  else ((splitString '/' dir).filter (· != ""), splitString '/' spec)

/-- The key that a specifier leads to from a directory, or nothing if it leaves the tree. A leading
`/` starts at the root. -/
def join? (dir spec : String) : Option String :=
  let (start, segments) := anchor dir spec
  (fold start.reverse segments).map fun here => String.intercalate "/" here.reverse

end TreeRepair.Key
