/-!
A tree of files as a value. A `Listing` holds what lies in one directory: files with their contents
and directories with their own listings. `find?` follows names downwards, `putAt` and `removeAt`
change one entry at the end of such a path.
-/
namespace TreeRepair

/-- The contents of a directory. -/
inductive Listing where
  | empty
  | file (name : String) (content : ByteArray) (rest : Listing)
  | dir (name : String) (inner : Listing) (rest : Listing)

/-- What a name stands for. -/
inductive Entry where
  | file (content : ByteArray)
  | dir (inner : Listing)

namespace Listing

/-- The names and entries of a directory, in order. -/
def entries : Listing → List (String × Entry)
  | .empty => []
  | .file name content rest => (name, .file content) :: rest.entries
  | .dir name inner rest => (name, .dir inner) :: rest.entries

/-- The entry with a name. -/
def child? (name : String) : Listing → Option Entry
  | .empty => none
  | .file n content rest => if n = name then some (.file content) else rest.child? name
  | .dir n inner rest => if n = name then some (.dir inner) else rest.child? name

/-- Adds an entry in front. -/
def cons (name : String) : Entry → Listing → Listing
  | .file content, rest => .file name content rest
  | .dir inner, rest => .dir name inner rest

/-- Gives a name an entry, in place of the one it has or at the end. -/
def put (name : String) (e : Entry) : Listing → Listing
  | .empty => cons name e .empty
  | .file n content rest => if n = name then cons name e rest else .file n content (rest.put name e)
  | .dir n inner rest => if n = name then cons name e rest else .dir n inner (rest.put name e)

/-- Takes a name out. -/
def remove (name : String) : Listing → Listing
  | .empty => .empty
  | .file n content rest => if n = name then rest.remove name else .file n content (rest.remove name)
  | .dir n inner rest => if n = name then rest.remove name else .dir n inner (rest.remove name)

/-- The entry at the end of a path of names. -/
def find? : List String → Listing → Option Entry
  | [], t => some (.dir t)
  | n :: ns, t =>
    match t.child? n with
    | some (.dir inner) => find? ns inner
    | some (.file content) => if ns.isEmpty then some (.file content) else none
    | none => none

/-- Puts an entry at the end of a path whose other names stand for directories. -/
def putAt : List String → Entry → Listing → Listing
  | [], _, t => t
  | [n], e, t => t.put n e
  | n :: ns, e, t =>
    match t.child? n with
    | some (.dir inner) => t.put n (.dir (putAt ns e inner))
    | _ => t

/-- Takes the entry at the end of a path out. -/
def removeAt : List String → Listing → Listing
  | [], t => t
  | [n], t => t.remove n
  | n :: ns, t =>
    match t.child? n with
    | some (.dir inner) => t.put n (.dir (removeAt ns inner))
    | _ => t

/-- The files at any depth, with the names on the way to each behind `above`. -/
def filesBelow (above : List String) : Listing → List (List String × ByteArray)
  | .empty => []
  | .file name content rest => (above ++ [name], content) :: rest.filesBelow above
  | .dir name inner rest => inner.filesBelow (above ++ [name]) ++ rest.filesBelow above

/-- The files at any depth, with the names on the way to each. -/
def files (t : Listing) : List (List String × ByteArray) := t.filesBelow []

/-- The number of bytes of all files. -/
def totalBytes : Listing → Nat
  | .empty => 0
  | .file _ content rest => content.size + rest.totalBytes
  | .dir _ inner rest => inner.totalBytes + rest.totalBytes

end Listing

end TreeRepair
