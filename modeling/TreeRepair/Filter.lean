import TreeRepair.FileTree.Access
import TreeRepair.Glob
import TreeRepair.Key

/-!
Walks over a source tree. A `SourceFilter` names the directories that are not entered and the files
that are left out; `walkFiles` lists the remaining files in the order of their keys, `walkSources`
those of them that have a source extension.
-/
namespace TreeRepair

/-- A file met on a walk. -/
structure TreeFile where
  /-- Where it is. -/
  location : Location
  /-- Its key below the root of the walk. -/
  key : String
  /-- Its length in bytes. -/
  size : Nat
  deriving DecidableEq, Repr

/-- The rules of a walk. -/
structure SourceFilter where
  /-- Extensions of sources, without dot. -/
  extensions : List String
  /-- Names of directories that are not entered. -/
  skipDirs : List String
  /-- Directories that are not entered, whatever their names. -/
  excluded : List Location
  /-- Keys that are left out. -/
  ignores : String → Bool

namespace SourceFilter

/-- Whether directories with a name are not entered. -/
def skipsDir (f : SourceFilter) (name : String) : Bool := f.skipDirs.contains name

/-- Whether a key has a source extension and is not left out. -/
def isSource (f : SourceFilter) (key : String) : Bool :=
  f.extensions.contains ((Path.extension? key).getD "") && !f.ignores key

/-- Whether a directory met on a walk is not entered. -/
def prunes (f : SourceFilter) (location : Location) (name : String) : Bool :=
  f.skipsDir name || f.excluded.any (·.same location)

/-- The files of a listing outside pruned directories, with the names on the way from the root. -/
def reach (f : SourceFilter) (root : Location) (above : List String) :
    Listing → List (List String × Nat)
  | .empty => []
  | .file name content rest => (above ++ [name], content.size) :: f.reach root above rest
  | .dir name inner rest =>
    let names := above ++ [name]
    (if f.prunes (root ++ names) name then [] else f.reach root names inner)
      ++ f.reach root above rest

/-- Whether one key comes before another or is the same. -/
def keyLe (a b : TreeFile) : Bool := !(b.key < a.key)

/-- The files below a root that `keep` accepts and that are not left out, in the order of keys;
none if the root is no directory. -/
def walk (f : SourceFilter) (t : Listing) (root : Location) (keep : String → Bool) : List TreeFile :=
  match t.listing root with
  | .error _ => []
  | .ok inner =>
    let met := (f.reach root [] inner).map fun (names, size) =>
      (⟨root ++ names, Key.ofNames names, size⟩ : TreeFile)
    (met.filter fun file => !f.ignores file.key && keep file.key).mergeSort keyLe

/-- All files below a root that are not left out. -/
def walkFiles (f : SourceFilter) (t : Listing) (root : Location) : List TreeFile :=
  f.walk t root fun _ => true

/-- The source files below a root. -/
def walkSources (f : SourceFilter) (t : Listing) (root : Location) : List TreeFile :=
  f.walk t root f.isSource

end SourceFilter

end TreeRepair
