import TreeRepair.FileTree.Listing

/-!
What distinguishes two trees of files, as a list of changes that lead from the first to the second:
removals first, then what is new or has other contents, directories before what lies in them.
-/
namespace TreeRepair

/-- A change of a tree of files at the end of a path of names. -/
inductive Change where
  /-- A file, or a directory with all that lies in it, is gone. -/
  | remove (names : List String)
  | makeDir (names : List String)
  | writeFile (names : List String) (content : ByteArray)

namespace Listing

/-- The removals between two directories with the names `above`. -/
def removals (above : List String) (new : Listing) : Listing → List Change
  | .empty => []
  | .file name _ rest =>
    let gone : List Change :=
      match new.child? name with
      | some (.file _) => []
      | _ => [.remove (above ++ [name])]
    gone ++ removals above new rest
  | .dir name inner rest =>
    let here := above ++ [name]
    let gone : List Change :=
      match new.child? name with
      | some (.dir now) => removals here now inner
      | _ => [.remove here]
    gone ++ removals above new rest

/-- What is new or has other contents between two directories with the names `above`. -/
def additions (above : List String) (old : Listing) : Listing → List Change
  | .empty => []
  | .file name content rest =>
    let written : List Change :=
      match old.child? name with
      | some (.file before) => if before = content then [] else [.writeFile (above ++ [name]) content]
      | _ => [.writeFile (above ++ [name]) content]
    written ++ additions above old rest
  | .dir name inner rest =>
    let here := above ++ [name]
    let made : List Change :=
      match old.child? name with
      | some (.dir before) => additions here before inner
      | _ => .makeDir here :: additions here .empty inner
    made ++ additions above old rest

/-- The changes that lead from one tree of files to another. -/
def changes (old new : Listing) : List Change := removals [] new old ++ additions [] old new

end Listing

end TreeRepair
