import TreeRepair.Snapshot.Store

/-!
Comparison of a snapshot with a tree. Which files there are is compared in full; the contents of files
on both sides are compared in the order of keys, up to a limit.
-/
namespace TreeRepair

/-- What distinguishes a tree from a snapshot. -/
structure SnapshotDiff where
  snapshot : String
  /-- Stored files that the tree lacks. -/
  deleted : List String
  /-- Files of the tree that the snapshot does not know. -/
  added : List String
  /-- Files on both sides with other contents. -/
  modified : List String
  /-- How many files on both sides have been compared. -/
  checked : Nat
  /-- Some have not. -/
  sampled : Bool
  deriving DecidableEq, Repr

/-- Whether nothing is different. -/
def SnapshotDiff.isClean (d : SnapshotDiff) : Bool :=
  d.deleted.isEmpty && d.added.isEmpty && d.modified.isEmpty

namespace SnapshotStore

/-- The files of a tree by their keys. -/
def currentFiles (s : SnapshotStore) (files : Listing) (root : Location) : SortedMap TreeFile :=
  SortedMap.ofList ((s.filter.walkFiles files root).map fun f => (f.key, f))

/-- Whether a file's checksum is not the one in a manifest. -/
def isModified (checksum : HashFunction) (files : Listing) (snapshot : Snapshot) (f : TreeFile) : Bool :=
  match files.read f.location with
  | .error _ => snapshot.checksums.get? f.key != some ""
  | .ok content => snapshot.checksums.get? f.key != some (checksum content)

/-- Compares a snapshot with a tree; without a limit all files on both sides are compared. -/
def diff (s : SnapshotStore) (checksum : HashFunction) (files : Listing) (snapshot : Snapshot)
    (root : Location) (limit : Option Nat) : SnapshotDiff :=
  let current := s.currentFiles files root
  let both := current.filter fun (key, _) => snapshot.files.contains key
  let compared := limit.elim both both.take
  { snapshot := snapshot.id
    deleted := (sortedSet snapshot.files).filter fun key => !current.contains key
    added := current.keys.filter fun key =>
      !snapshot.files.contains key && !snapshot.skippedOversize.contains key
    modified := (compared.filter fun (_, f) => isModified checksum files snapshot f).map (·.1)
    checked := compared.length
    sampled := compared.length < both.length }

end SnapshotStore

end TreeRepair
