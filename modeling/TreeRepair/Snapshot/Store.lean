import TreeRepair.Config
import TreeRepair.Snapshot.Manifest
import TreeRepair.Surroundings

/-!
The store of snapshots. Every snapshot has a directory named by its id with a manifest and copies of
files; timestamps strictly increase in order of creation. `capture` makes a snapshot, `create` also
removes the oldest beyond a limit, `evict` removes the oldest down to a number.
-/
namespace TreeRepair

/-- Why an operation on snapshots fails. -/
inductive SnapshotError where
  | file (fault : FileFault)
  | notFound (id : String)
  | corruptManifest (id : String)
  /-- A key that is no plain relative path. -/
  | unsafePath (path : String)
  /-- Files that a rollback would change and its emergency snapshot does not hold. -/
  | emergencyIncomplete (missing : List String)
  /-- A rollback has failed half way, with an emergency snapshot of the state before. -/
  | rollbackFailed (emergency reason : String)
  /-- No timestamp is left behind that of the latest snapshot. -/
  | noTimestamp
  deriving DecidableEq, Repr

/-- The wording of an error. -/
def SnapshotError.message : SnapshotError → String
  | .file fault => s!"I/O error: {fault.message}"
  | .notFound id => s!"Snapshot not found: {id}"
  | .corruptManifest id => s!"Corrupt manifest for snapshot {id}"
  | .unsafePath path => s!"Unsafe path in snapshot: {path}"
  | .emergencyIncomplete missing =>
    "Emergency snapshot would not protect: " ++ String.intercalate ", " missing
  | .rollbackFailed emergency reason =>
    s!"Rollback failed ({reason}); emergency snapshot {emergency} holds the pre-rollback state"
  | .noTimestamp => "no timestamp is left"

/-- A directory of snapshots, the rules of walks, and the limits of what is kept. -/
structure SnapshotStore where
  directory : Location
  filter : SourceFilter
  /-- Larger files are left out. -/
  maxFileBytes : Nat
  /-- How many snapshots are kept when one is created. -/
  maxSnapshots : Nat

namespace SnapshotStore

/-- The name of a manifest in its snapshot's directory. -/
def manifestName : String := "manifest.json"

/-- The name of the directory of copies in a snapshot's directory. -/
def filesName : String := "files"

/-- The store in a directory under settings; at least one snapshot is kept. -/
def ofConfig (directory : Location) (c : Config) : Except Config.Error SnapshotStore :=
  c.filter.map fun filter => ⟨directory, filter, c.maxSnapshotFileBytes, max 1 c.maxSnapshots⟩

/-- The directory of the snapshot with an id. -/
def snapshotDir (s : SnapshotStore) (id : String) : Location := s.directory.join id

/-- The files that a snapshot takes of a tree, and those that are too large. -/
def eligible (s : SnapshotStore) (files : Listing) (root : Location) : List TreeFile × List TreeFile :=
  (s.filter.walkFiles files root).partition fun f => f.size ≤ s.maxFileBytes

/-! ## Loading -/

/-- Whether an id is the name of a directory entry. -/
def isPlainName (id : String) : Bool :=
  !id.isEmpty && id != "." && id != ".." && id.toList.all fun c => c != '/' && c != '\\'

/-- The manifest in the directory named by an id. -/
def load (s : SnapshotStore) (files : Listing) (id : String) : Except SnapshotError Snapshot :=
  if !isPlainName id then .error (.notFound id)
  else
    match files.read ((s.snapshotDir id).join manifestName) with
    | .error .noEntry => .error (.notFound id)
    | .error fault => .error (.file fault)
    | .ok bytes =>
      match Snapshot.ofBytes? bytes with
      | none => .error (.corruptManifest id)
      | some snapshot => .ok snapshot

/-- Whether a snapshot is not behind another one: by timestamp, then by id. -/
def notBehind (a b : Snapshot) : Bool :=
  a.timestamp < b.timestamp || (a.timestamp == b.timestamp && !(b.id < a.id))

/-- The names of the directories in a listing. -/
def dirNames (inner : Listing) : List String :=
  inner.entries.filterMap fun (name, e) =>
    match e with
    | .dir _ => some name
    | .file _ => none

/-- All snapshots with a readable manifest, oldest first. -/
def list (s : SnapshotStore) (files : Listing) : List Snapshot :=
  match files.listing s.directory with
  | .error _ => []
  | .ok inner => ((dirNames inner).filterMap fun id => (s.load files id).toOption).mergeSort notBehind

/-- The snapshot created last. -/
def latest? (s : SnapshotStore) (files : Listing) : Option Snapshot := (s.list files).getLast?

/-! ## Eviction -/

/-- What eviction has removed. -/
structure Eviction where
  removed : List String
  freedBytes : Nat
  deriving DecidableEq, Repr

/-- The number of bytes of the files below a directory. -/
def sizeBelow (files : Listing) (directory : Location) : Nat :=
  match files.entryAt directory with
  | .ok (.dir inner) => inner.totalBytes
  | .ok (.file content) => content.size
  | .error _ => 0

/-- Removes snapshots one after another, up to the first that cannot be removed. -/
def removeAll (s : SnapshotStore) :
    List Snapshot → Eviction → Listing → Except SnapshotError Eviction × Listing
  | [], e, files => (.ok e, files)
  | snapshot :: rest, e, files =>
    let directory := s.snapshotDir snapshot.id
    match files.removeDir directory with
    | (.error fault, left) => (.error (.file fault), left)
    | (.ok (), left) =>
      s.removeAll rest ⟨e.removed ++ [snapshot.id], e.freedBytes + sizeBelow files directory⟩ left

/-- Removes all snapshots but the newest `keep`. -/
def evict (s : SnapshotStore) (files : Listing) (keep : Nat) : Except SnapshotError Eviction × Listing :=
  let snapshots := s.list files
  s.removeAll (snapshots.take (snapshots.length - keep)) ⟨[], 0⟩ files

/-! ## Creation -/

/-- Copies files below a directory and enters them in a manifest. A file that cannot be read is left
out unless it is required. -/
def copyAll (checksum : HashFunction) (target : Location) (required : List String) :
    List TreeFile → Snapshot → Listing → Except FileFault Snapshot × Listing
  | [], snapshot, files => (.ok snapshot, files)
  | f :: rest, snapshot, files =>
    match files.read f.location with
    | .error fault =>
      if required.contains f.key then (.error fault, files)
      else copyAll checksum target required rest snapshot files
    | .ok content =>
      let place := target.join f.key
      match files.createDirs place.parent with
      | (.error fault, left) => (.error fault, left)
      | (.ok (), made) =>
        match made.write place content with
        | .error fault => (.error fault, made)
        | .ok written =>
          copyAll checksum target required rest
            { snapshot with
              files := snapshot.files ++ [f.key]
              checksums := snapshot.checksums.put f.key (checksum content)
              totalBytes := snapshot.totalBytes + content.size }
            written

/-- Whether the key of one file is not behind that of another. -/
def keyLe (a b : TreeFile) : Bool := !(b.key < a.key)

/-- Fills the directory of a snapshot: the copies first, the manifest last. -/
def fill (s : SnapshotStore) (checksum : HashFunction) (files : Listing) (root directory : Location)
    (required : List String) (snapshot : Snapshot) : Except FileFault Snapshot × Listing :=
  let target := directory ++ [filesName]
  match files.createDirs target with
  | (.error fault, left) => (.error fault, left)
  | (.ok (), made) =>
    let (small, large) := s.eligible made root
    let (forced, skipped) := large.partition fun f => required.contains f.key
    match copyAll checksum target required ((small ++ forced).mergeSort keyLe) snapshot made with
    | (.error fault, left) => (.error fault, left)
    | (.ok filled, copied) =>
      let final := { filled with skippedOversize := skipped.map (·.key) }
      match copied.write (directory ++ [manifestName]) final.bytes with
      | .error fault => (.error fault, copied)
      | .ok written => (.ok final, written)

/-- Timestamps are below this. -/
def timestampBound : Nat := Nat.pow 2 64

/-- The least timestamp for a new snapshot, if one is left. -/
def nextTimestamp? (s : SnapshotStore) (files : Listing) : Option Nat :=
  match s.latest? files with
  | none => some 0
  | some latest => if latest.timestamp + 1 < timestampBound then some (latest.timestamp + 1) else none

/-- The id of a snapshot: its timestamp and eight digits of a fresh id. -/
def idOf (timestamp : Nat) (freshId : String) : String :=
  toString timestamp ++ "-" ++ String.ofList (freshId.toList.take 8)

/-- Makes a snapshot of a tree. Files that are required are taken whatever their size; if something
cannot be read or written the new directory is removed again. -/
def capture (s : SnapshotStore) (env : Surroundings) (w : World) (root : Location)
    (tag description : String) (required : List String) : Except SnapshotError Snapshot × World :=
  match s.nextTimestamp? w.files with
  | none => (.error .noTimestamp, w)
  | some floor =>
    let timestamp := max (w.now env) floor
    let id := idOf timestamp (w.freshId env)
    let directory := s.snapshotDir id
    let empty : Snapshot := ⟨id, tag, description, timestamp, [], [], 0, []⟩
    match s.fill env.checksum w.files root directory required empty with
    | (.ok snapshot, files) => (.ok snapshot, w.drawn.withFiles files)
    | (.error fault, files) => (.error (.file fault), w.drawn.withFiles (files.removeDir directory).2)

/-- Makes a snapshot of a tree, then removes the oldest ones beyond the limit. -/
def create (s : SnapshotStore) (env : Surroundings) (w : World) (root : Location)
    (tag description : String) : Except SnapshotError Snapshot × World :=
  match s.capture env w root tag description [] with
  | (.error e, left) => (.error e, left)
  | (.ok snapshot, made) =>
    match s.evict made.files s.maxSnapshots with
    | (.error e, files) => (.error e, made.withFiles files)
    | (.ok _, files) => (.ok snapshot, made.withFiles files)

/-! ## Stored files -/

/-- Whether a key is a relative path of names only. -/
def isSafeRelative (key : String) : Bool :=
  !key.isEmpty && (Path.components key).all fun
    | .name _ => true
    | _ => false

/-- The place of a stored file. -/
def storedFile (s : SnapshotStore) (snapshot : Snapshot) (key : String) : Except SnapshotError Location :=
  if isSafeRelative key then .ok (((s.snapshotDir snapshot.id).join filesName).join key)
  else .error (.unsafePath key)

end SnapshotStore

end TreeRepair
