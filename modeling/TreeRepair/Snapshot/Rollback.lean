import TreeRepair.Snapshot.Diff

/-!
Rollbacks to a snapshot. A plan lists steps for a difference; executing it first makes an emergency
snapshot that holds every file the plan would change, then carries out the steps in order, and leaves
a log of them beside the emergency snapshot.
-/
namespace TreeRepair

/-- What a step does. -/
inductive StepAction where
  | emergencyBackup
  /-- Writes a stored file over a changed one. -/
  | restore
  /-- Removes a file that the snapshot does not know. -/
  | delete
  /-- Writes a stored file that is gone. -/
  | restoreDeleted
  | verify
  deriving DecidableEq, Repr

namespace StepAction

/-- All actions. -/
def all : List StepAction := [.emergencyBackup, .restore, .delete, .restoreDeleted, .verify]

/-- The name of an action. -/
def name : StepAction → String
  | .emergencyBackup => "emergency_backup"
  | .restore => "restore"
  | .delete => "delete"
  | .restoreDeleted => "restore_deleted"
  | .verify => "verify"

/-- The action with a name. -/
def ofName? (s : String) : Option StepAction := all.find? (·.name == s)

end StepAction

/-- A step of a plan. -/
structure RollbackStep where
  action : StepAction
  path : Option String
  critical : Bool
  deriving DecidableEq, Repr

/-- A plan to bring a tree back to a snapshot. -/
structure RollbackPlan where
  snapshot : String
  /-- Changed and deleted files. -/
  restores : List String
  /-- Files that the snapshot does not know. -/
  deletes : List String
  steps : List RollbackStep
  deriving DecidableEq, Repr

namespace RollbackPlan

/-- The order of paths. -/
def pathLe (a b : String) : Bool := !(b < a)

/-- The plan for a difference: backup, changed files, unknown files, deleted files, verification. -/
def ofDiff (snapshot : Snapshot) (d : SnapshotDiff) : RollbackPlan where
  snapshot := snapshot.id
  restores := (d.modified ++ d.deleted).mergeSort pathLe
  deletes := d.added
  steps :=
    [⟨.emergencyBackup, none, true⟩]
      ++ d.modified.map (fun key => ⟨.restore, some key, true⟩)
      ++ d.added.map (fun key => ⟨.delete, some key, false⟩)
      ++ d.deleted.map (fun key => ⟨.restoreDeleted, some key, true⟩)
      ++ [⟨.verify, none, false⟩]

/-- Whether a plan changes no file. -/
def isEmpty (p : RollbackPlan) : Bool := p.restores.isEmpty && p.deletes.isEmpty

/-- The files that a plan would change and that are there, in order. -/
def atRisk (p : RollbackPlan) (files : Listing) (root : Location) : List String :=
  sortedSet ((p.restores ++ p.deletes).filter fun key =>
    SnapshotStore.isSafeRelative key && files.isFile (root.join key))

end RollbackPlan

/-- A step that has been carried out. -/
structure LogEntry where
  action : StepAction
  path : String
  /-- The checksum of what was written; nothing for deletions. -/
  checksum : Option String
  timestamp : Nat
  deriving DecidableEq, Repr

/-- The log of a rollback. -/
structure TransactionLog where
  target : String
  emergency : String
  completed : Bool
  entries : List LogEntry
  error : Option String
  deriving DecidableEq, Repr

/-- What comes of a rollback. -/
structure RollbackReport where
  dryRun : Bool
  plan : RollbackPlan
  emergency : Option String
  restored : Nat
  deleted : Nat
  verified : Bool
  deriving DecidableEq, Repr

/-- The JSON value of a log entry. -/
def LogEntry.toJson (e : LogEntry) : Json :=
  .object [
    ("action", .text e.action.name),
    ("path", .text e.path),
    ("checksum", Json.optional .text e.checksum),
    ("timestamp_ms", .nat e.timestamp)]

/-- The JSON value of a log. -/
def TransactionLog.toJson (l : TransactionLog) : Json :=
  .object [
    ("target_snapshot", .text l.target),
    ("emergency_snapshot", .text l.emergency),
    ("completed", .bool l.completed),
    ("entries", .array (l.entries.map LogEntry.toJson)),
    ("error", Json.optional .text l.error)]

namespace SnapshotStore

/-- The name of a log in the directory of its emergency snapshot. -/
def logName : String := "transactions.json"

/-! ## Steps -/

/-- What a rollback works with. -/
structure Rollback where
  store : SnapshotStore
  root : Location
  plan : RollbackPlan
  /-- The snapshot that the tree is brought back to. -/
  target : Snapshot
  /-- The snapshot of the state before. -/
  emergency : Snapshot
  /-- The files that the plan changes and that were there before. -/
  atRisk : List String

namespace Rollback

/-- Writes a stored file of the target into the tree and gives its checksum. -/
def restore (r : Rollback) (checksum : HashFunction) (files : Listing) (key : String) :
    Except SnapshotError String × Listing :=
  match r.store.storedFile r.target key with
  | .error e => (.error e, files)
  | .ok source =>
    match files.read source with
    | .error fault => (.error (.file fault), files)
    | .ok content =>
      let place := r.root.join key
      match files.createDirs place.parent with
      | (.error fault, left) => (.error (.file fault), left)
      | (.ok (), made) =>
        match made.write place content with
        | .error fault => (.error (.file fault), made)
        | .ok written => (.ok (checksum content), written)

/-- Removes a file of the tree; one that is not there counts as removed. -/
def delete (r : Rollback) (files : Listing) (key : String) : Except SnapshotError Listing :=
  if !isSafeRelative key then .error (.unsafePath key)
  else
    match files.removeFile (r.root.join key) with
    | .ok left => .ok left
    | .error .noEntry => .ok files
    | .error fault => .error (.file fault)

/-- Whether the tree holds what the target does, planned deletions are gone, and every file that was
at risk has its copy. -/
def isVerified (r : Rollback) (checksum : HashFunction) (files : Listing) : Bool :=
  (r.target.checksums.all fun (key, sum) =>
      ((files.read (r.root.join key)).toOption.map checksum) == some sum)
    && (r.plan.deletes.all fun key => !files.isThere (r.root.join key))
    && r.atRisk.all fun key =>
      r.emergency.checksums.contains key
        && (r.store.storedFile r.emergency key).toOption.any files.isFile

/-- How far a rollback has come. -/
structure Progress where
  world : World
  entries : List LogEntry
  verified : Bool

/-- The progress with one more step carried out. -/
def Progress.log (p : Progress) (env : Surroundings) (files : Listing) (action : StepAction)
    (path : String) (checksum : Option String) : Progress :=
  ⟨p.world.drawn.withFiles files, p.entries ++ [⟨action, path, checksum, p.world.now env⟩], p.verified⟩

/-- Carries out a step. -/
def step (r : Rollback) (env : Surroundings) (p : Progress) (s : RollbackStep) :
    Except SnapshotError Unit × Progress :=
  match s.action, s.path with
  | .restore, some key | .restoreDeleted, some key =>
    match r.restore env.checksum p.world.files key with
    | (.error e, files) => (.error e, { p with world := p.world.withFiles files })
    | (.ok sum, files) => (.ok (), p.log env files s.action key (some sum))
  | .delete, some key =>
    match r.delete p.world.files key with
    | .error e => (.error e, p)
    | .ok files => (.ok (), p.log env files s.action key none)
  | .verify, _ => (.ok (), { p with verified := r.isVerified env.checksum p.world.files })
  | _, _ => (.ok (), p)

/-- Carries out steps in order, up to the first that fails. -/
def run (r : Rollback) (env : Surroundings) :
    List RollbackStep → Progress → Except SnapshotError Unit × Progress
  | [], p => (.ok (), p)
  | s :: rest, p =>
    match r.step env p s with
    | (.error e, q) => (.error e, q)
    | (.ok (), q) => r.run env rest q

/-- The log of a run. -/
def logOf (r : Rollback) (result : Except SnapshotError Unit) (p : Progress) : TransactionLog where
  target := r.target.id
  emergency := r.emergency.id
  completed := result.toOption.isSome
  entries := p.entries
  error :=
    match result with
    | .ok _ => none
    | .error e => some e.message

/-- Files with the log of a run, as far as it can be written. -/
def writeLog (r : Rollback) (files : Listing) (log : TransactionLog) : Listing :=
  match files.write ((r.store.snapshotDir r.emergency.id).join logName) log.toJson.pretty.toUTF8 with
  | .error _ => files
  | .ok written => written

/-- Carries out the plan and writes its log. -/
def execute (r : Rollback) (env : Surroundings) (w : World) : Except SnapshotError RollbackReport × World :=
  let (result, p) := r.run env r.plan.steps ⟨w, [], true⟩
  let left := p.world.withFiles (r.writeLog p.world.files (r.logOf result p))
  match result with
  | .error e => (.error (.rollbackFailed r.emergency.id e.message), left)
  | .ok () =>
    let restored := (p.entries.filter (·.checksum.isSome)).length
    (.ok ⟨false, r.plan, some r.emergency.id, restored, p.entries.length - restored, p.verified⟩, left)

end Rollback

/-! ## Execution -/

/-- The report of a plan that is not carried out. -/
def dryReport (plan : RollbackPlan) : RollbackReport := ⟨true, plan, none, 0, 0, false⟩

/-- Executes a plan in a tree. Nothing is touched unless an emergency snapshot holds all that the plan
would change. -/
def executeRollback (s : SnapshotStore) (env : Surroundings) (w : World) (plan : RollbackPlan)
    (root : Location) (dryRun : Bool) : Except SnapshotError RollbackReport × World :=
  if dryRun then (.ok (dryReport plan), w)
  else
    match s.load w.files plan.snapshot with
    | .error e => (.error e, w)
    | .ok target =>
      let atRisk := plan.atRisk w.files root
      match s.capture env w root "emergency" s!"state before rollback to {target.id}" atRisk with
      | (.error e, left) => (.error e, left)
      | (.ok emergency, saved) =>
        let missing := atRisk.filter fun key => !emergency.checksums.contains key
        if missing.isEmpty then
          Rollback.execute ⟨s, root, plan, target, emergency, atRisk⟩ env saved
        else
          let left := (saved.files.removeDir (s.snapshotDir emergency.id)).2
          (.error (.emergencyIncomplete missing), saved.withFiles left)

end SnapshotStore

end TreeRepair
