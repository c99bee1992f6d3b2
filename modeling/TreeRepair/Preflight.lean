import TreeRepair.Snapshot.Store

/-!
Checks before a run that changes files. Each check passes or fails, a failed one with a remedy that may
have been tried; a failed critical check whose remedy has not worked blocks the run. In a dry run no
remedy is tried.
-/
namespace TreeRepair

/-- How much a failed check matters. -/
inductive CheckSeverity where
  | warning
  | critical
  deriving DecidableEq, Repr

/-- The name of a severity. -/
def CheckSeverity.name : CheckSeverity → String
  | .warning => "warning"
  | .critical => "critical"

/-- What can be done about a failed check. -/
structure Remedy where
  action : String
  attempted : Bool
  succeeded : Bool
  detail : String
  deriving DecidableEq, Repr

/-- A remedy that is left to the user. -/
def Remedy.manual (action detail : String) : Remedy := ⟨action, false, false, detail⟩

/-- The result of a check. -/
structure CheckResult where
  name : String
  severity : CheckSeverity
  detail : String
  /-- What can be done, if the check has failed. -/
  remedy : Option Remedy
  deriving DecidableEq, Repr

namespace CheckResult

/-- Whether the check has passed. -/
def passed (c : CheckResult) : Bool := c.remedy.isNone

/-- Whether the remedy has worked. -/
def remedied (c : CheckResult) : Bool := c.remedy.any (·.succeeded)

/-- Whether the check blocks a run. -/
def isBlocking (c : CheckResult) : Bool := !c.passed && c.severity == .critical && !c.remedied

end CheckResult

/-- The results of all checks. -/
structure PreflightReport where
  dryRun : Bool
  checks : List CheckResult
  deriving DecidableEq, Repr

namespace PreflightReport

/-- The checks that block a run. -/
def blocking (r : PreflightReport) : List CheckResult := r.checks.filter (·.isBlocking)

/-- Whether a run is blocked. -/
def isBlocked (r : PreflightReport) : Bool := !r.blocking.isEmpty

/-- The result of the check with a name. -/
def check? (r : PreflightReport) (name : String) : Option CheckResult := r.checks.find? (·.name == name)

end PreflightReport

namespace Preflight

/-! ## Version control -/

/-- Uncommitted changes; they are stashed if the settings allow it. -/
def checkChanges (config : Config) (facts : HostFacts) (w : World) (dryRun : Bool) : CheckResult × World :=
  let name := "vcs_clean"
  let action := "stash uncommitted changes"
  let failed (remedy : Remedy) : CheckResult :=
    ⟨name, .warning, "uncommitted changes in working tree", some remedy⟩
  match facts.dirty with
  | none => (⟨name, .warning, "not a git work tree", none⟩, w)
  | some false => (⟨name, .warning, "working tree clean", none⟩, w)
  | some true =>
    if dryRun then (failed (.manual action "skipped in dry run"), w)
    else if !config.autoStash then
      (failed (.manual action "auto_stash disabled; commit or stash manually"), w)
    else
      (failed ⟨action, true, facts.stashError.isNone, facts.stashError.getD "changes stashed"⟩, w.stashed)

/-! ## Disk space -/

/-- Numbers of bytes are below this. -/
def byteBound : Nat := Nat.pow 2 64

/-- A number of bytes, cut at the largest one there is. -/
def clampBytes (n : Nat) : Nat := min n (byteBound - 1)

/-- The size of a snapshot of a tree: the mean size of its first files, `sample` or at least one of
them, times their number. -/
def estimateBytes (store : SnapshotStore) (files : Listing) (root : Location) (sample : Nat) : Nat :=
  let sizes := (store.eligible files root).1.map (·.size)
  let sampled := sizes.take (max sample 1)
  sampled.foldl (· + ·) 0 / sampled.length * sizes.length

/-- The remedy for too little space: all snapshots but the newest are removed. -/
def evictOld (store : SnapshotStore) (files : Listing) (free required : Nat) : Remedy × Listing :=
  let action := "evict oldest backups"
  match store.evict files 1 with
  | (.ok e, left) =>
    (⟨action, true, required < clampBytes (free + e.freedBytes),
      s!"removed {e.removed.length} snapshots, freed {e.freedBytes} bytes"⟩, left)
  | (.error e, left) => (⟨action, true, false, e.message⟩, left)

/-- Free space for two snapshots of the tree; if it is short, old snapshots are removed. -/
def checkDisk (config : Config) (store : SnapshotStore) (facts : HostFacts) (w : World) (root : Location)
    (dryRun : Bool) : CheckResult × World :=
  let name := "disk_space"
  let required := clampBytes (estimateBytes store w.files root config.diskSampleFiles * 2)
  match facts.freeDiskBytes with
  | none => (⟨name, .critical, "free space unknown", none⟩, w)
  | some free =>
    let detail := s!"{free} bytes free, {required} required"
    if required < free || required == 0 then (⟨name, .critical, detail, none⟩, w)
    else if dryRun then
      (⟨name, .critical, detail, some (.manual "evict oldest backups" "skipped in dry run")⟩, w)
    else
      let (remedy, files) := evictOld store w.files free required
      (⟨name, .critical, detail, some remedy⟩, w.withFiles files)

/-! ## Permissions, dependencies, memory -/

/-- The failed check of write permission. -/
def writeDenied (root : Location) (reason : String) : CheckResult :=
  ⟨"write_permission", .critical, s!"cannot write to {root.text}: {reason}",
    some (.manual "request write permission" "grant write access to the project root")⟩

/-- The name of the file that is written to try out write permission. -/
def probeName (freshId : String) : String :=
  ".warden-write-probe-" ++ String.ofList (freshId.toList.filter (· != '-'))

/-- Write permission in the root. A dry run looks at the root only, other runs write a file and remove
it again. -/
def checkWrite (env : Surroundings) (w : World) (root : Location) (dryRun : Bool) : CheckResult × World :=
  let name := "write_permission"
  if dryRun then
    match w.files.entryAt root with
    | .ok (.dir _) => (⟨name, .critical, "project root writable (permission bits)", none⟩, w)
    | .ok (.file _) => (writeDenied root "read-only or not a directory", w)
    | .error fault => (writeDenied root fault.message, w)
  else
    let place := root.join (probeName (w.freshId env))
    match w.files.write place ByteArray.empty with
    | .error fault => (writeDenied root fault.message, w.drawn)
    | .ok written =>
      let left := (written.removeFile place).toOption.getD written
      (⟨name, .critical, "project root writable", none⟩, w.drawn.withFiles left)

/-- Installed dependencies where there is a list of them. -/
def checkDependencies (files : Listing) (root : Location) : CheckResult :=
  let name := "dependencies"
  if files.isFile (root.join "package.json") && !files.isDir (root.join "node_modules") then
    ⟨name, .warning, "package.json present but node_modules missing",
      some (.manual "install dependencies" "run the package manager install")⟩
  else ⟨name, .warning, "dependencies present", none⟩

/-- Free memory. -/
def checkMemory (config : Config) (facts : HostFacts) : CheckResult :=
  let name := "memory"
  match facts.freeMemoryBytes with
  | none => ⟨name, .warning, "available memory unknown", none⟩
  | some free =>
    if free < config.minFreeMemoryBytes then
      ⟨name, .warning, s!"{free} bytes available, {config.minFreeMemoryBytes} wanted",
        some (.manual "free memory" "close memory-heavy processes")⟩
    else ⟨name, .warning, s!"{free} bytes available", none⟩

/-! ## All checks -/

/-- Runs all checks of a tree in order. -/
def run (env : Surroundings) (config : Config) (store : SnapshotStore) (facts : HostFacts) (w : World)
    (root : Location) (dryRun : Bool) : PreflightReport × World :=
  let (changes, afterChanges) := checkChanges config facts w dryRun
  let (disk, afterDisk) := checkDisk config store facts afterChanges root dryRun
  let (permission, afterWrite) := checkWrite env afterDisk root dryRun
  (⟨dryRun, [changes, disk, permission, checkDependencies afterWrite.files root,
    checkMemory config facts]⟩, afterWrite)

end Preflight

end TreeRepair
