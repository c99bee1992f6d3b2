import TreeRepair.Workflow.Report

/-!
The five workflows. `scan` analyzes a project, `fix` applies every rule to every file that shows its
defect, `verify` checks the proof ledger and lists the defects left, `rollback` brings the tree back to
a snapshot, `status` tells what there is. A blocked `fix` or `rollback` stops unless it is forced.
-/
namespace TreeRepair

namespace Site

open Registry (Bench)

/-- The tag of the snapshots that rollbacks make. -/
def emergencyTag : String := "emergency"

/-- A bench with the world's next clock reading taken. -/
def tick (b : Bench) : Bench := { b with world := b.world.drawn }

/-- Runs the checks before a run. -/
def preflight (s : Site) (env : Surroundings) (facts : HostFacts) (b : Bench) (dryRun : Bool) :
    PreflightReport × Bench :=
  let (report, w) := Preflight.run env s.config s.store facts b.world s.root dryRun
  (report, { b with world := w })

/-- The names of the checks that stop a run. -/
def stopping (report : PreflightReport) (dryRun force : Bool) : List String :=
  if dryRun || force then [] else report.blocking.map (·.name)

/-- Analyzes the project. -/
def analyze (s : Site) (env : Surroundings) (b : Bench) : Analysis × Bench :=
  let (analysis, host, files) := Analysis.run env s.filter b.host b.world.files s.root
  (analysis, ⟨b.registry, host, b.world.withFiles files⟩)

/-- The candidates of a file, and the bench behind parsing it; a file that cannot be read has none. -/
def candidatesOf (s : Site) (env : Surroundings) (b : Bench) (file : TreeFile) : List Candidate × Bench :=
  match b.host.parseFile env b.world.files s.root file.key with
  | .error _ => ([], b)
  | .ok parsed =>
    ((b.registry.candidates parsed.unit).map (⟨file.key, ·⟩),
      ⟨b.registry, parsed.host, b.world.withFiles parsed.files⟩)

/-- The candidates of files, and the bench behind parsing them. -/
def candidatesAmong (s : Site) (env : Surroundings) : List TreeFile → Bench → List Candidate × Bench
  | [], b => ([], b)
  | file :: rest, b =>
    let (first, next) := s.candidatesOf env b file
    let (others, last) := s.candidatesAmong env rest next
    (first ++ others, last)

/-- The candidates of a project in the order of keys. -/
def candidates (s : Site) (env : Surroundings) (b : Bench) : List Candidate × Bench :=
  s.candidatesAmong env (s.filter.walkSources b.world.files s.root) b

/-! ## Scan -/

/-- Makes the snapshot of a scan, unless it is a dry run or blocked. -/
def scanSnapshot (s : Site) (env : Surroundings) (b : Bench) (wanted : Bool) :
    Except SnapshotError (Option String) × Bench :=
  if wanted then
    match s.store.create env b.world s.root "scan" "state at scan" with
    | (.ok snapshot, w) => (.ok (some snapshot.id), { b with world := w })
    | (.error e, w) => (.error e, { b with world := w })
  else (.ok none, b)

/-- Checks, makes a snapshot and analyzes. -/
def scan (s : Site) (env : Surroundings) (facts : HostFacts) (b : Bench) (dryRun force : Bool) :
    Except WorkflowError ScanReport × Bench :=
  let (report, checked) := s.preflight env facts b dryRun
  match s.scanSnapshot env checked (!dryRun && (!report.isBlocked || force)) with
  | (.error e, left) => (.error (.snapshot e), left)
  | (.ok snapshot, saved) =>
    let (analysis, done) := s.analyze env saved
    (.ok ⟨s.rootText, done.world.now env, dryRun, report, snapshot, analysis, done.host.metrics⟩, tick done)

/-! ## Fix -/

/-- The state of a file between two rules. -/
structure Draft where
  source : String
  unit : ParsedUnit

/-- Applies rules in order to a draft, each to what the accepted ones before it have left. Rules whose
defect the draft does not show are passed over. -/
def applyRules (env : Surroundings) (file : String) :
    List RuleId → Draft → Bench → List Outcome × Draft × Bench
  | [], d, b => ([], d, b)
  | id :: rest, d, b =>
    if (b.registry.rule? id).any (·.isCandidate d.unit) then
      let (outcome, next) := Registry.apply env b id d.unit file d.source
      let left : Draft :=
        match outcome.newSource, outcome.unit with
        | some source, some u => ⟨source, u⟩
        | _, _ => d
      let (outcomes, final, last) := applyRules env file rest left next
      (outcome :: outcomes, final, last)
    else applyRules env file rest d b

/-- The name of the file that new content is written to before it takes the old file's place. -/
def draftName (process : Nat) (name : String) : String :=
  "." ++ name ++ ".warden-tmp-" ++ toString process

/-- Puts new content in the place of a file by way of a file beside it, which is gone afterwards. -/
def replaceFile (process : Nat) (files : Listing) (place : Location) (content : ByteArray) :
    Except FileFault Unit × Listing :=
  let draft := place.parent ++ [draftName process (place.components.getLastD "")]
  match files.write draft content with
  | .error fault => (.error fault, (files.removeFile draft).toOption.getD files)
  | .ok written =>
    match written.rename draft place with
    | .error fault => (.error fault, (written.removeFile draft).toOption.getD written)
    | .ok moved => (.ok (), moved)

/-- What comes of fixing files: the outcomes, the files written, and the bench behind it. -/
structure Fixed where
  outcomes : List Outcome
  written : List String
  bench : Bench

/-- Applies the rules to a file and writes it if its source has changed. A file that is no text is left
alone. -/
def fixFile (s : Site) (env : Surroundings) (f : Fixed) (key : String) : Except FileFault Unit × Fixed :=
  let place := s.root.join key
  match f.bench.world.files.readText place with
  | .error _ => (.ok (), f)
  | .ok source =>
    let parsed := f.bench.host.parse env f.bench.world.files key source
    let bench : Bench := ⟨f.bench.registry, parsed.host, f.bench.world.withFiles parsed.files⟩
    let ids := bench.registry.rules.map (·.id)
    let (outcomes, final, b) := applyRules env key ids ⟨source, parsed.unit⟩ bench
    if final.source = source then (.ok (), ⟨f.outcomes ++ outcomes, f.written, b⟩)
    else
      match replaceFile env.process b.world.files place final.source.toUTF8 with
      | (.error fault, files) =>
        (.error fault, ⟨f.outcomes ++ outcomes, f.written, { b with world := b.world.withFiles files }⟩)
      | (.ok (), files) =>
        (.ok (), ⟨f.outcomes ++ outcomes, f.written ++ [key], { b with world := b.world.withFiles files }⟩)

/-- Fixes files in order, up to the first that cannot be written. -/
def fixAll (s : Site) (env : Surroundings) : List String → Fixed → Except FileFault Unit × Fixed
  | [], f => (.ok (), f)
  | key :: rest, f =>
    match s.fixFile env f key with
    | (.error fault, left) => (.error fault, left)
    | (.ok (), next) => s.fixAll env rest next

/-- A list without items that equal the one before them. -/
def dropRepeats : List String → List String
  | [] => []
  | [key] => [key]
  | a :: b :: rest => if a = b then dropRepeats (b :: rest) else a :: dropRepeats (b :: rest)

/-- Makes a snapshot and fixes the candidates' files. -/
def fixCandidates (s : Site) (env : Surroundings) (report : PreflightReport) (before : Analysis.Summary)
    (candidates : List Candidate) (b : Bench) : Except WorkflowError FixReport × Bench :=
  match s.store.create env b.world s.root "pre-fix" "state before fix" with
  | (.error e, w) => (.error (.snapshot e), { b with world := w })
  | (.ok snapshot, w) =>
    match s.fixAll env (dropRepeats (candidates.map (·.file))) ⟨[], [], { b with world := w }⟩ with
    | (.error fault, left) => (.error (.file fault), left.bench)
    | (.ok (), fixed) =>
      let (after, done) := s.analyze env fixed.bench
      (.ok ⟨s.rootText, done.world.now env, false, report, some snapshot.id, before, some after.summary,
        candidates, fixed.outcomes, fixed.written⟩, tick done)

/-- Checks, analyzes, and repairs what the rules can repair. -/
def fix (s : Site) (env : Surroundings) (facts : HostFacts) (b : Bench) (dryRun force : Bool) :
    Except WorkflowError FixReport × Bench :=
  let (report, checked) := s.preflight env facts b dryRun
  match stopping report dryRun force with
  | name :: names => (.error (.blocked (name :: names)), checked)
  | [] =>
    let (analysis, analyzed) := s.analyze env checked
    let (candidates, found) := s.candidates env analyzed
    if dryRun then
      (.ok ⟨s.rootText, found.world.now env, true, report, none, analysis.summary, none, candidates, [], []⟩,
        tick found)
    else s.fixCandidates env report analysis.summary candidates found

/-! ## Verify -/

/-- Checks the ledger and lists the defects that are left. -/
def verify (s : Site) (env : Surroundings) (b : Bench) : VerifyReport × Bench :=
  let ledger := b.registry.ledger
  let (outstanding, done) := s.candidates env b
  (⟨done.world.now env, ledger.checkChain env.contentHash, ledger.summary, outstanding⟩, tick done)

/-! ## Rollback -/

/-- The snapshot to go back to: the one with the given id, or the latest that no rollback has made. -/
def rollbackTarget (s : Site) (files : Listing) (id : Option String) : Except WorkflowError Snapshot :=
  match id with
  | some id =>
    match s.store.load files id with
    | .ok snapshot => .ok snapshot
    | .error e => .error (.snapshot e)
  | none =>
    match (s.store.list files).reverse.find? (·.tag != emergencyTag) with
    | some snapshot => .ok snapshot
    | none => .error .noSnapshot

/-- Checks and brings the tree back to a snapshot. -/
def rollback (s : Site) (env : Surroundings) (facts : HostFacts) (b : Bench) (id : Option String)
    (dryRun force : Bool) : Except WorkflowError RollbackSummary × Bench :=
  let (report, checked) := s.preflight env facts b dryRun
  match stopping report dryRun force with
  | name :: names => (.error (.blocked (name :: names)), checked)
  | [] =>
    match s.rollbackTarget checked.world.files id with
    | .error e => (.error e, checked)
    | .ok target =>
      let diff := s.store.diff env.checksum checked.world.files target s.root none
      let plan := RollbackPlan.ofDiff target diff
      match s.store.executeRollback env checked.world plan s.root dryRun with
      | (.error e, w) => (.error (.snapshot e), { checked with world := w })
      | (.ok done, w) => (.ok ⟨w.now env, report, diff, done⟩, tick { checked with world := w })

/-! ## Status -/

/-- Tells what there is. -/
def status (s : Site) (env : Surroundings) (b : Bench) : StatusReport × Bench :=
  (⟨s.rootText, s.homeText, b.world.now env, s.store.list b.world.files, b.host.cache.size, b.host.metrics,
    b.registry.statsTable, b.registry.ledger.summary⟩, tick b)

end Site

end TreeRepair
