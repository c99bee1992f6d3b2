import TreeRepair.Workflow.Report

/-!
What commands print: a box with a title and labelled values, and below it one line for each finding.
-/
namespace TreeRepair.CommandLine

/-! ## Boxes -/

/-- A text with blanks behind it, up to a width. -/
def padRight (width : Nat) (text : String) : String :=
  text ++ String.ofList (List.replicate (width - text.length) ' ')

/-- A text with blanks in front of it, up to a width. -/
def padLeft (width : Nat) (text : String) : String :=
  String.ofList (List.replicate (width - text.length) ' ') ++ text

/-- The edge of a box. -/
def rule : String := "+" ++ String.ofList (List.replicate 42 '-') ++ "+"

/-- A row of a box. -/
def row (label value : String) : String := "| " ++ padRight 16 label ++ ": " ++ padLeft 22 value ++ " |"

/-- A box with a title and labelled values. -/
def box (title : String) (rows : List (String × String)) : List String :=
  [rule, "| " ++ padRight 40 title ++ " |", rule]
    ++ rows.map (fun (label, value) => row label value)
    ++ [rule]

/-- An id, or a dash in its place. -/
def orDash (id : Option String) : String := id.getD "-"

/-- The title of a command, with a mark for dry runs. -/
def titleOf (title : String) (dryRun : Bool) : String := if dryRun then title ++ " (DRY RUN)" else title

/-! ## Words -/

/-- A grade as a word. -/
def gradeWord : Grade → String
  | .low => "Low"
  | .medium => "Medium"
  | .high => "High"
  | .critical => "Critical"

/-- A kind of weak points as a word. -/
def kindWord : WeakKind → String
  | .parseError => "ParseError"
  | .moduleSideEffect => "ModuleSideEffect"
  | .missingDependency => "MissingDependency"
  | .missingImport => "MissingImport"
  | .circularDependency => "CircularDependency"

/-! ## Reports -/

/-- The line of a weak point. -/
def weakPointLine (p : WeakPoint) : String :=
  s!"  [{gradeWord p.severity}] {kindWord p.kind} {p.place} - {p.detail}"

/-- What is printed of a scan. -/
def scanLines (r : ScanReport) : List String :=
  let a := r.analysis
  box "WARDEN SCAN" [
      ("Files", toString a.survey.files),
      ("Internal edges", toString a.graph.internalEdges),
      ("Cycles", toString a.cycles.length),
      ("Vulnerabilities", toString a.weakPoints.length),
      ("Risk", s!"{gradeWord a.factors.level} ({a.factors.score})"),
      ("Snapshot", orDash r.snapshot)]
    ++ a.weakPoints.map weakPointLine

/-- What is printed of a fix. -/
def fixLines (r : FixReport) : List String :=
  box (titleOf "WARDEN FIX" r.dryRun) [
      ("Candidates", toString r.candidates.length),
      ("Verified", toString r.succeeded),
      ("Rejected", toString (r.outcomes.length - r.succeeded)),
      ("Files written", toString r.filesWritten.length),
      ("Snapshot", orDash r.snapshot)]
    ++ r.candidates.map fun c => s!"  {c.file} <- {c.rule.name}"

/-- What is printed of a verification. -/
def verifyLines (r : VerifyReport) : List String :=
  let (word, notes) : String × List String :=
    match r.chain with
    | .ok _ => ("intact", [])
    | .error e => ("BROKEN", ["  " ++ e.message])
  box "WARDEN VERIFY" [
      ("Proof chain", word),
      ("Records", toString r.ledger.total),
      ("Succeeded", toString r.ledger.succeeded),
      ("Outstanding", toString r.outstanding.length)]
    ++ notes

/-- What is printed of a rollback. -/
def rollbackLines (r : RollbackSummary) : List String :=
  let plan := r.report.plan
  box (titleOf "WARDEN ROLLBACK" r.report.dryRun) [
    ("Target", plan.snapshot),
    ("Restore", toString plan.restores.length),
    ("Delete", toString plan.deletes.length),
    ("Emergency", orDash r.report.emergency)]

/-- What is printed of a status. -/
def statusLines (r : StatusReport) : List String :=
  box "WARDEN STATUS" [
      ("Snapshots", toString r.snapshots.length),
      ("Cache entries", toString r.cacheEntries),
      ("Proofs", toString r.ledger.total),
      ("Success rate", String.ofList (Text.fixedPoint 2 r.ledger.succeeded r.ledger.total))]
    ++ r.snapshots.map fun s => s!"  {s.id} [{s.tag}] {s.files.length} files"

end TreeRepair.CommandLine
