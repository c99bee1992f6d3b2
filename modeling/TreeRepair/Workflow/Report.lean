import TreeRepair.Graph.Analysis
import TreeRepair.Workflow.Session

/-!
The reports of workflows.
-/
namespace TreeRepair

/-- A file that shows the defect of a rule. -/
structure Candidate where
  file : String
  rule : RuleId
  deriving DecidableEq, Repr

/-- The report of a scan. -/
structure ScanReport where
  root : String
  timestamp : Nat
  dryRun : Bool
  preflight : PreflightReport
  snapshot : Option String
  analysis : Analysis
  metrics : ParseMetrics

/-- The report of a fix. -/
structure FixReport where
  root : String
  timestamp : Nat
  dryRun : Bool
  preflight : PreflightReport
  snapshot : Option String
  before : Analysis.Summary
  /-- The analysis behind the changes, unless it was a dry run. -/
  after : Option Analysis.Summary
  candidates : List Candidate
  outcomes : List Outcome
  filesWritten : List String

/-- The number of accepted repairs. -/
def FixReport.succeeded (r : FixReport) : Nat := (r.outcomes.filter (·.success)).length

/-- The report of a verification. -/
structure VerifyReport where
  timestamp : Nat
  /-- The number of records of an intact chain, or what is wrong with it. -/
  chain : Except ProofLedger.Error Nat
  ledger : ProofLedger.Summary
  /-- The defects that are still there. -/
  outstanding : List Candidate

/-- The report of a rollback. -/
structure RollbackSummary where
  timestamp : Nat
  preflight : PreflightReport
  diff : SnapshotDiff
  report : RollbackReport

/-- The report of a session's state. -/
structure StatusReport where
  root : String
  home : String
  timestamp : Nat
  snapshots : List Snapshot
  cacheEntries : Nat
  metrics : ParseMetrics
  rules : List (RuleId × RuleStats)
  ledger : ProofLedger.Summary

end TreeRepair
