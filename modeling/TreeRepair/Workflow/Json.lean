import TreeRepair.Graph.Json
import TreeRepair.Workflow.Report

/-!
The JSON values of reports.
-/
namespace TreeRepair

/-- The JSON value of a remedy. -/
def Remedy.toJson (r : Remedy) : Json :=
  .object [
    ("action", .text r.action),
    ("attempted", .bool r.attempted),
    ("succeeded", .bool r.succeeded),
    ("detail", .text r.detail)]

/-- The JSON value of a check's result. -/
def CheckResult.toJson (c : CheckResult) : Json :=
  .object [
    ("name", .text c.name),
    ("severity", .text c.severity.name),
    ("passed", .bool c.passed),
    ("detail", .text c.detail),
    ("remediation", Json.optional Remedy.toJson c.remedy)]

/-- The JSON value of the results of checks. -/
def PreflightReport.toJson (r : PreflightReport) : Json :=
  .object [("dry_run", .bool r.dryRun), ("checks", .array (r.checks.map CheckResult.toJson))]

/-- The JSON value of a host's counts. -/
def ParseMetrics.toJson (m : ParseMetrics) : Json :=
  .object [
    ("files_parsed", .nat m.filesParsed),
    ("cache_hits", .nat m.cacheHits),
    ("total_errors", .nat m.totalErrors)]

/-- The JSON value of a candidate. -/
def Candidate.toJson (c : Candidate) : Json :=
  .object [("file", .text c.file), ("rule", .text c.rule.name)]

/-- The JSON value of why an attempt with a rule came to no verdict. -/
def AttemptFailure.toJson (rule : String) (f : AttemptFailure) : Json :=
  .object [("message", .text f.message), ("rule", .text rule), ("timestamp_ms", .nat f.timestamp)]

/-- The JSON value of an outcome, without its unit. -/
def Outcome.toJson (o : Outcome) : Json :=
  .object [
    ("rule", .text o.rule),
    ("file", .text o.file),
    ("success", .bool o.success),
    ("transformed", .bool o.transformed),
    ("new_source", Json.optional .text o.newSource),
    ("error", Json.optional (AttemptFailure.toJson o.rule) o.failure),
    ("verification", Json.optional Verdict.toJson o.verdict),
    ("proof_id", Json.optional .text o.proof),
    ("edits", .nat o.edits)]

/-- The JSON value of a rule's counts. -/
def RuleStats.toJson (s : RuleStats) : Json :=
  .object [("applied", .nat s.applied), ("succeeded", .nat s.succeeded), ("failed", .nat s.failed)]

/-- The JSON value of the counts of rules. -/
def statsJson (table : List (RuleId × RuleStats)) : Json :=
  .object (table.map fun (id, stats) => (id.name, stats.toJson))

/-- The JSON value of a comparison. -/
def SnapshotDiff.toJson (d : SnapshotDiff) : Json :=
  .object [
    ("snapshot_id", .text d.snapshot),
    ("deleted_files", Json.texts d.deleted),
    ("new_files", Json.texts d.added),
    ("modified_files", Json.texts d.modified),
    ("checked", .nat d.checked),
    ("sampled", .bool d.sampled)]

/-- The JSON value of a step. -/
def RollbackStep.toJson (s : RollbackStep) : Json :=
  .object [
    ("action", .text s.action.name),
    ("path", Json.optional .text s.path),
    ("critical", .bool s.critical)]

/-- The JSON value of a plan. -/
def RollbackPlan.toJson (p : RollbackPlan) : Json :=
  .object [
    ("snapshot_id", .text p.snapshot),
    ("files_to_restore", Json.texts p.restores),
    ("files_to_delete", Json.texts p.deletes),
    ("steps", .array (p.steps.map RollbackStep.toJson))]

/-- The JSON value of what came of a rollback. -/
def RollbackReport.toJson (r : RollbackReport) : Json :=
  .object [
    ("dry_run", .bool r.dryRun),
    ("plan", r.plan.toJson),
    ("emergency_snapshot_id", Json.optional .text r.emergency),
    ("restored", .nat r.restored),
    ("deleted", .nat r.deleted),
    ("verified", .bool r.verified)]

/-- The JSON value of a scan's report. -/
def ScanReport.toJson (r : ScanReport) : Json :=
  .object [
    ("root", .text r.root),
    ("timestamp_ms", .nat r.timestamp),
    ("dry_run", .bool r.dryRun),
    ("preflight", r.preflight.toJson),
    ("snapshot_id", Json.optional .text r.snapshot),
    ("analysis", r.analysis.toJson),
    ("parse_metrics", r.metrics.toJson)]

/-- The JSON value of a fix's report. -/
def FixReport.toJson (r : FixReport) : Json :=
  .object [
    ("root", .text r.root),
    ("timestamp_ms", .nat r.timestamp),
    ("dry_run", .bool r.dryRun),
    ("preflight", r.preflight.toJson),
    ("snapshot_id", Json.optional .text r.snapshot),
    ("before", r.before.toJson),
    ("after", Json.optional Analysis.Summary.toJson r.after),
    ("candidates", .array (r.candidates.map Candidate.toJson)),
    ("outcomes", .array (r.outcomes.map Outcome.toJson)),
    ("files_written", Json.texts r.filesWritten)]

namespace VerifyReport

/-- The number of records checked, none if the chain does not hold. -/
def checked (r : VerifyReport) : Nat := r.chain.toOption.getD 0

/-- What is wrong with the chain. -/
def chainError? (r : VerifyReport) : Option String :=
  match r.chain with
  | .ok _ => none
  | .error e => some e.message

/-- The JSON value of a verification's report. -/
def toJson (r : VerifyReport) : Json :=
  .object [
    ("timestamp_ms", .nat r.timestamp),
    ("chain_valid", .bool r.chainError?.isNone),
    ("records_checked", .nat r.checked),
    ("chain_error", Json.optional .text r.chainError?),
    ("ledger", r.ledger.toJson),
    ("outstanding", .array (r.outstanding.map Candidate.toJson))]

end VerifyReport

/-- The JSON value of a rollback's report. -/
def RollbackSummary.toJson (r : RollbackSummary) : Json :=
  .object [
    ("timestamp_ms", .nat r.timestamp),
    ("preflight", r.preflight.toJson),
    ("diff", r.diff.toJson),
    ("report", r.report.toJson)]

/-- The JSON value of what a status report says of a snapshot. -/
def Snapshot.infoJson (s : Snapshot) : Json :=
  .object [
    ("id", .text s.id),
    ("tag", .text s.tag),
    ("description", .text s.description),
    ("timestamp_ms", .nat s.timestamp),
    ("files", .nat s.files.length),
    ("total_bytes", .nat s.totalBytes)]

/-- The JSON value of a status report. -/
def StatusReport.toJson (r : StatusReport) : Json :=
  .object [
    ("root", .text r.root),
    ("home", .text r.home),
    ("timestamp_ms", .nat r.timestamp),
    ("snapshots", .array (r.snapshots.map Snapshot.infoJson)),
    ("cache_entries", .nat r.cacheEntries),
    ("parse_metrics", r.metrics.toJson),
    ("rule_stats", statsJson r.rules),
    ("ledger", r.ledger.toJson)]

end TreeRepair
