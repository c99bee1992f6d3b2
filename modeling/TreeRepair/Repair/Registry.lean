import TreeRepair.Ledger.Append
import TreeRepair.Parsing.Host
import TreeRepair.Repair.Builtin

/-!
Attempts at repairs. A registry holds rules, counts for each of them, and a proof ledger. An attempt
applies what a rule proposes, parses the result and takes the rule's verdict; the new source is given
out only if the verdict is good, and every attempt leaves one record.
-/
namespace TreeRepair

/-- The attempts of a rule. -/
structure RuleStats where
  applied : Nat
  succeeded : Nat
  failed : Nat
  deriving DecidableEq, Repr

/-- The counts with one more attempt. -/
def RuleStats.count (s : RuleStats) (success : Bool) : RuleStats :=
  ⟨s.applied + 1, s.succeeded + (if success then 1 else 0), s.failed + (if success then 0 else 1)⟩

/-- Why an attempt has come to no verdict, and when. -/
structure AttemptFailure where
  message : String
  timestamp : Nat
  deriving DecidableEq, Repr

/-- What comes of an attempt. -/
structure Outcome where
  /-- The name of the rule. -/
  rule : String
  file : String
  /-- The verdict is good. -/
  success : Bool
  /-- The verdict is good and the source has changed. -/
  transformed : Bool
  /-- The source behind a good verdict. -/
  newSource : Option String
  /-- The unit of that source. -/
  unit : Option ParsedUnit
  failure : Option AttemptFailure
  verdict : Option Verdict
  /-- The record of the attempt. -/
  proof : Option String
  edits : Nat

namespace Outcome

/-- What comes of an attempt without a result. -/
def failed (rule file message : String) (timestamp : Nat) (verdict : Option Verdict) : Outcome :=
  ⟨rule, file, false, false, none, none, some ⟨message, timestamp⟩, verdict, none, 0⟩

/-- What comes of an attempt that a rule has judged. -/
def judged (rule file before after : String) (u : ParsedUnit) (verdict : Verdict) (edits : Nat) : Outcome :=
  let good := verdict.success
  ⟨rule, file, good, good && after != before, if good then some after else none,
    if good then some u else none, none, some verdict, none, edits⟩

end Outcome

/-- Rules with their counts, and the ledger of attempts. -/
structure Registry where
  rules : List Rule
  stats : RuleId → RuleStats
  ledger : ProofLedger

namespace Registry

/-- A registry in which nothing has been attempted. -/
def fresh (rules : List Rule) (ledger : ProofLedger) : Registry := ⟨rules, fun _ => ⟨0, 0, 0⟩, ledger⟩

/-- The first rule with an id. -/
def rule? (r : Registry) (id : RuleId) : Option Rule := r.rules.find? (·.id == id)

/-- The rules whose defect a unit shows. -/
def candidates (r : Registry) (u : ParsedUnit) : List RuleId :=
  (r.rules.filter (·.isCandidate u)).map (·.id)

/-- The counts of the rules in the registry, in the order of rules. -/
def statsTable (r : Registry) : List (RuleId × RuleStats) :=
  (RuleId.all.filter fun id => (r.rule? id).isSome).map fun id => (id, r.stats id)

/-- A registry with one more attempt of a rule in its counts. -/
def count (r : Registry) (id : RuleId) (success : Bool) : Registry :=
  ⟨r.rules, fun other => if other = id then (r.stats id).count success else r.stats other, r.ledger⟩

/-! ## Attempts -/

/-- What an attempt runs with and changes. -/
structure Bench where
  registry : Registry
  host : ParserHost
  world : World

/-- The edits of a rule and the source behind them, or why there is none. -/
def edited (rule : Rule) (u : ParsedUnit) (source : String) : Except String (List Text.Edit × String) :=
  match rule.propose u source with
  | .error fault => .error fault.message
  | .ok edits =>
    match Text.applyEdits source edits with
    | .error e => .error e.message
    | .ok after => .ok (edits, after)

/-- Attempts a repair without a record of it: what comes of it, and the host and files behind it. -/
def attempt (env : Surroundings) (b : Bench) (rule : Rule) (u : ParsedUnit) (file source : String) :
    Outcome × ParserHost × Listing :=
  match edited rule u source with
  | .error message =>
    (.failed rule.id.name file message (b.world.now env) (some (.failed rule.defect message)),
      b.host, b.world.files)
  | .ok (edits, after) =>
    let parsed := b.host.parse env b.world.files file after
    (.judged rule.id.name file source after parsed.unit (rule.judge u parsed.unit) edits.length,
      parsed.host, parsed.files)

/-- Applies a rule of the registry to a source and records the attempt. -/
def applyRule (env : Surroundings) (b : Bench) (rule : Rule) (u : ParsedUnit) (file source : String) :
    Outcome × Bench :=
  let (outcome, host, files) := attempt env b rule u file source
  let verdict := outcome.verdict.getD (.failed rule.defect "no verdict")
  let added := b.registry.ledger.append env (b.world.withFiles files) rule.id.name file verdict 0
  let registry := { b.registry with ledger := added.ledger }
  ({ outcome with proof := some added.entry.id },
    ⟨registry.count rule.id outcome.success, host, added.world⟩)

/-- Applies the rule with an id. Without such a rule nothing changes. -/
def apply (env : Surroundings) (b : Bench) (id : RuleId) (u : ParsedUnit) (file source : String) :
    Outcome × Bench :=
  match b.registry.rule? id with
  | none => (.failed id.name file (unknownRule id.name) (b.world.now env) none, b)
  | some rule => applyRule env b rule u file source

/-- Applies the rule with a name. -/
def applyNamed (env : Surroundings) (b : Bench) (name : String) (u : ParsedUnit) (file source : String) :
    Outcome × Bench :=
  match RuleId.ofName? name with
  | none => (.failed name file (unknownRule name) (b.world.now env) none, b)
  | some id => apply env b id u file source

end Registry

end TreeRepair
