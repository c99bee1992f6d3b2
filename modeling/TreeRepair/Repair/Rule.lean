import TreeRepair.Defect
import TreeRepair.Json.Value
import TreeRepair.Text.Edit

/-!
Repair rules. A rule proposes edits of a source for a unit that may show its defect, and judges the
result. What it proposes is nothing more than edits: applying them and recording the verdict is done
in one place for all rules.
-/
namespace TreeRepair

/-- The names of rules. -/
inductive RuleId where
  | strayTextToComment
  | ensureRenderImport
  | interpolateAttribute
  deriving DecidableEq, Repr

namespace RuleId

/-- All rules, in order. -/
def all : List RuleId := [.strayTextToComment, .ensureRenderImport, .interpolateAttribute]

/-- The name of a rule. -/
def name : RuleId → String
  | .strayTextToComment => "stray-text-to-comment"
  | .ensureRenderImport => "ensure-render-import"
  | .interpolateAttribute => "interpolate-attribute"

/-- The rule with a name. -/
def ofName? (s : String) : Option RuleId := all.find? (·.name == s)

end RuleId

/-- Why a rule proposes nothing. -/
inductive RuleFault where
  /-- The rule says so. -/
  | failed (reason : String)
  /-- The rule broke down. -/
  | crashed (reason : String)
  deriving DecidableEq, Repr

/-- The wording of a fault. -/
def RuleFault.message : RuleFault → String
  | .failed reason => s!"Rule failed: {reason}"
  | .crashed reason => s!"rule panicked: {reason}"

/-- What is said of a rule that is not there. -/
def unknownRule (name : String) : String := s!"Unknown rule: {name}"

/-- A repair rule. -/
structure Rule where
  id : RuleId
  title : String
  /-- The defect that the rule repairs. -/
  defect : Defect
  /-- Why the repair is right. -/
  statement : String
  /-- The edits of a source for a unit. -/
  propose : ParsedUnit → String → Except RuleFault (List Text.Edit)
  /-- The verdict on the units before and after the edits. -/
  judge : ParsedUnit → ParsedUnit → Verdict

namespace Rule

/-- Whether a unit shows the rule's defect. -/
def isCandidate (r : Rule) (u : ParsedUnit) : Bool := r.defect.isPresent u

/-- The JSON value of what a rule says of itself. -/
def toJson (r : Rule) : Json :=
  .object [
    ("id", .text r.id.name),
    ("name", .text r.title),
    ("theorem", .text r.defect.name),
    ("proof_statement", .text r.statement)]

end Rule

end TreeRepair
