/-!
Weak points of a project and the risk that they add up to. The score counts each factor once and
cycles twice; the level and the chance of success follow from the score. The plan lists what to
repair, in three phases.
-/
namespace TreeRepair

/-- The kinds of weak points. -/
inductive WeakKind where
  | parseError
  | moduleSideEffect
  | missingDependency
  | missingImport
  | circularDependency
  deriving DecidableEq, Repr

namespace WeakKind

/-- All kinds, in order. -/
def all : List WeakKind :=
  [.parseError, .moduleSideEffect, .missingDependency, .missingImport, .circularDependency]

/-- The name of a kind. -/
def name : WeakKind → String
  | .parseError => "parse_error"
  | .moduleSideEffect => "module_side_effect"
  | .missingDependency => "missing_dependency"
  | .missingImport => "missing_import"
  | .circularDependency => "circular_dependency"

end WeakKind

/-- A grade from low to critical, of weak points and of risk. -/
inductive Grade where
  | low
  | medium
  | high
  | critical
  deriving DecidableEq, Repr

/-- The name of a grade. -/
def Grade.name : Grade → String
  | .low => "low"
  | .medium => "medium"
  | .high => "high"
  | .critical => "critical"

/-- A weak point of a project. -/
structure WeakPoint where
  /-- The key of a file, or the name of a cycle. -/
  place : String
  kind : WeakKind
  severity : Grade
  detail : String
  deriving DecidableEq, Repr

/-! ## Risk -/

/-- The grade of a score. -/
def Grade.ofScore (score : Nat) : Grade :=
  if score = 0 then .low
  else if score ≤ 3 then .medium
  else if score ≤ 10 then .high
  else .critical

/-- The chance of success in percent. -/
def Grade.successPercent : Grade → Nat
  | .low => 95
  | .medium => 85
  | .high => 70
  | .critical => 50

/-- The counts that a score is made of. -/
structure RiskFactors where
  /-- Files with parse errors on critical paths. -/
  criticalParseErrors : Nat
  sideEffects : Nat
  missingDependencies : Nat
  cycles : Nat
  deriving DecidableEq, Repr

namespace RiskFactors

/-- Scores are below this. -/
def scoreBound : Nat := Nat.pow 2 32

/-- The score of the factors. -/
def score (f : RiskFactors) : Nat :=
  f.criticalParseErrors + f.sideEffects + f.missingDependencies + 2 * f.cycles

/-- The score of the factors if it is below the bound. -/
def score? (f : RiskFactors) : Option Nat := if f.score < scoreBound then some f.score else none

/-- The grade of the factors. -/
def level (f : RiskFactors) : Grade := .ofScore f.score

end RiskFactors

/-! ## Plan -/

/-- A phase of a plan. -/
structure PlanPhase where
  name : String
  targets : List String
  weight : Nat
  deriving DecidableEq, Repr

/-- What to repair, in order. -/
structure RepairPlan where
  phases : List PlanPhase
  deriving DecidableEq, Repr

namespace RepairPlan

/-- The plan for files with parse errors on critical paths, files with side effects and files with
imports that lead nowhere. -/
def ofTargets (syntaxErrors sideEffects unresolved : List String) : RepairPlan :=
  ⟨[⟨"critical_syntax_repair", syntaxErrors, 5⟩,
    ⟨"side_effect_isolation", sideEffects, 3⟩,
    ⟨"dependency_resolution", unresolved, 2⟩]⟩

/-- The weight of the phases that have something to do. -/
def totalWeight (p : RepairPlan) : Nat :=
  (p.phases.filter fun phase => !phase.targets.isEmpty).foldl (fun n phase => n + phase.weight) 0

end RepairPlan

end TreeRepair
