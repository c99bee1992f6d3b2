import TreeRepair.Proofs.Repair.Attempt
import TreeRepair.Workflow.Run

/-! The rules on one file, one after another. Each sees the text and the unit that the accepted ones before it have
left; a rejected one leaves both as they were. So the number of parse errors never grows on the way. -/

set_option autoImplicit false

namespace TreeRepair

/-- What the verdict on an accepted repair says where the defect was there: it is gone, the marker is in its place,
and there are no more errors. -/
structure Verdict.Earned (v : Verdict) : Prop where
  success : v.success = true
  patternBefore : v.patternBefore = true
  patternAfter : v.patternAfter = false
  marker : v.markerPresent = true
  notTrivial : v.triviallySatisfied = false
  errors : v.errorsAfter ≤ v.errorsBefore

theorem Verdict.earned_judge {d : Defect} {before after : ParsedUnit} (hp : d.isPresent before = true)
    (h : (judge d before after).success = true) : (judge d before after).Earned := by
  have hgood := h
  simp only [judge, hp, Bool.true_and, Bool.not_true, Bool.or_false, Bool.and_eq_true, Bool.not_eq_true',
    decide_eq_true_eq] at h
  obtain ⟨⟨hafter, hmarker⟩, herrors⟩ := h
  exact ⟨hgood, hp, hafter, by simp [judge, hp, hmarker], by simp [judge, hp], herrors⟩

/-- The source behind the last accepted of some outcomes. -/
def Outcome.lastSource (os : List Outcome) : Option String := ((os.filter (·.success)).filterMap (·.newSource)).getLast?

namespace Site

open Registry (Bench Attempted Housed Judges Worked)

/-- Attempts at a file from one draft to another, each on what the accepted ones before it have left. -/
inductive Repairs (env : Surroundings) (rules : List Rule) (file : String) : Draft → List Outcome → Draft → Prop
  | done (d : Draft) : Repairs env rules file d [] d
  | accepted {d last : Draft} {rule : Rule} {o : Outcome} {os : List Outcome} {source : String} {u : ParsedUnit} :
      rule ∈ rules → rule.isCandidate d.unit = true → Attempted env rule d.unit file d.source o →
      o.success = true → o.newSource = some source → o.unit = some u →
      Repairs env rules file ⟨source, u⟩ os last → Repairs env rules file d (o :: os) last
  | rejected {d last : Draft} {rule : Rule} {o : Outcome} {os : List Outcome} :
      rule ∈ rules → rule.isCandidate d.unit = true → Attempted env rule d.unit file d.source o →
      o.success = false → Repairs env rules file d os last → Repairs env rules file d (o :: os) last

/-- A draft whose unit is one of its source. -/
def Draft.InStep (d : Draft) (env : Surroundings) (file : String) : Prop :=
  d.unit.key = contentKey env.contentHash d.source.toUTF8 file

/-- What a rule leaves for the next one. -/
theorem apply_spec (env : Surroundings) {home : Home} (file : String) {id : RuleId} {d : Draft} {b : Bench}
    (h : Housed home b) (happlies : (b.registry.rule? id).any (·.isCandidate d.unit) = true) :
    ∃ rule ∈ b.registry.rules, rule.isCandidate d.unit = true ∧
      Attempted env rule d.unit file d.source (Registry.apply env b id d.unit file d.source).1 ∧
      Worked home b [(Registry.apply env b id d.unit file d.source).1] (Registry.apply env b id d.unit file d.source).2 := by
  rw [Registry.apply]
  cases hrule : b.registry.rule? id with
  | none => simp [hrule] at happlies
  | some rule =>
    rw [hrule] at happlies
    obtain ⟨hatt, hworked⟩ := Registry.applyRule_spec env h rule d.unit file d.source
    exact ⟨rule, List.mem_of_find?_eq_some hrule, happlies, hatt, hworked⟩

/-- Rules that are applied in order. -/
theorem applyRules_spec (env : Surroundings) {home : Home} (file : String) (ids : List RuleId) (d : Draft) (b : Bench)
    (h : Housed home b) :
    Repairs env b.registry.rules file d (applyRules env file ids d b).1 (applyRules env file ids d b).2.1 ∧
      Worked home b (applyRules env file ids d b).1 (applyRules env file ids d b).2.2 := by
  induction ids generalizing d b with
  | nil => exact ⟨.done d, .refl h⟩
  | cons id rest ih =>
    rw [applyRules]
    split
    · rename_i happlies
      obtain ⟨rule, hmem, hcand, hatt, hworked⟩ := apply_spec env file h happlies
      generalize Registry.apply env b id d.unit file d.source = applied at hatt hworked
      obtain ⟨o, next⟩ := applied
      simp only at hatt hworked ⊢
      have hrest := fun d => ih d next hworked.housed
      simp only [hworked.rules] at hrest
      cases hgood : o.success with
      | true =>
        obtain ⟨edits, text, u, -, hsource, hunit, -, -⟩ := hatt.accepted hgood
        rw [hsource, hunit]
        obtain ⟨hrepairs, hrun⟩ := hrest ⟨text, u⟩
        exact ⟨.accepted hmem hcand hatt hgood hsource hunit hrepairs, hworked.trans hrun⟩
      | false =>
        obtain ⟨hsource, hunit, -⟩ := hatt.rejected hgood
        rw [hsource, hunit]
        obtain ⟨hrepairs, hrun⟩ := hrest d
        exact ⟨.rejected hmem hcand hatt hgood hrepairs, hworked.trans hrun⟩
    · exact ih d b h

/-! ## What attempts leave -/

section Repairs

variable {env : Surroundings} {rules : List Rule} {file : String} {d last : Draft} {os : List Outcome}

theorem Repairs.file_eq (h : Repairs env rules file d os last) : ∀ o ∈ os, o.file = file := by
  induction h with
  | done d => exact fun o ho => nomatch ho
  | accepted _ _ hatt _ _ _ _ ih =>
    intro o ho
    rcases List.mem_cons.1 ho with rfl | ho
    · exact hatt.file_eq
    · exact ih o ho
  | rejected _ _ hatt _ _ ih =>
    intro o ho
    rcases List.mem_cons.1 ho with rfl | ho
    · exact hatt.file_eq
    · exact ih o ho

theorem Repairs.source_eq (h : Repairs env rules file d os last) :
    last.source = (Outcome.lastSource os).getD d.source := by
  induction h with
  | done d => rfl
  | @accepted d last rule o os source u _ _ _ hgood hsource _ _ ih =>
    rw [ih, Outcome.lastSource, Outcome.lastSource, List.filter_cons_of_pos (by simpa using hgood),
      List.filterMap_cons_some hsource, List.getLast?_cons, Option.getD_some]
  | rejected _ _ _ hbad _ ih =>
    rw [ih, Outcome.lastSource, Outcome.lastSource, List.filter_cons_of_neg (by simp [hbad])]

/-- The unit stays one of the source. -/
theorem Repairs.inStep (h : Repairs env rules file d os last) (hd : d.InStep env file) : last.InStep env file := by
  induction h with
  | done d => exact hd
  | accepted _ _ hatt hgood hsource hunit _ ih =>
    obtain ⟨edits, text, after, -, hsource', hunit', -, hkey⟩ := hatt.accepted hgood
    obtain rfl := Option.some.inj (hsource.symm.trans hsource')
    obtain rfl := Option.some.inj (hunit.symm.trans hunit')
    exact ih hkey
  | rejected _ _ _ _ _ ih => exact ih hd

/-! ## Verdicts -/

variable (hjudges : Judges rules)

include hjudges

/-- An accepted outcome has an earned verdict, which counts the errors of the unit before and of the new one. -/
theorem accepted_verdict {rule : Rule} {u after : ParsedUnit} {source : String} {o : Outcome} (hmem : rule ∈ rules)
    (hcand : rule.isCandidate u = true) (hatt : Attempted env rule u file source o) (hgood : o.success = true)
    (hunit : o.unit = some after) :
    ∃ v, o.verdict = some v ∧ v.Earned ∧ v.errorsBefore = u.errors.length ∧ v.errorsAfter = after.errors.length := by
  obtain ⟨edits, text, after', -, -, hunit', hverdict, -⟩ := hatt.accepted hgood
  obtain rfl := Option.some.inj (hunit.symm.trans hunit')
  rw [hjudges rule hmem] at hverdict
  obtain ⟨v, hv, hsuccess⟩ := hatt.verdict
  obtain rfl := Option.some.inj (hv.symm.trans hverdict)
  exact ⟨_, hverdict, Verdict.earned_judge hcand (hsuccess.trans hgood), rfl, rfl⟩

/-- Each accepted outcome has repaired its defect. -/
theorem Repairs.earned (h : Repairs env rules file d os last) :
    ∀ o ∈ os, o.success = true → ∃ v, o.verdict = some v ∧ v.Earned := by
  induction h with
  | done d => exact fun o ho => nomatch ho
  | accepted hmem hcand hatt hgood _ hunit _ ih =>
    intro o ho hsuccess
    rcases List.mem_cons.1 ho with rfl | ho
    · obtain ⟨v, hv, hearned, -, -⟩ := accepted_verdict hjudges hmem hcand hatt hgood hunit
      exact ⟨v, hv, hearned⟩
    · exact ih o ho hsuccess
  | rejected _ _ _ hbad _ ih =>
    intro o ho hsuccess
    rcases List.mem_cons.1 ho with rfl | ho
    · simp [hbad] at hsuccess
    · exact ih o ho hsuccess

theorem Repairs.errorsBefore_le (h : Repairs env rules file d os last) :
    ∀ o ∈ os, o.success = true → ∀ v, o.verdict = some v → v.errorsBefore ≤ d.unit.errors.length := by
  induction h with
  | done d => exact fun o ho => nomatch ho
  | accepted hmem hcand hatt hgood _ hunit _ ih =>
    obtain ⟨v', hv', hearned, hbefore, hafter⟩ := accepted_verdict hjudges hmem hcand hatt hgood hunit
    have herrors := hearned.errors
    intro o ho hsuccess v hv
    rcases List.mem_cons.1 ho with rfl | ho
    · obtain rfl := Option.some.inj (hv.symm.trans hv')
      omega
    · have hle := ih o ho hsuccess v hv
      simp only at hle
      omega
  | rejected _ _ _ hbad _ ih =>
    intro o ho hsuccess
    rcases List.mem_cons.1 ho with rfl | ho
    · simp [hbad] at hsuccess
    · exact ih o ho hsuccess

theorem Repairs.errors_pairwise (h : Repairs env rules file d os last) :
    ((os.filter (·.success)).filterMap (·.verdict)).Pairwise fun v v' => v'.errorsBefore ≤ v.errorsAfter := by
  induction h with
  | done d => exact List.Pairwise.nil
  | @accepted d last rule o os source u hmem hcand hatt hgood _ hunit hrest ih =>
    obtain ⟨v, hv, -, -, hafter⟩ := accepted_verdict hjudges hmem hcand hatt hgood hunit
    rw [List.filter_cons_of_pos (by simpa using hgood), List.filterMap_cons_some hv]
    refine List.pairwise_cons.2 ⟨fun v' hv' => ?_, ih⟩
    obtain ⟨o', ho', hverdict⟩ := List.mem_filterMap.1 hv'
    obtain ⟨hmem', hsuccess⟩ := List.mem_filter.1 ho'
    rw [hafter]
    exact hrest.errorsBefore_le hjudges o' hmem' hsuccess v' hverdict
  | rejected _ _ _ hbad _ ih =>
    rw [List.filter_cons_of_neg (by simp [hbad])]
    exact ih

theorem Repairs.errors_le (h : Repairs env rules file d os last) : last.unit.errors.length ≤ d.unit.errors.length := by
  induction h with
  | done d => exact Nat.le_refl _
  | accepted hmem hcand hatt hgood _ hunit _ ih =>
    obtain ⟨v, -, hearned, hbefore, hafter⟩ := accepted_verdict hjudges hmem hcand hatt hgood hunit
    have herrors := hearned.errors
    simp only at ih
    omega
  | rejected _ _ _ _ _ ih => exact ih

end Repairs

end Site

end TreeRepair
