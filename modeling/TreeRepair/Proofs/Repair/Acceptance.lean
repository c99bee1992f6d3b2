import TreeRepair.Proofs.Parsing.Transparency
import TreeRepair.Proofs.Prose.Starts
import TreeRepair.Proofs.Repair.Attempt

/-! What a good verdict means for the defect. A repair of a unit that shows the defect is accepted only without it; a
unit that does not show it counts as repaired, whatever the unit behind is. The three rules never make use of that:
from a unit of the source itself they come to no unit that shows their defect. -/

set_option autoImplicit false

namespace TreeRepair

open Text

/-! ## Verdicts -/

namespace Verdict

variable {d : Defect} {before after : ParsedUnit}

theorem success_judge_iff : (judge d before after).success = true ↔
    (d.isPresent before = true → d.isPresent after = false ∧ d.hasMarker before after = true) ∧
      after.errors.length ≤ before.errors.length := by
  cases hbefore : d.isPresent before <;> simp [judge, hbefore]

/-- A broken source without prose, and a file that is nothing but prose. -/
theorem success_judge_present :
    let before := recoveryUnit 64 "a.js" "" "let a = (" [noTreeIssue]
    let after := recoveryUnit 64 "a.js" "" "This helper formats numbers." [noTreeIssue]
    (judge .strayText before after).success = true ∧ Defect.strayText.isPresent after = true := by
  decide +kernel

end Verdict

/-! ## Texts that no grammar accepts -/

section Units

variable {g : Grammars} {limit : Nat} {file key text : String}

theorem parseText_cases (g : Grammars) (limit : Nat) (file key text : String) :
    (parseText g limit file key text).errors = [] ∨
      (parseText g limit file key text).source = String.ofList (takeBytes text.toList limit) := by
  rw [parseText]
  split
  · exact .inl rfl
  · exact .inr rfl

theorem isPresent_strayText_of_clean {u : ParsedUnit} (h : u.errors = []) : Defect.strayText.isPresent u = false := by
  rw [Defect.isPresent, ParsedUnit.hasErrors, h]
  rfl

theorem isPresent_strayText_commented {key' : String} (herrors : (parseText g limit file key text).hasErrors = true)
    (h : Defect.strayText.isPresent (parseText g limit file key text) = false) :
    Defect.strayText.isPresent (parseText g limit file key' (Prose.commented text)) = false := by
  rcases parseText_cases g limit file key' (Prose.commented text) with hclean | hsource
  · exact isPresent_strayText_of_clean hclean
  · rw [Defect.isPresent, herrors, Bool.true_and, Bool.not_eq_false', List.isEmpty_iff] at h
    rcases parseText_cases g limit file key text with hnone | hkept
    · rw [ParsedUnit.hasErrors, hnone] at herrors
      exact absurd herrors (by decide)
    · rw [hkept] at h
      rw [Defect.isPresent, hsource, Prose.strayLines_takeBytes_commented h]
      exact Bool.and_false _

end Units

namespace Registry

variable {env : Surroundings} {b : Bench} {rule : Rule} {id : RuleId} {u : ParsedUnit} {file source : String}

/-! ## What the three rules propose where there is nothing to repair -/

theorem edited_eq_ok {edits : List Edit} {after : String} (h : edited rule u source = .ok (edits, after)) :
    rule.propose u source = .ok edits ∧ applyEdits source edits = .ok after := by
  unfold edited at h
  split at h
  · exact absurd h (by simp)
  · rename_i proposed hpropose
    split at h
    · exact absurd h (by simp)
    · rename_i text happly
      obtain ⟨rfl, rfl⟩ := Prod.mk.inj (Except.ok.inj h)
      exact ⟨hpropose, happly⟩

theorem applyEdits_nil (text : String) : applyEdits text [] = .ok text := by
  simp [applyEdits, Edit.ordered, spliceDown, Cut.atEnd, Cut.toText, Except.map]

/-- Of a unit without its defect a rule leaves the source as it is, or it comments out prose that the unit does not
reach. -/
theorem edited_builtin (hrule : rule ∈ Rule.builtin) (hnot : rule.isCandidate u = false) {edits : List Edit} {after : String}
    (h : edited rule u source = .ok (edits, after)) :
    after = source ∨ rule.defect = .strayText ∧ u.hasErrors = true ∧ after = Prose.commented source := by
  obtain ⟨hpropose, happly⟩ := edited_eq_ok h
  have hnil : edits = [] → after = source := by
    rintro rfl
    exact (Except.ok.inj ((applyEdits_nil source).symm.trans happly)).symm
  simp only [Rule.builtin, List.mem_cons, List.not_mem_nil, or_false] at hrule
  rcases hrule with rfl | rfl | rfl
  · obtain rfl : proposeComments u source = edits := Except.ok.inj hpropose
    cases herrors : u.hasErrors with
    | false => exact .inl (hnil (by rw [proposeComments, herrors, if_neg Bool.false_ne_true]))
    | true =>
      rw [proposeComments, herrors, if_pos rfl] at happly
      exact .inr ⟨rfl, rfl, Except.ok.inj (happly.symm.trans (Prose.applyEdits_comment source))⟩
  · have hnone : proposeImport u source = .ok [] := by
      rw [proposeImport, if_pos (by rw [show Defect.renderBinding.isPresent u = false from hnot]; rfl)]
    exact .inl (hnil (Except.ok.inj (hpropose.symm.trans hnone)))
  · have hnone : u.hazards = [] := by
      simpa [Rule.isCandidate, Rule.interpolateAttribute, Defect.isPresent] using hnot
    have hedits : u.hazards.map (templateEdit u) = edits := Except.ok.inj hpropose
    rw [hnone] at hedits
    exact .inl (hnil hedits.symm)

/-! ## Accepted attempts -/

/-- Behind an accepted attempt there is the unit of the edited source, and the rule's verdict on it is good. -/
theorem accepted_of_apply (h : (apply env b id u file source).1.success = true) :
    ∃ rule edits after, b.registry.rule? id = some rule ∧ edited rule u source = .ok (edits, after) ∧
      (apply env b id u file source).1.unit = some (b.host.parse env b.world.files file after).unit ∧
      (rule.judge u (b.host.parse env b.world.files file after).unit).success = true := by
  unfold apply at h ⊢
  cases hrule : b.registry.rule? id with
  | none =>
    rw [hrule] at h
    exact absurd h (by simp [Outcome.failed])
  | some rule =>
    rw [hrule] at h
    simp only [applyRule, attempt] at h ⊢
    cases hedited : edited rule u source with
    | error message =>
      rw [hedited] at h
      exact absurd h (by simp [Outcome.failed])
    | ok result =>
      obtain ⟨edits, after⟩ := result
      rw [hedited] at h
      simp only [Outcome.judged] at h ⊢
      exact ⟨rule, edits, after, rfl, hedited, by rw [if_pos h], h⟩

/-- A host answers texts of a file as one without a cache does. -/
def Answers (env : Surroundings) (b : Bench) (file : String) : Prop :=
  ∀ text, (b.host.parse env b.world.files file text).unit =
    ParserHost.Request.plainUnit env b.host.recoveryLimit ⟨file, text⟩

theorem answers_fresh (registry : Registry) (w : World) (limit : Nat) :
    Answers env ⟨registry, .fresh (.fresh none) limit, w⟩ file := by
  intro text
  have hmiss : ∀ key, (ParseCache.fresh none).get? env w.files key = none := by
    intro key
    simp [ParseCache.get?, ParseCache.fresh, ParseCache.load?, ParseCache.archive?]
  simp only [ParserHost.parse, ParserHost.fresh, hmiss]
  rfl

theorem rule?_mem (h : b.registry.rule? id = some rule) : rule ∈ b.registry.rules := List.mem_of_find?_eq_some h

/-- A good verdict on a repair says that the defect is gone, unless it was not there to begin with. So no rule that
leaves the verdict to its defect has an output accepted that shows the defect, if the unit that it was applied to did;
and the three rules have none accepted at all, if they are applied to the unit of the source. -/
theorem success_clears :
    (∀ (d : Defect) (before after : ParsedUnit), (Verdict.judge d before after).success = true →
      d.isPresent before = true → d.isPresent after = false) ∧
    (∀ (env : Surroundings) (b : Bench) (id : RuleId) (u : ParsedUnit) (file source : String),
      Judges b.registry.rules → (apply env b id u file source).1.success = true →
      ∃ rule after, b.registry.rule? id = some rule ∧ (apply env b id u file source).1.unit = some after ∧
        (rule.isCandidate u = true → rule.defect.isPresent after = false)) ∧
    ∀ (env : Surroundings) (b : Bench) (id : RuleId) (file source : String),
      b.registry.rules = Rule.builtin → Answers env b file →
      let unit := ParserHost.Request.plainUnit env b.host.recoveryLimit ⟨file, source⟩
      (apply env b id unit file source).1.success = true →
      ∃ rule after, b.registry.rule? id = some rule ∧ (apply env b id unit file source).1.unit = some after ∧
        rule.defect.isPresent after = false := by
  have hgone : ∀ (d : Defect) (before after : ParsedUnit), (Verdict.judge d before after).success = true →
      d.isPresent before = true → d.isPresent after = false :=
    fun d before after h hbefore => ((Verdict.success_judge_iff.1 h).1 hbefore).1
  refine ⟨hgone, fun env b id u file source hjudges h => ?_, fun env b id file source hbuiltin hanswers => ?_⟩
  · obtain ⟨rule, edits, after, hrule, -, hunit, hgood⟩ := accepted_of_apply h
    rw [hjudges rule (rule?_mem hrule)] at hgood
    exact ⟨rule, _, hrule, hunit, hgone rule.defect u _ hgood⟩
  · intro unit h
    obtain ⟨rule, edits, after, hrule, hedited, hunit, hgood⟩ := accepted_of_apply h
    have hmem : rule ∈ Rule.builtin := hbuiltin ▸ rule?_mem hrule
    rw [judges_builtin rule hmem] at hgood
    refine ⟨rule, _, hrule, hunit, ?_⟩
    by_cases hcand : rule.isCandidate unit = true
    · exact hgone rule.defect unit _ hgood hcand
    · rw [Bool.not_eq_true] at hcand
      rw [hanswers after]
      rcases edited_builtin hmem hcand hedited with rfl | ⟨hdefect, herrors, rfl⟩
      · exact hcand
      · rw [hdefect]
        exact isPresent_strayText_commented herrors (hdefect ▸ hcand)

/-- A line of prose that is commented out, and one that lies behind the bytes that the unit keeps. -/
theorem success_clears_unseen :
    let bench (limit : Nat) : Bench := ⟨fresh Rule.builtin ⟨[], none⟩, .fresh (.fresh none) limit, ⟨.empty, 0, 0⟩⟩
    let text := "This helper formats numbers."
    let unit (limit : Nat) := ParserHost.Request.plainUnit ParserHost.spelling limit ⟨"a.js", text⟩
    (∃ after, (apply ParserHost.spelling (bench 64) .strayTextToComment (unit 64) "a.js" text).1.unit = some after ∧
      Rule.strayTextToComment.isCandidate (unit 64) = true ∧ Defect.strayText.isPresent after = false) ∧
    ∃ after, (apply ParserHost.spelling (bench 12) .strayTextToComment (unit 12) "a.js" text).1.unit = some after ∧
      Rule.strayTextToComment.isCandidate (unit 12) = false ∧ Defect.strayText.isPresent after = false := by
  intro bench text unit
  have hgood : ∀ limit ∈ [12, 64],
      (apply ParserHost.spelling (bench limit) .strayTextToComment (unit limit) "a.js" text).1.success = true := by
    decide +kernel
  obtain ⟨-, hcandidate, hown⟩ := success_clears
  constructor
  · obtain ⟨rule, after, hrule, hunit, hclear⟩ :=
      hcandidate ParserHost.spelling (bench 64) _ (unit 64) "a.js" text judges_builtin (hgood 64 (by decide))
    obtain rfl : Rule.strayTextToComment = rule := Option.some.inj hrule
    have hshows : Rule.strayTextToComment.isCandidate (unit 64) = true := by decide +kernel
    exact ⟨after, hunit, hshows, hclear hshows⟩
  · obtain ⟨rule, after, hrule, hunit, hclear⟩ :=
      hown ParserHost.spelling (bench 12) .strayTextToComment "a.js" text rfl (answers_fresh _ _ _) (hgood 12 (by decide))
    obtain rfl : Rule.strayTextToComment = rule := Option.some.inj hrule
    exact ⟨after, hunit, by decide +kernel, hclear⟩

end Registry

end TreeRepair
