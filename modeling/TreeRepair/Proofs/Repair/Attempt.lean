import Mathlib.Data.List.Forall2
import TreeRepair.Repair.Registry
import TreeRepair.Proofs.Home
import TreeRepair.Proofs.Ledger.Append
import TreeRepair.Proofs.Parsing.Host

/-! One attempt at a repair. It leaves one record, which says what its outcome says; the new source is what the
rule's edits make of the old one, it is given out only with a good verdict, and its unit is one of it. -/

set_option autoImplicit false

namespace TreeRepair

open Location Listing

namespace Registry

/-- Rules that leave the verdict to the defect that they name. -/
def Judges (rules : List Rule) : Prop := ∀ rule ∈ rules, rule.judge = Verdict.judge rule.defect

theorem judges_builtin : Judges Rule.builtin := by
  intro rule hrule
  simp only [Rule.builtin, List.mem_cons, List.not_mem_nil, or_false] at hrule
  rcases hrule with rfl | rfl | rfl <;> rfl

/-- A bench whose cache and ledger lie in a home. -/
structure Housed (home : Home) (b : Bench) : Prop where
  cut : home.root.IsCut
  cache : b.host.cache.directory = some home.cache
  ledger : b.registry.ledger.file = some home.ledger
  named : b.host.cache.Named

/-- A record of an attempt says what its outcome says. -/
structure Recorded (o : Outcome) (r : ProofRecord) : Prop where
  proof : o.proof = some r.id
  verdict : o.verdict = some r.verdict
  rule_eq : r.rule = o.rule
  file_eq : r.context = o.file

/-- What the outcome of a rule that was applied to a unit and a source tells. -/
structure Attempted (env : Surroundings) (rule : Rule) (u : ParsedUnit) (file source : String) (o : Outcome) : Prop where
  rule_eq : o.rule = rule.id.name
  file_eq : o.file = file
  verdict : ∃ v, o.verdict = some v ∧ v.success = o.success
  accepted : o.success = true → ∃ edits text after, edited rule u source = .ok (edits, text) ∧
    o.newSource = some text ∧ o.unit = some after ∧ o.verdict = some (rule.judge u after) ∧
    after.key = contentKey env.contentHash text.toUTF8 file
  rejected : o.success = false → o.newSource = none ∧ o.unit = none ∧ o.transformed = false

/-- A bench behind parsing: of the files only those of the cache have changed. -/
structure Perused (home : Home) (b b' : Bench) : Prop where
  housed : Housed home b'
  registry : b'.registry = b.registry
  draws : b'.world.draws = b.world.draws
  stashes : b'.world.stashes = b.world.stashes
  files : KeptBeyond home.cache.settled b.world.files b'.world.files

/-- A bench behind attempts with some outcomes: the ledger has a record of each, and no files but those that the
session keeps for itself have changed. -/
structure Worked (home : Home) (b : Bench) (os : List Outcome) (b' : Bench) : Prop where
  housed : Housed home b'
  rules : b'.registry.rules = b.registry.rules
  records : ∃ rs, b'.registry.ledger.records = b.registry.ledger.records ++ rs ∧ List.Forall₂ Recorded os rs
  files : SameFiles home.Scratch b.world.files b'.world.files

variable (env : Surroundings) {home : Home} {b b' b'' : Bench}

theorem Perused.refl (h : Housed home b) : Perused home b b := ⟨h, rfl, rfl, rfl, .refl _ _⟩

theorem Perused.trans (h : Perused home b b') (h' : Perused home b' b'') : Perused home b b'' :=
  ⟨h'.housed, h'.registry.trans h.registry, h'.draws.trans h.draws, h'.stashes.trans h.stashes, h.files.trans h'.files⟩

theorem Perused.worked (h : Perused home b b') : Worked home b [] b' := by
  refine ⟨h.housed, by rw [h.registry], ⟨[], by rw [h.registry, List.append_nil], .nil⟩, ?_⟩
  exact h.files.sameFiles fun _ hq => .inl hq

theorem Worked.refl (h : Housed home b) : Worked home b [] b := (Perused.refl h).worked

theorem Worked.trans {os os' : List Outcome} (h : Worked home b os b') (h' : Worked home b' os' b'') :
    Worked home b (os ++ os') b'' := by
  obtain ⟨rs, hrs, hall⟩ := h.records
  obtain ⟨rs', hrs', hall'⟩ := h'.records
  refine ⟨h'.housed, h'.rules.trans h.rules, ⟨rs ++ rs', ?_, List.rel_append hall hall'⟩, h.files.trans h'.files⟩
  rw [hrs', hrs, List.append_assoc]

/-! ## Attempts -/

theorem Housed.parse (h : Housed home b) (file text : String) :
    (b.host.parse env b.world.files file text).unit.key = contentKey env.contentHash text.toUTF8 file ∧
      Perused home b ⟨b.registry, (b.host.parse env b.world.files file text).host,
        b.world.withFiles (b.host.parse env b.world.files file text).files⟩ := by
  have hcut : home.cache.IsCut := h.cut.join _
  have hkept := ParserHost.parse_kept env b.world.files h.cache hcut file text
  obtain ⟨hkey, hnamed, hdir⟩ := ParserHost.parse_named env b.world.files h.named file text
  exact ⟨hkey, ⟨h.cut, hdir.trans h.cache, h.ledger, hnamed⟩, rfl, rfl, rfl, hkept⟩

theorem attempt_spec (h : Housed home b) (rule : Rule) (u : ParsedUnit) (file source : String) :
    Attempted env rule u file source (attempt env b rule u file source).1 ∧
      Perused home b ⟨b.registry, (attempt env b rule u file source).2.1,
        b.world.withFiles (attempt env b rule u file source).2.2⟩ := by
  unfold attempt
  split
  · refine ⟨⟨rfl, rfl, ⟨_, rfl, rfl⟩, ?_, fun _ => ⟨rfl, rfl, rfl⟩⟩, .refl h⟩
    intro hgood
    simp [Outcome.failed] at hgood
  · rename_i edits after hedited
    obtain ⟨hkey, hperused⟩ := h.parse env file after
    refine ⟨⟨rfl, rfl, ⟨_, rfl, rfl⟩, fun hgood => ?_, fun hbad => ?_⟩, hperused⟩
    · simp only [Outcome.judged] at hgood ⊢
      rw [hgood]
      exact ⟨edits, after, _, hedited, rfl, rfl, rfl, hkey⟩
    · simp only [Outcome.judged] at hbad ⊢
      rw [hbad]
      exact ⟨rfl, rfl, rfl⟩

theorem applyRule_spec (h : Housed home b) (rule : Rule) (u : ParsedUnit) (file source : String) :
    Attempted env rule u file source (applyRule env b rule u file source).1 ∧
      Worked home b [(applyRule env b rule u file source).1] (applyRule env b rule u file source).2 := by
  obtain ⟨hatt, hperused⟩ := attempt_spec env h rule u file source
  unfold applyRule
  cases hres : attempt env b rule u file source with
  | mk o rest =>
    obtain ⟨host, files⟩ := rest
    rw [hres] at hatt hperused
    obtain ⟨v, hv, hgood⟩ := hatt.verdict
    have hworked := hperused.worked
    simp only at hworked hv
    have hpersist : ∀ r, SameFiles home.Scratch files (b.registry.ledger.persist files r) := fun r =>
      (ProofLedger.persist_sameFiles h.ledger (h.cut.join _) r).mono fun _ hq => .inr hq
    refine ⟨⟨hatt.rule_eq, hatt.file_eq, ⟨v, hv, hgood⟩, hatt.accepted, hatt.rejected⟩,
      ⟨h.cut, hworked.housed.cache, h.ledger, hworked.housed.named⟩, rfl,
      ⟨[_], rfl, .cons ⟨rfl, ?_, hatt.rule_eq.symm, hatt.file_eq.symm⟩ .nil⟩, hworked.files.trans (hpersist _)⟩
    simp only [hv, Option.getD_some]
    rfl

end Registry

end TreeRepair
