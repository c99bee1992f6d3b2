import TreeRepair.Proofs.Ledger.Chain
import TreeRepair.Proofs.Repair.Attempt
import TreeRepair.Syntax.Table

/-! The accounts of a registry. Whatever rules it holds and however they behave, each call on one of them ends in an
outcome and leaves one record, and a call on any other leaves nothing. So the counts of a rule are at any time those of
its records, and the ledger holds together. -/

set_option autoImplicit false

namespace TreeRepair

/-- What an outcome gives out, for the source that it began with: a new source and its unit exactly if it is a
success, and it tells of a change exactly if the new source is another one. -/
structure Outcome.Consistent (o : Outcome) (source : String) : Prop where
  newSource : o.newSource.isSome = o.success
  unit : o.unit.isSome = o.success
  transformed : o.transformed = true ↔ o.success = true ∧ o.newSource ≠ some source

theorem RuleId.name_inj {id other : RuleId} : id.name = other.name ↔ id = other := by
  cases id <;> cases other <;> decide

namespace Registry

variable {env : Surroundings} {reg : Registry} {b : Bench} {rule : Rule} {u : ParsedUnit} {file source : String}

/-! ## Outcomes -/

theorem consistent_failed (rule message : String) (timestamp : Nat) (verdict : Option Verdict) :
    (Outcome.failed rule file message timestamp verdict).Consistent source :=
  ⟨rfl, rfl, by simp [Outcome.failed]⟩

theorem consistent_judged (rule text : String) (after : ParsedUnit) (verdict : Verdict) (edits : Nat) :
    (Outcome.judged rule file source text after verdict edits).Consistent source := by
  refine ⟨?_, ?_, ?_⟩
  all_goals simp only [Outcome.judged]
  · cases verdict.success <;> rfl
  · cases verdict.success <;> rfl
  · cases verdict.success <;> simp

/-- What comes of a rule that is applied to a unit and a source. A rule that fails or breaks down, or whose edits
cannot be applied, gives a failure with the reason; otherwise its verdict on the unit of the new source decides. -/
structure Settled (env : Surroundings) (rule : Rule) (u : ParsedUnit) (file source : String) (o : Outcome) : Prop where
  rule_eq : o.rule = rule.id.name
  file_eq : o.file = file
  consistent : o.Consistent source
  broken : ∀ message, edited rule u source = .error message → o.success = false ∧
    o.failure.map (·.message) = some message ∧ o.verdict = some (.failed rule.defect message)
  judged : ∀ edits text, edited rule u source = .ok (edits, text) → ∃ after, o.verdict = some (rule.judge u after) ∧
    o.success = (rule.judge u after).success ∧ (o.success = true → o.newSource = some text ∧ o.unit = some after)

theorem attempt_settled (env : Surroundings) (b : Bench) (rule : Rule) (u : ParsedUnit) (file source : String) :
    Settled env rule u file source (attempt env b rule u file source).1 := by
  unfold attempt
  split
  · rename_i message hedited
    refine ⟨rfl, rfl, consistent_failed .., fun m hm => ?_, fun edits text hok => ?_⟩
    · obtain rfl : message = m := Except.error.inj (hedited.symm.trans hm)
      exact ⟨rfl, rfl, rfl⟩
    · simp [hedited] at hok
  · rename_i edits text hedited
    refine ⟨rfl, rfl, consistent_judged .., fun m hm => ?_, fun edits' text' hok => ?_⟩
    · simp [hedited] at hm
    · obtain ⟨rfl, rfl⟩ := Prod.mk.inj (Except.ok.inj (hedited.symm.trans hok))
      refine ⟨_, rfl, rfl, fun hgood => ?_⟩
      simp only [Outcome.judged] at hgood ⊢
      simp [hgood]

theorem Settled.verdict {o : Outcome} (h : Settled env rule u file source o) :
    ∃ v, o.verdict = some v ∧ v.success = o.success := by
  cases hedited : edited rule u source with
  | error message =>
    obtain ⟨hbad, -, hv⟩ := h.broken message hedited
    exact ⟨_, hv, hbad.symm⟩
  | ok found =>
    obtain ⟨after, hv, hgood, -⟩ := h.judged found.1 found.2 hedited
    exact ⟨_, hv, hgood.symm⟩

/-! ## One attempt -/

/-- What an attempt leaves in a registry: one record, which says what the outcome says, one more in the counts of the
rule, and a ledger that holds together if it did. -/
structure Booked (env : Surroundings) (rule : Rule) (o : Outcome) (reg reg' : Registry) : Prop where
  rules_eq : reg'.rules = reg.rules
  stats_eq : reg'.stats = (reg.count rule.id o.success).stats
  records : ∃ r, reg'.ledger.records = reg.ledger.records ++ [r] ∧ Recorded o r
  chained : ProofLedger.Chained env.contentHash ProofLedger.genesisHash reg.ledger.records →
    ProofLedger.Chained env.contentHash ProofLedger.genesisHash reg'.ledger.records

theorem applyRule_booked (env : Surroundings) (b : Bench) (rule : Rule) (u : ParsedUnit) (file source : String) :
    Settled env rule u file source (applyRule env b rule u file source).1 ∧
      Booked env rule (applyRule env b rule u file source).1 b.registry (applyRule env b rule u file source).2.registry := by
  have hsettled := attempt_settled env b rule u file source
  unfold applyRule
  cases hres : attempt env b rule u file source with
  | mk o rest =>
    rw [hres] at hsettled
    obtain ⟨v, hv, -⟩ := hsettled.verdict
    dsimp only at hsettled hv
    refine ⟨⟨hsettled.rule_eq, hsettled.file_eq, ⟨hsettled.consistent.newSource, hsettled.consistent.unit,
      hsettled.consistent.transformed⟩, hsettled.broken, hsettled.judged⟩, rfl, rfl, ⟨_, rfl, rfl, ?_,
      hsettled.rule_eq.symm, hsettled.file_eq.symm⟩, fun h => ProofLedger.chained_push h ..⟩
    dsimp only
    rw [hv, Option.getD_some]
    rfl

/-! ## Calls -/

/-- A call on a registry, by the id of a rule or by a name, with all that it is given. -/
structure Call where
  rule : RuleId ⊕ String
  unit : ParsedUnit
  file : String
  source : String
  host : ParserHost
  world : World

namespace Call

/-- The name of the rule that is asked for. -/
def name (c : Call) : String :=
  match c.rule with
  | .inl id => id.name
  | .inr name => name

/-- The rule that is asked for, if the registry has it. -/
def rule? (c : Call) (reg : Registry) : Option Rule :=
  match c.rule with
  | .inl id => reg.rule? id
  | .inr name => (RuleId.ofName? name).bind reg.rule?

/-- What comes of the call, and the registry behind it. -/
def run (c : Call) (env : Surroundings) (reg : Registry) : Outcome × Registry :=
  let (o, b) :=
    match c.rule with
    | .inl id => apply env ⟨reg, c.host, c.world⟩ id c.unit c.file c.source
    | .inr name => applyNamed env ⟨reg, c.host, c.world⟩ name c.unit c.file c.source
  (o, b.registry)

/-- The registry behind calls. -/
def runAll (env : Surroundings) (reg : Registry) (calls : List Call) : Registry :=
  calls.foldl (fun reg c => (c.run env reg).2) reg

end Call

/-- What a call leaves behind. On a rule of the registry it is settled and booked; on any other rule it fails, and
the registry is the same. -/
structure Answered (env : Surroundings) (c : Call) (reg : Registry) (o : Outcome) (reg' : Registry) : Prop where
  rule_eq : o.rule = c.name
  file_eq : o.file = c.file
  consistent : o.Consistent c.source
  known : ∀ rule, c.rule? reg = some rule →
    Settled env rule c.unit c.file c.source o ∧ Booked env rule o reg reg'
  unknown : c.rule? reg = none → o.success = false ∧ reg' = reg

theorem id_eq_of_rule? {id : RuleId} (h : reg.rule? id = some rule) : rule.id = id := by
  simpa using List.find?_some h

theorem name_of_ofName? {name : String} {id : RuleId} (h : RuleId.ofName? name = some id) : id.name = name := by
  simpa using List.find?_some h

/-- A call is answered, whatever it is given. -/
theorem Call.run_answered (c : Call) (env : Surroundings) (reg : Registry) :
    Answered env c reg (c.run env reg).1 (c.run env reg).2 := by
  have happly : ∀ id, c.name = id.name → c.rule? reg = reg.rule? id →
      Answered env c reg (apply env ⟨reg, c.host, c.world⟩ id c.unit c.file c.source).1
        (apply env ⟨reg, c.host, c.world⟩ id c.unit c.file c.source).2.registry := by
    intro id hname hrule
    rw [apply]
    cases hfound : reg.rule? id with
    | none => exact ⟨hname.symm, rfl, consistent_failed .., by simp [hrule, hfound], fun _ => ⟨rfl, rfl⟩⟩
    | some rule =>
      obtain ⟨hsettled, hbooked⟩ := applyRule_booked env ⟨reg, c.host, c.world⟩ rule c.unit c.file c.source
      refine ⟨?_, hsettled.file_eq, hsettled.consistent, ?_, by simp [hrule, hfound]⟩
      · rw [hname, ← id_eq_of_rule? hfound]
        exact hsettled.rule_eq
      · intro other hother
        obtain rfl : rule = other := by simpa [hrule, hfound] using hother
        exact ⟨hsettled, hbooked⟩
  obtain ⟨rule, unit, file, source, host, world⟩ := c
  cases rule with
  | inl id => exact happly id rfl rfl
  | inr name =>
    rw [run]
    simp only [applyNamed]
    cases hname : RuleId.ofName? name with
    | none => exact ⟨rfl, rfl, consistent_failed .., by simp [rule?, hname], fun _ => ⟨rfl, rfl⟩⟩
    | some id => exact happly id (name_of_ofName? hname).symm (by simp [rule?, hname])

/-! ## Accounts -/

/-- The counts that records give for a rule. -/
def tally (id : RuleId) (rs : List ProofRecord) : RuleStats :=
  let own := rs.filter (·.rule == id.name)
  ⟨own.length, (own.filter (·.verdict.success)).length, (own.filter (!·.verdict.success)).length⟩

/-- A registry whose counts are those of the records that it has added to a ledger, and whose ledger holds together. -/
structure Accounted (env : Surroundings) (rules : List Rule) (l : ProofLedger) (reg : Registry) : Prop where
  rules_eq : reg.rules = rules
  added : ∃ rs, reg.ledger.records = l.records ++ rs ∧ ∀ id, reg.stats id = tally id rs
  balanced : ∀ id, (reg.stats id).applied = (reg.stats id).succeeded + (reg.stats id).failed
  chain : reg.ledger.checkChain env.contentHash = .ok reg.ledger.records.length

theorem tally_concat (id : RuleId) (rs : List ProofRecord) (r : ProofRecord) :
    tally id (rs ++ [r]) = if r.rule = id.name then (tally id rs).count r.verdict.success else tally id rs := by
  rw [tally, List.filter_append]
  by_cases hr : r.rule = id.name
  · rw [if_pos hr]
    cases hgood : r.verdict.success <;> simp [tally, RuleStats.count, hr, hgood]
  · rw [if_neg hr]
    simp [tally, hr]

theorem tally_balanced (id : RuleId) (rs : List ProofRecord) :
    (tally id rs).applied = (tally id rs).succeeded + (tally id rs).failed := by
  induction rs using List.reverseRecOn with
  | nil => rfl
  | append_singleton rs r ih =>
    rw [tally_concat]
    split
    · cases r.verdict.success <;> simp [RuleStats.count, ih] <;> omega
    · exact ih

theorem accounted_fresh {rules : List Rule} {l : ProofLedger}
    (h : ProofLedger.Chained env.contentHash ProofLedger.genesisHash l.records) : Accounted env rules l (.fresh rules l) :=
  ⟨rfl, ⟨[], by simp [fresh], fun _ => rfl⟩, fun _ => rfl, ProofLedger.checkChain_of_chained h⟩

/-- An attempt keeps the accounts. -/
theorem Accounted.booked {rules : List Rule} {l : ProofLedger} {reg' : Registry} {o : Outcome}
    (h : Accounted env rules l reg) (hs : Settled env rule u file source o) (hb : Booked env rule o reg reg') :
    Accounted env rules l reg' := by
  obtain ⟨rs, hrs, hstats⟩ := h.added
  obtain ⟨r, hr, hrecorded⟩ := hb.records
  have hgood : r.verdict.success = o.success := by
    obtain ⟨v, hv, hvs⟩ := hs.verdict
    rw [← hvs, Option.some.inj (hrecorded.verdict.symm.trans hv)]
  have hadded : ∀ id, reg'.stats id = tally id (rs ++ [r]) := by
    intro id
    rw [hb.stats_eq, tally_concat, hrecorded.rule_eq, hs.rule_eq, hgood, ← hstats]
    simp only [count, RuleId.name_inj]
    by_cases hid : id = rule.id
    · rw [if_pos hid, if_pos hid.symm, hid]
    · rw [if_neg hid, if_neg (Ne.symm hid)]
  refine ⟨hb.rules_eq.trans h.rules_eq, ⟨rs ++ [r], by rw [hr, hrs, List.append_assoc], hadded⟩, fun id => ?_, ?_⟩
  · rw [hadded]
    exact tally_balanced id _
  · exact ProofLedger.checkChain_of_chained (hb.chained (ProofLedger.chained_of_checkChain h.chain))

/-- A call keeps the accounts. -/
theorem Accounted.run {rules : List Rule} {l : ProofLedger} (h : Accounted env rules l reg) (c : Call) :
    Accounted env rules l (c.run env reg).2 := by
  have hanswered := c.run_answered env reg
  cases hrule : c.rule? reg with
  | none => rwa [(hanswered.unknown hrule).2]
  | some rule =>
    obtain ⟨hsettled, hbooked⟩ := hanswered.known rule hrule
    exact h.booked hsettled hbooked

/-- Calls keep the accounts. -/
theorem Accounted.runAll {rules : List Rule} {l : ProofLedger} (h : Accounted env rules l reg) (calls : List Call) :
    Accounted env rules l (Call.runAll env reg calls) := by
  induction calls generalizing reg with
  | nil => exact h
  | cons c rest ih => exact ih (h.run c)

/-- Behind any calls on a new registry over a ledger that holds together the accounts are right, and the next call is
answered. -/
theorem runAll_accounted {rules : List Rule} {l : ProofLedger} {n : Nat} (h : l.checkChain env.contentHash = .ok n)
    (calls : List Call) (c : Call) :
    Accounted env rules l (Call.runAll env (.fresh rules l) calls) ∧
      Answered env c (Call.runAll env (.fresh rules l) calls) (c.run env (Call.runAll env (.fresh rules l) calls)).1
        (c.run env (Call.runAll env (.fresh rules l) calls)).2 :=
  ⟨(accounted_fresh (ProofLedger.chained_of_checkChain h)).runAll calls, c.run_answered env _⟩

/-! ## A rule that breaks down -/

/-- A rule that breaks down on every source. -/
def brittle : Rule := { Rule.ensureRenderImport with propose := fun _ _ => .error (.crashed "out of range") }

/-- A rule that changes nothing and is always content. -/
def lenient : Rule :=
  { Rule.strayTextToComment with
    propose := fun _ _ => .ok []
    judge := fun _ _ => ⟨.strayText, true, true, false, true, false, 1, 0, "held"⟩ }

/-- Surroundings with a hash function that has no collision. -/
def plainly : Surroundings where
  grammars _ text := .refusal text
  contentHash := ProofLedger.spelledHash
  checksum := ProofLedger.spelledHash
  archives := .json
  process := 1
  clock n := 1700000000000 + n
  freshId n := toString n

/-- A call with a unit that has nothing to do with the source. -/
def Call.on (rule : RuleId ⊕ String) : Call :=
  ⟨rule, ⟨"other.js", "", none, "other", #[], [], none⟩, "a.js", "text", .fresh (.fresh none) 16, ⟨.empty, 0, 0⟩⟩

/-- Two rules with one id, and a rule that breaks down. -/
def table : List Rule := [brittle, lenient, Rule.strayTextToComment]

/-- The registry behind a call on each rule, and on one that is not in the table. -/
def threeCalls : Registry :=
  Call.runAll plainly (.fresh table .inMemory)
    [.on (.inl .ensureRenderImport), .on (.inr "stray-text-to-comment"), .on (.inl .interpolateAttribute)]

theorem threeCalls_accounted :
    ProofLedger.inMemory.checkChain plainly.contentHash = .ok 0 ∧ Accounted plainly table .inMemory threeCalls ∧
      threeCalls.stats .ensureRenderImport = ⟨1, 0, 1⟩ ∧ threeCalls.stats .strayTextToComment = ⟨1, 1, 0⟩ ∧
      threeCalls.ledger.records.length = 2 ∧
      Answered plainly (.on (.inr "no-such-rule")) threeCalls ((Call.on (.inr "no-such-rule")).run plainly threeCalls).1
        ((Call.on (.inr "no-such-rule")).run plainly threeCalls).2 := by
  have hchain : ProofLedger.inMemory.checkChain plainly.contentHash = .ok 0 := rfl
  obtain ⟨haccounted, hanswered⟩ := runAll_accounted hchain
    [.on (.inl .ensureRenderImport), .on (.inr "stray-text-to-comment"), .on (.inl .interpolateAttribute)]
    (.on (.inr "no-such-rule"))
  exact ⟨hchain, haccounted, rfl, by decide +kernel, rfl, hanswered⟩

end Registry

end TreeRepair
