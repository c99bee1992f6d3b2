import TreeRepair.Proofs.Repair.Acceptance
import TreeRepair.Proofs.Repair.Accounts
import TreeRepair.Proofs.Text.Splicing

/-! What becomes of quoted placeholders. A template literal that is written for a quoted string opens a placeholder if
and only if the string has one that no backslash takes; a repair of such strings is accepted if there is any template
literal with a substitution in the end, be it one of those that have been written or not. -/

set_option autoImplicit false

namespace TreeRepair

open Text

namespace Template

open Prose

/-! ## The first part of a literal -/

/-- What the first part of a template literal ends at. -/
inductive Ending where
  /-- The end of the text. -/
  | unclosed
  | placeholder
  /-- A backtick with some text behind it. -/
  | backtick (rest : List Char)
  deriving DecidableEq, Repr

/-- Reads a template literal from behind its first backtick on; a backslash takes the next character with it. -/
def ending : List Char → Ending
  | [] => .unclosed
  | ['\\'] => .unclosed
  | '\\' :: _ :: cs => ending cs
  | c :: cs =>
    if c = '$' ∧ cs.head? = some '\x7b' then .placeholder
    else if c = Prose.backtick then .backtick cs
    else ending cs

/-- Whether the body of a quoted string holds the start of a placeholder that no backslash takes. -/
def interpolates : List Char → Bool
  | [] => false
  | ['\\'] => false
  | '\\' :: _ :: cs => interpolates cs
  | c :: cs => (c == '$' && cs.head? == some '\x7b') || interpolates cs

/-- Whether the body of a quoted string ends in a backslash that takes nothing. -/
def dangles : List Char → Bool
  | [] => false
  | ['\\'] => true
  | '\\' :: _ :: cs => dangles cs
  | _ :: cs => dangles cs

variable {c : Char} {cs body : List Char}

theorem ending_cons (hslash : c ≠ '\\') : ending (c :: cs) =
    if c = '$' ∧ cs.head? = some '\x7b' then .placeholder else if c = backtick then .backtick cs else ending cs := by
  rw [ending]
  · rintro rfl
    exact absurd rfl hslash
  · rintro d ds rfl
    exact absurd rfl hslash

theorem interpolates_cons (hslash : c ≠ '\\') :
    interpolates (c :: cs) = ((c == '$' && cs.head? == some '\x7b') || interpolates cs) := by
  rw [interpolates]
  · rintro rfl
    exact absurd rfl hslash
  · rintro d ds rfl
    exact absurd rfl hslash

theorem dangles_cons (hslash : c ≠ '\\') : dangles (c :: cs) = dangles cs := by
  rw [dangles]
  · rintro rfl
    exact absurd rfl hslash
  · rintro d ds rfl
    exact absurd rfl hslash

theorem ending_plain (hslash : c ≠ '\\') (hdollar : c ≠ '$') (htick : c ≠ backtick) : ending (c :: cs) = ending cs := by
  rw [ending_cons hslash, if_neg fun h => hdollar h.1, if_neg htick]

theorem head?_ofBody (cs rest : List Char) :
    (ofBody cs ++ backtick :: rest).head? = some '\x7b' ↔ cs.head? = some '\x7b' := by
  fun_cases ofBody cs with
  | case1 => simp [backtick]
  | case2 => simp
  | case3 c cs hquote => rcases hquote with rfl | rfl <;> simp
  | case4 c cs hquote => simp
  | case5 => simp [backtick]
  | case6 => simp

/-- A literal for a quoted string opens a placeholder if the string has one that no backslash takes, and ends at its own
last backtick else; but for a backslash in front of that, which would take it. -/
theorem ending_ofBody (body rest : List Char) : ending (ofBody body ++ backtick :: rest) =
    if interpolates body then .placeholder else if dangles body then ending rest else .backtick rest := by
  fun_induction ofBody body with
  | case1 => rfl
  | case2 => rfl
  | case3 c cs hquote ih =>
    rw [interpolates, dangles, ← ih]
    rcases hquote with rfl | rfl <;> exact ending_plain (by decide) (by decide) (by decide)
  | case4 c cs hquote ih =>
    rw [interpolates, dangles, ← ih]
    rfl
  | case5 cs _ _ ih =>
    have hslash : backtick ≠ '\\' := by decide
    have hopen : (backtick == '$' && cs.head? == some '\x7b') = false := Bool.and_eq_false_imp.2 fun h => absurd h (by decide)
    rw [interpolates_cons hslash, dangles_cons hslash, hopen, Bool.false_or, ← ih]
    rfl
  | case6 c cs halone hescape htick ih =>
    have hslash : c ≠ '\\' := by
      intro hc
      cases cs with
      | nil => exact halone hc rfl
      | cons d ds => exact hescape d ds hc rfl
    rw [List.cons_append, ending_cons hslash, interpolates_cons hslash, dangles_cons hslash, if_neg htick, ih]
    simp only [head?_ofBody]
    by_cases hopen : c = '$' ∧ cs.head? = some '\x7b'
    · simp [hopen]
    · have hclosed : (c == '$' && cs.head? == some '\x7b') = false := by simpa using hopen
      rw [if_neg hopen, hclosed, Bool.false_or]

/-- A literal opens a placeholder if and only if the quoted string has one that no backslash takes. -/
theorem ending_literal (body : List Char) : ending (literal body).tail = .placeholder ↔ interpolates body = true := by
  have htail : (literal body).tail = ofBody body ++ [backtick] := rfl
  rw [htail, ending_ofBody]
  split
  · simp [*]
  · split <;> simp [ending, *]

end Template

/-! ## Accepted repairs -/

namespace ParsedUnit

/-- For each template literal, in the order of the source, whether it has a substitution. -/
def templates (u : ParsedUnit) : List Bool :=
  (u.nodesOfKind "template_string").map fun i => (u.children i).any (u.kind · == "template_substitution")

/-- The body of the quoted string of a hazard. -/
def body (u : ParsedUnit) (h : Hazard) : List Char := (u.stringValue h.node).toList

/-- For each hazard, whether the template literal that is written for it opens a placeholder. -/
def written (u : ParsedUnit) : List Bool :=
  u.hazards.map fun h => decide (Template.ending (Template.literal (u.body h)).tail = .placeholder)

theorem interpolatedTemplates_eq (u : ParsedUnit) : u.interpolatedTemplates = u.templates.count true := by
  rw [templates, List.count_eq_countP, List.countP_map, interpolatedTemplates, ← List.countP_eq_length_filter]
  exact List.countP_congr fun i _ => by simp

theorem count_written (u : ParsedUnit) :
    u.written.count true = (u.hazards.filter fun h => Template.interpolates (u.body h)).length := by
  rw [written, List.count_eq_countP, List.countP_map, ← List.countP_eq_length_filter]
  exact List.countP_congr fun h _ => by simp [Template.ending_literal]

end ParsedUnit

/-- What an accepted repair of the quoted placeholders of a unit makes of a source. -/
structure Interpolated (u : ParsedUnit) (source text : String) (after : ParsedUnit) : Prop where
  text_eq : applyEdits source (u.hazards.map (templateEdit u)) = .ok text
  cleared : after.hazards = []
  errors : after.errors.length ≤ u.errors.length
  marked : 0 < after.interpolatedTemplates
  /-- A template literal that is written opens a placeholder where the string has one that no backslash takes. -/
  read : ∀ h ∈ u.hazards, ∀ rest, Template.ending (Template.ofBody (u.body h) ++ Prose.backtick :: rest) =
    if Template.interpolates (u.body h) then .placeholder
    else if Template.dangles (u.body h) then Template.ending rest else .backtick rest
  /-- Where the template literals of the new source are those of the old one and those that are written, as they
  read, those with a substitution have grown by the strings with such placeholders. -/
  counted : after.templates.Perm (u.templates ++ u.written) →
    after.interpolatedTemplates =
      u.interpolatedTemplates + (u.hazards.filter fun h => Template.interpolates (u.body h)).length

namespace Interpolated

variable {u after : ParsedUnit} {source text : String}

theorem grown_of_none (h : Interpolated u source text after) (hnone : u.interpolatedTemplates = 0) :
    u.interpolatedTemplates < after.interpolatedTemplates := by
  rw [hnone]
  exact h.marked

theorem grown_iff (h : Interpolated u source text after) (hperm : after.templates.Perm (u.templates ++ u.written)) :
    u.interpolatedTemplates < after.interpolatedTemplates ↔
      ∃ z ∈ u.hazards, Template.interpolates (u.body z) = true := by
  rw [h.counted hperm, Nat.lt_add_right_iff_pos, List.length_pos_iff_exists_mem]
  simp only [List.mem_filter]

end Interpolated

namespace Registry

variable {env : Surroundings} {b : Bench} {u : ParsedUnit} {file source : String}

theorem apply_eq {id : RuleId} {rule : Rule} (h : b.registry.rule? id = some rule) :
    apply env b id u file source = applyRule env b rule u file source := by
  unfold apply
  rw [h]

/-- The verdict on the unit of the edited source decides. -/
theorem success_of_edited {id : RuleId} {rule : Rule} {edits : List Edit} {text : String}
    (hrule : b.registry.rule? id = some rule) (h : edited rule u source = .ok (edits, text)) :
    (apply env b id u file source).1.success =
      (rule.judge u (b.host.parse env b.world.files file text).unit).success := by
  rw [apply_eq hrule]
  simp only [applyRule, attempt, h]
  rfl

theorem interpolated_of_judge {text : String} {after : ParsedUnit} (hhazards : u.hazards ≠ [])
    (htext : applyEdits source (u.hazards.map (templateEdit u)) = .ok text)
    (hgood : (Verdict.judge .templateInterpolation u after).success = true) : Interpolated u source text after := by
  have hpresent : Defect.templateInterpolation.isPresent u = true := by simpa [Defect.isPresent] using hhazards
  obtain ⟨hfixed, herrors⟩ := Verdict.success_judge_iff.1 hgood
  obtain ⟨hgone, hmarked⟩ := hfixed hpresent
  refine ⟨htext, by simpa [Defect.isPresent] using hgone, herrors, by simpa [Defect.hasMarker] using hmarked,
    fun h _ => Template.ending_ofBody _, fun hperm => ?_⟩
  rw [after.interpolatedTemplates_eq, u.interpolatedTemplates_eq, hperm.count_eq, List.count_append, u.count_written]

/-- Behind an accepted repair of quoted placeholders no such string is left, and some template literal has a
substitution. There are more of these than before if there was none before; and where the template literals of the new
source are the old ones and those that are written, if and only if some string had a placeholder that no backslash
takes. -/
theorem interpolated_of_apply (hrule : b.registry.rule? .interpolateAttribute = some .interpolateAttribute)
    (hhazards : u.hazards ≠ []) (h : (apply env b .interpolateAttribute u file source).1.success = true) :
    ∃ text after, (apply env b .interpolateAttribute u file source).1.newSource = some text ∧
      (apply env b .interpolateAttribute u file source).1.unit = some after ∧
      after = (b.host.parse env b.world.files file text).unit ∧
      Interpolated u source text after ∧
      (u.interpolatedTemplates = 0 → u.interpolatedTemplates < after.interpolatedTemplates) ∧
      (after.templates.Perm (u.templates ++ u.written) →
        (u.interpolatedTemplates < after.interpolatedTemplates ↔
          ∃ z ∈ u.hazards, Template.interpolates (u.body z) = true)) := by
  obtain ⟨rule, edits, text, hfound, hedited, hunit, hgood⟩ := accepted_of_apply h
  obtain rfl : Rule.interpolateAttribute = rule := Option.some.inj (hrule.symm.trans hfound)
  obtain ⟨hpropose, htext⟩ := edited_eq_ok hedited
  obtain rfl : u.hazards.map (templateEdit u) = edits := Except.ok.inj hpropose
  have hsettled := (applyRule_booked env b .interpolateAttribute u file source).1
  rw [← apply_eq hrule] at hsettled
  obtain ⟨_, -, -, hgiven⟩ := hsettled.judged _ text hedited
  have hall := interpolated_of_judge hhazards htext hgood
  exact ⟨text, _, (hgiven h).1, hunit, rfl, hall, hall.grown_of_none, hall.grown_iff⟩

/-! ## Three literals -/

/-- A named node without a field. -/
def branch (kind : String) (start stop : Nat) (children : List SyntaxTree) : SyntaxTree :=
  .node ⟨kind, true, false, false, false, none, start, stop⟩ children

/-- The tree of the template literal `${x}` at an offset. -/
def placeholderTree (start : Nat) : SyntaxTree :=
  branch "template_string" start (start + 6) [branch "template_substitution" (start + 1) (start + 5) []]

/-- A template literal and two quoted strings, the placeholder of the last one escaped; and the same with template
literals in their place. -/
def threeLiterals (text : String) : SyntaxTree :=
  let program (second third : SyntaxTree) := branch "program" 0 21
    [branch "expression_statement" 0 7 [placeholderTree 0], branch "expression_statement" 7 14 [second],
      branch "expression_statement" 14 21 [third]]
  if text = "`$\x7bx\x7d`;'$\x7by\x7d';'\\$\x7bz\x7d'" then
    program (branch "string" 7 13 []) (branch "string" 14 21 [branch "escape_sequence" 15 17 []])
  else if text = "`$\x7bx\x7d`;`$\x7by\x7d`;`\\$\x7bz\x7d`" then
    program (placeholderTree 7) (branch "template_string" 14 21 [branch "escape_sequence" 15 17 []])
  else .refusal text

/-- Surroundings where three literals are read as they are and all else is refused. -/
def reading : Surroundings where
  grammars _ text := threeLiterals text
  contentHash bytes := Digest.hexText bytes.data.toList
  checksum bytes := Digest.hexText bytes.data.toList
  archives := .json
  process := 1
  clock n := 1700000000000 + n
  freshId n := toString n

theorem interpolated_of_threeLiterals :
    let source := "`$\x7bx\x7d`;'$\x7by\x7d';'\\$\x7bz\x7d'"
    let text := "`$\x7bx\x7d`;`$\x7by\x7d`;`\\$\x7bz\x7d`"
    let bench : Bench := ⟨fresh Rule.builtin ⟨[], none⟩, .fresh (.fresh none) 64, ⟨.empty, 0, 0⟩⟩
    let u := ParserHost.Request.plainUnit reading 64 ⟨"a.js", source⟩
    let after := ParserHost.Request.plainUnit reading 64 ⟨"a.js", text⟩
    bench.registry.rule? .interpolateAttribute = some .interpolateAttribute ∧ u.hazards.length = 2 ∧
      (apply reading bench .interpolateAttribute u "a.js" source).1.success = true ∧
      (apply reading bench .interpolateAttribute u "a.js" source).1.newSource = some text ∧
      u.templates = [true] ∧ after.templates = [true, true, false] ∧
      u.interpolatedTemplates < after.interpolatedTemplates := by
  intro source text bench u after
  have hcount : u.hazards.length = 2 := by decide +kernel
  have htext : applyEdits source (u.hazards.map (templateEdit u)) = .ok text :=
    applyEdits_eq_ok.2 ⟨by decide +kernel, by decide +kernel⟩
  have hedited : edited .interpolateAttribute u source = .ok (u.hazards.map (templateEdit u), text) := by
    rw [edited, Rule.interpolateAttribute]
    simp only [htext]
  have hafter : (bench.host.parse reading bench.world.files "a.js" text).unit = after := answers_fresh _ _ _ text
  have hgood : (apply reading bench .interpolateAttribute u "a.js" source).1.success = true := by
    rw [success_of_edited rfl hedited, hafter]
    decide +kernel
  have htemplates : u.templates = [true] ∧ after.templates = [true, true, false] ∧ u.written = [true, false] := by
    decide +kernel
  have hopen : ∃ z ∈ u.hazards, Template.interpolates (u.body z) = true := by decide +kernel
  have hhazards : u.hazards ≠ [] := List.ne_nil_of_length_eq_add_one hcount
  obtain ⟨text', _, hnew, -, rfl, hall, -, hgrown⟩ := interpolated_of_apply rfl hhazards hgood
  obtain rfl : text = text' := Except.ok.inj (htext.symm.trans hall.text_eq)
  rw [hafter, htemplates.1, htemplates.2.1, htemplates.2.2] at hgrown
  exact ⟨rfl, hcount, hgood, hnew, htemplates.1, htemplates.2.1, (hgrown (.refl _)).2 hopen⟩

end Registry

end TreeRepair
