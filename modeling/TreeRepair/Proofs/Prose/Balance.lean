import TreeRepair.Proofs.Prose.Runs

/-! Balanced texts: code in which every string, comment, template literal, substitution and bracket that is opened is
closed again. Behind one the scanner stands as before it, at whatever depth and in whatever substitutions it began. -/

set_option autoImplicit false

namespace TreeRepair.Prose

open Text

/-- The brackets that belong together. -/
def IsBracketPair (opening closing : Char) : Prop :=
  (opening, closing) ∈ [('(', ')'), ('[', ']'), ('\x7b', '\x7d')]

instance (opening closing : Char) : Decidable (IsBracketPair opening closing) :=
  inferInstanceAs (Decidable (_ ∈ [_, _, _]))

/-- The characters that open or close something in code; a slash does so only in front of a slash or an asterisk. -/
def codeMarks : List Char := ['\'', '"', backtick, '(', ')', '[', ']', '\x7b', '\x7d']

/-- Texts of a mode in which everything that is opened is closed again, where `next` is the character behind them. -/
inductive Balanced : Mode → Option Char → List Char → Prop where
  | nil {mode : Mode} {next : Option Char} : Balanced mode next []
  /-- A character of code that opens and closes nothing. -/
  | plain {next : Option Char} {c : Char} {cs : List Char} : c ∉ codeMarks →
      (c = '/' → cs.head?.or next ≠ some '/' ∧ cs.head?.or next ≠ some '*') →
      Balanced .code next cs → Balanced .code next (c :: cs)
  /-- A quoted string. -/
  | string {next : Option Char} {quote : Char} {body cs : List Char} : quote = '\'' ∨ quote = '"' →
      Balanced (.quoted quote) (some quote) body → Balanced .code next cs →
      Balanced .code next (quote :: (body ++ quote :: cs))
  /-- A line comment with the line feed that ends it. -/
  | lineComment {next : Option Char} {body cs : List Char} :
      Balanced .lineComment (some '\n') body → Balanced .code next cs →
      Balanced .code next ('/' :: '/' :: (body ++ '\n' :: cs))
  | blockComment {next : Option Char} {body cs : List Char} :
      Balanced .blockComment (some '*') body → Balanced .code next cs →
      Balanced .code next ('/' :: '*' :: (body ++ '*' :: '/' :: cs))
  /-- A template literal. -/
  | template {next : Option Char} {body cs : List Char} :
      Balanced .template (some backtick) body → Balanced .code next cs →
      Balanced .code next (backtick :: (body ++ backtick :: cs))
  /-- Code in brackets. -/
  | group {next : Option Char} {opening closing : Char} {body cs : List Char} : IsBracketPair opening closing →
      Balanced .code (some closing) body → Balanced .code next cs →
      Balanced .code next (opening :: (body ++ closing :: cs))
  /-- A character of a line comment. -/
  | remark {next : Option Char} {c : Char} {cs : List Char} : c ≠ '\n' →
      Balanced .lineComment next cs → Balanced .lineComment next (c :: cs)
  /-- A character of a block comment. -/
  | note {next : Option Char} {c : Char} {cs : List Char} : (c = '*' → cs.head?.or next ≠ some '/') →
      Balanced .blockComment next cs → Balanced .blockComment next (c :: cs)
  /-- A character of a string. -/
  | letter {next : Option Char} {quote c : Char} {cs : List Char} : c ≠ '\\' → c ≠ quote → c ≠ '\n' →
      Balanced (.quoted quote) next cs → Balanced (.quoted quote) next (c :: cs)
  | stringEscape {next : Option Char} {quote c : Char} {cs : List Char} :
      Balanced (.quoted quote) next cs → Balanced (.quoted quote) next ('\\' :: c :: cs)
  /-- A character of a template literal. -/
  | text {next : Option Char} {c : Char} {cs : List Char} : c ≠ '\\' → c ≠ backtick →
      (c = '$' → cs.head?.or next ≠ some '\x7b') →
      Balanced .template next cs → Balanced .template next (c :: cs)
  | templateEscape {next : Option Char} {c : Char} {cs : List Char} :
      Balanced .template next cs → Balanced .template next ('\\' :: c :: cs)
  /-- Code in a substitution. -/
  | substitution {next : Option Char} {body cs : List Char} :
      Balanced .code (some '\x7d') body → Balanced .template next cs →
      Balanced .template next ('$' :: '\x7b' :: (body ++ '\x7d' :: cs))

namespace Scanner

variable {depth : Nat} {substitutions : List Nat} {c opening closing : Char} {next : Option Char} {cs rest : List Char}

/-! ## What a character does -/

theorem step_plain (hc : c ∉ codeMarks) (hslash : c = '/' → next ≠ some '/' ∧ next ≠ some '*') :
    step ⟨.code, depth, substitutions⟩ c next = (⟨.code, depth, substitutions⟩, false) := by
  simp only [codeMarks, List.mem_cons, List.not_mem_nil, or_false, not_or] at hc
  have hline : ¬ (c = '/' ∧ next = some '/') := fun h => (hslash h.1).1 h.2
  have hblock : ¬ (c = '/' ∧ next = some '*') := fun h => (hslash h.1).2 h.2
  simp [step, hline, hblock, hc]

theorem step_opening (h : IsBracketPair opening closing) (next : Option Char) :
    step ⟨.code, depth, substitutions⟩ opening next = (⟨.code, depth + 1, substitutions⟩, false) := by
  simp only [IsBracketPair, List.mem_cons, Prod.mk.injEq, List.not_mem_nil, or_false] at h
  rcases h with ⟨rfl, rfl⟩ | ⟨rfl, rfl⟩ | ⟨rfl, rfl⟩ <;> rfl

/-- A closing bracket inside of an opening one ends no substitution, since none was opened behind that. -/
theorem step_closing (h : IsBracketPair opening closing) (htop : ∀ d ∈ substitutions.head?, d ≤ depth)
    (next : Option Char) :
    step ⟨.code, depth + 1, substitutions⟩ closing next = (⟨.code, depth, substitutions⟩, false) := by
  have hdeeper : substitutions.head? ≠ some (depth + 1) := fun hsome =>
    absurd (htop _ (Option.mem_def.2 hsome)) (Nat.not_succ_le_self depth)
  simp only [IsBracketPair, List.mem_cons, Prod.mk.injEq, List.not_mem_nil, or_false] at h
  rcases h with ⟨rfl, rfl⟩ | ⟨rfl, rfl⟩ | ⟨rfl, rfl⟩ <;> simp [step, hdeeper, backtick]

theorem step_quote {quote : Char} (h : quote = '\'' ∨ quote = '"') (next : Option Char) :
    step ⟨.code, depth, substitutions⟩ quote next = (⟨.quoted quote, depth, substitutions⟩, false) := by
  rcases h with rfl | rfl <;> rfl

theorem step_unquote {quote : Char} (h : quote = '\'' ∨ quote = '"') (next : Option Char) :
    step ⟨.quoted quote, depth, substitutions⟩ quote next = (⟨.code, depth, substitutions⟩, false) := by
  rcases h with rfl | rfl <;> rfl

theorem step_letter {quote : Char} (hescape : c ≠ '\\') (hquote : c ≠ quote) (hfeed : c ≠ '\n') (next : Option Char) :
    step ⟨.quoted quote, depth, substitutions⟩ c next = (⟨.quoted quote, depth, substitutions⟩, false) := by
  simp [step, hescape, hquote, hfeed]

theorem step_text (hescape : c ≠ '\\') (htick : c ≠ backtick) (hopens : c = '$' → next ≠ some '\x7b') :
    step ⟨.template, depth, substitutions⟩ c next = (⟨.template, depth, substitutions⟩, false) := by
  have hnot : ¬ (c = '$' ∧ next = some '\x7b') := fun h => hopens h.1 h.2
  simp [step, hescape, htick, hnot]

theorem step_resume (next : Option Char) : step ⟨.code, depth, depth :: substitutions⟩ '\x7d' next =
    (⟨.template, depth, substitutions⟩, false) := by
  simp [step, backtick]

end Scanner

open Scanner

/-- Through a balanced text the scanner comes back to where it was. -/
theorem Balanced.reaches {mode : Mode} {next : Option Char} {cs rest : List Char} {depth : Nat} {substitutions : List Nat}
    (h : Balanced mode next cs) (hnext : rest.head? = next) (htop : ∀ d ∈ substitutions.head?, d ≤ depth) :
    Reaches (⟨mode, depth, substitutions⟩, cs ++ rest) (⟨mode, depth, substitutions⟩, rest) := by
  induction h generalizing depth substitutions rest with
  | nil => exact reaches_refl _
  | @plain next c cs hc hslash _ ih =>
    refine .trans (reaches_step (step_plain hc ?_)) (ih hnext htop)
    simpa only [List.append_eq, List.head?_append, hnext] using hslash
  | string hquote _ _ ihbody ih =>
    rw [List.cons_append, List.append_assoc, List.cons_append]
    refine .trans (reaches_step (step_quote hquote _)) (.trans (ihbody rfl htop) ?_)
    exact .trans (reaches_step (step_unquote hquote _)) (ih hnext htop)
  | lineComment _ _ ihbody ih =>
    rw [List.cons_append, List.cons_append, List.append_assoc, List.cons_append]
    refine .trans (reaches_skip rfl) (.trans (ihbody rfl htop) ?_)
    exact .trans (reaches_step rfl) (ih hnext htop)
  | blockComment _ _ ihbody ih =>
    rw [List.cons_append, List.cons_append, List.append_assoc, List.cons_append, List.cons_append]
    refine .trans (reaches_skip rfl) (.trans (ihbody rfl htop) ?_)
    exact .trans (reaches_skip rfl) (ih hnext htop)
  | template _ _ ihbody ih =>
    rw [List.cons_append, List.append_assoc, List.cons_append]
    refine .trans (reaches_step rfl) (.trans (ihbody rfl htop) ?_)
    exact .trans (reaches_step rfl) (ih hnext htop)
  | group hpair _ _ ihbody ih =>
    rw [List.cons_append, List.append_assoc, List.cons_append]
    refine .trans (reaches_step (step_opening hpair _)) (.trans (ihbody rfl fun d hd => ?_) ?_)
    · exact Nat.le_succ_of_le (htop d hd)
    · exact .trans (reaches_step (step_closing hpair htop _)) (ih hnext htop)
  | remark hc _ ih => exact .trans (reaches_step (by simp [step, hc])) (ih hnext htop)
  | @note next c cs hc _ ih =>
    refine .trans (reaches_step ?_) (ih hnext htop)
    have hnot : ¬ (c = '*' ∧ (cs ++ rest).head? = some '/') := by
      rw [List.head?_append, hnext]
      exact fun h => hc h.1 h.2
    simp only [step, List.append_eq, if_neg hnot]
  | letter hescape hquote hfeed _ ih =>
    exact .trans (reaches_step (step_letter hescape hquote hfeed _)) (ih hnext htop)
  | stringEscape _ ih => exact .trans (reaches_skip rfl) (ih hnext htop)
  | @text next c cs hescape htick hopens _ ih =>
    refine .trans (reaches_step (step_text hescape htick ?_)) (ih hnext htop)
    simpa only [List.append_eq, List.head?_append, hnext] using hopens
  | templateEscape _ ih => exact .trans (reaches_skip rfl) (ih hnext htop)
  | substitution _ _ ihbody ih =>
    rw [List.cons_append, List.cons_append, List.append_assoc, List.cons_append]
    refine .trans (reaches_skip rfl) (.trans (ihbody rfl fun d hd => ?_) ?_)
    · exact Nat.le_of_eq (Option.some.inj hd).symm
    · exact .trans (reaches_step (step_resume _)) (ih hnext htop)

/-- Behind balanced code the scanner is in code again, as deep and in the same substitutions as before it; what is
marked in between are its line feeds. -/
theorem balanced_returns {cs rest : List Char} {depth : Nat} {substitutions : List Nat}
    (h : Balanced .code rest.head? cs) (htop : ∀ d ∈ substitutions.head?, d ≤ depth) :
    let s : Scanner := ⟨.code, depth, substitutions⟩
    Reaches (s, cs ++ rest) (s, rest) ∧
      ∃ marks, marks.length = cs.count '\n' ∧ s.lineStarts (cs ++ rest) = marks ++ s.lineStarts rest := by
  intro s
  have hrun : Reaches (s, cs ++ rest) (s, rest) := h.reaches rfl htop
  obtain ⟨consumed, marks, htext, hcount, hmarks⟩ := hrun.lineStarts
  obtain rfl : cs = consumed := List.append_cancel_right htext
  exact ⟨hrun, marks, hcount, hmarks⟩

/-- A template literal in parentheses, whose substitution holds a brace in a string in braces, and a comment, all of
it in a substitution. -/
theorem balanced_returns_nested :
    let s : Scanner := ⟨.code, 1, [1]⟩
    let text := "(`$\x7b\x7b'\x7d'\x7d\x7d`)/*)*/".toList
    Reaches (s, text ++ "\x7d more`".toList) (s, "\x7d more`".toList) := by
  intro s text
  have hstring : Balanced .code (some '\x7d') "'\x7d'".toList :=
    .string (.inl rfl) (.letter (by decide) (by decide) (by decide) .nil) .nil
  have hbraces : Balanced .code (some '\x7d') "\x7b'\x7d'\x7d".toList := .group (by decide) hstring .nil
  have hliteral : Balanced .code (some ')') "`$\x7b\x7b'\x7d'\x7d\x7d`".toList :=
    .template (.substitution hbraces .nil) .nil
  have hcomment : Balanced .code (some '\x7d') "/*)*/".toList := .blockComment (.note (by decide) .nil) .nil
  have htext : Balanced .code (some '\x7d') text := .group (by decide) hliteral hcomment
  have hreturns := @balanced_returns text "\x7d more`".toList 1 [1] htext (by decide)
  exact hreturns.1

end TreeRepair.Prose
