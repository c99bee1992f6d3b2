import TreeRepair.Prose
import TreeRepair.Proofs.Text.Lines

/-! Scopes line by line. Whether a line begins at module scope depends on the lines before it only through the
scanner behind them, and neither a line of prose nor a line comment that begins in plain code changes the scanner. -/

set_option autoImplicit false

namespace TreeRepair.Prose

open Text

variable {c : Char} {depth : Nat} {substitutions : List Nat} {line raw : List Char}

/-! ## Line by line -/

namespace Scanner

/-- The scanner behind a line and the line feed that ends it, which a backslash at the end of the line consumes. -/
def throughLine : Scanner → List Char → Scanner
  | s, [] => (s.step '\n' none).1
  | s, c :: cs =>
    match s.step c (cs.head?.or (some '\n')) with
    | (t, false) => t.throughLine cs
    | (t, true) =>
      match cs with
      | [] => t
      | _ :: ds => t.throughLine ds

/-- For each of some lines, whether it begins at module scope. -/
def scopes : Scanner → List (List Char) → List Bool
  | _, [] => []
  | s, line :: rest => s.atModuleScope :: (s.throughLine line).scopes rest

theorem step_feed (s : Scanner) (next : Option Char) : s.step '\n' next = ((s.step '\n' none).1, false) := by
  obtain ⟨mode, depth, substitutions⟩ := s
  cases mode with
  | quoted quote =>
    simp only [step]
    split
    · exact absurd ‹_› (by decide)
    · split <;> rfl
  | _ => rfl

theorem marks_of_notMem (s : Scanner) {consumed : List Char} (h : '\n' ∉ consumed) : s.marks consumed = [] := by
  rw [marks, List.map_eq_nil_iff, List.filter_eq_nil_iff]
  intro c hc
  simp only [beq_iff_eq]
  rintro rfl
  exact h hc

theorem lineStarts_of_notMem (s : Scanner) (h : '\n' ∉ line) : s.lineStarts line = [] := by
  fun_induction lineStarts s line with
  | case1 => rfl
  | case2 s c cs t hstep ih =>
    rw [List.mem_cons, not_or] at h
    rw [ih h.2, marks_of_notMem t (by simpa using h.1)]
    rfl
  | case3 s c t hstep => exact marks_of_notMem t h
  | case4 s c t d ds hstep ih =>
    simp only [List.mem_cons, not_or] at h
    rw [ih h.2.2, marks_of_notMem t (by simp [h.1, h.2.1])]
    rfl

theorem lineStarts_line (s : Scanner) (h : '\n' ∉ line) (rest : List Char) :
    s.lineStarts (line ++ '\n' :: rest) = (s.throughLine line).atModuleScope :: (s.throughLine line).lineStarts rest := by
  fun_induction throughLine s line with
  | case1 s =>
    rw [List.nil_append, lineStarts, step_feed]
    rfl
  | case2 s c cs t hstep ih =>
    rw [List.mem_cons, not_or] at h
    rw [List.cons_append, lineStarts, List.head?_append, List.head?_cons, hstep]
    simp only
    rw [ih h.2, marks_of_notMem t (by simpa using h.1)]
    rfl
  | case3 s c t hstep =>
    rw [List.cons_append, List.nil_append, lineStarts, List.head?_cons]
    rw [List.head?_nil, Option.none_or] at hstep
    rw [hstep]
    have hc : c ≠ '\n' := fun he => h (he ▸ List.mem_singleton_self c)
    simp [marks, hc]
  | case4 s c t d ds hstep ih =>
    simp only [List.mem_cons, not_or] at h
    rw [List.head?_cons, Option.some_or] at hstep
    rw [List.cons_append, List.cons_append, lineStarts, List.head?_cons, hstep]
    simp only
    rw [ih h.2.2, marks_of_notMem t (by simp [h.1, h.2.1])]
    rfl

theorem cons_lineStarts_joinLines (s : Scanner) {lines : List (List Char)} (hne : lines ≠ []) (h : ∀ l ∈ lines, '\n' ∉ l) :
    s.atModuleScope :: s.lineStarts (joinLines lines) = s.scopes lines := by
  induction lines generalizing s with
  | nil => exact absurd rfl hne
  | cons l rest ih =>
    obtain ⟨hl, hrest⟩ := List.forall_mem_cons.1 h
    cases rest with
    | nil =>
      rw [joinLines, List.intercalate_singleton, lineStarts_of_notMem s hl]
      rfl
    | cons m ms =>
      rw [joinLines_cons_cons, lineStarts_line s hl, ih _ (by simp) hrest]
      rfl

end Scanner

/-! ## Lines of prose and line comments -/

/-- The characters that a line of prose is made of. -/
def isProseCharacter (c : Char) : Bool := isBlank c || isWordCharacter c || isSentenceEnd c

theorem mem_words {cs : List Char} (hc : c ∈ cs) (hblank : isBlank c = false) : ∃ w ∈ words cs, c ∈ w := by
  fun_induction words cs with
  | case1 => exact absurd hc List.not_mem_nil
  | case2 d cs hd ih =>
    rcases List.mem_cons.1 hc with rfl | hc
    · exact absurd hd (by simp [hblank])
    · exact ih hc
  | case3 d hd => exact ⟨[d], List.mem_singleton_self _, hc⟩
  | case4 d hd e rest he ih =>
    rcases List.mem_cons.1 hc with rfl | hc
    · exact ⟨[c], List.mem_cons_self .., List.mem_singleton_self c⟩
    · obtain ⟨w, hw, hmem⟩ := ih hc
      exact ⟨w, List.mem_cons_of_mem _ hw, hmem⟩
  | case5 d hd e rest he hnone ih =>
    rw [hnone]
    rcases List.mem_cons.1 hc with rfl | hc
    · exact ⟨[c], List.mem_singleton_self _, List.mem_singleton_self c⟩
    · obtain ⟨w, hw, -⟩ := ih hc
      exact absurd (hnone ▸ hw) List.not_mem_nil
  | case6 d hd e rest he v vs hwords ih =>
    rw [hwords]
    rcases List.mem_cons.1 hc with rfl | hc
    · exact ⟨c :: v, List.mem_cons_self .., List.mem_cons_self ..⟩
    · obtain ⟨w, hw, hmem⟩ := ih hc
      rcases List.mem_cons.1 (hwords ▸ hw) with rfl | hw
      · exact ⟨d :: w, List.mem_cons_self .., List.mem_cons_of_mem d hmem⟩
      · exact ⟨w, List.mem_cons_of_mem _ hw, hmem⟩

theorem mem_dropSentenceEnd {cs : List Char} (hc : c ∈ cs) (hend : isSentenceEnd c = false) : c ∈ dropSentenceEnd cs := by
  rw [dropSentenceEnd, List.mem_reverse]
  rw [← List.mem_reverse, ← List.takeWhile_append_dropWhile (p := isSentenceEnd) (l := cs.reverse), List.mem_append] at hc
  rcases hc with hc | hc
  · exact absurd (List.all_eq_true.1 List.all_takeWhile c hc) (by simp [hend])
  · exact hc

theorem all_words_of_readsLikeProse (h : readsLikeProse raw = true) :
    ∀ w ∈ words (dropSentenceEnd raw), w.all isWordCharacter = true := by
  rw [readsLikeProse] at h
  split at h
  · rename_i hwords
    rw [hwords]
    exact List.all_eq_true.1 (Bool.and_eq_true_iff.1 h).2
  · exact absurd h (by simp)

theorem isProseCharacter_of_readsLikeProse (h : readsLikeProse (trim raw) = true) : ∀ c ∈ raw, isProseCharacter c = true := by
  intro c hc
  rw [isProseCharacter, Bool.or_assoc, Bool.or_eq_true, Bool.or_eq_true]
  rw [or_iff_not_imp_left, or_comm, or_iff_not_imp_left]
  intro hblank hend
  rw [Bool.not_eq_true] at hblank hend
  obtain ⟨w, hw, hmem⟩ := mem_words (mem_dropSentenceEnd (mem_trim hc hblank) hend) hblank
  exact List.all_eq_true.1 (all_words_of_readsLikeProse h w hw) c hmem

theorem readsLikeProse_of_slash (h : '/' ∈ raw) : readsLikeProse (trim raw) = false := by
  rw [Bool.eq_false_iff]
  exact fun hprose => absurd (isProseCharacter_of_readsLikeProse hprose '/' h) (by decide)

namespace Scanner

theorem step_code (h : isProseCharacter c = true) (next : Option Char) : step ⟨.code, depth, substitutions⟩ c next =
    (⟨if c = '\'' then .quoted '\'' else .code, depth, substitutions⟩, false) := by
  have hne : ∀ d, isProseCharacter d = false → c ≠ d := by
    rintro d hd rfl
    exact absurd h (by simp [hd])
  have h1 := hne '/' (by decide)
  have h2 := hne '"' (by decide)
  have h3 := hne backtick (by decide)
  have h4 := hne '\x7b' (by decide)
  have h5 := hne '(' (by decide)
  have h6 := hne '[' (by decide)
  have h7 := hne '\x7d' (by decide)
  have h8 := hne ')' (by decide)
  have h9 := hne ']' (by decide)
  simp only [step, h1, h2, h3, h4, h5, h6, h7, h8, h9, false_and, or_false, or_self, if_false]
  split
  · rename_i hc
    rw [hc]
  · rfl

theorem step_apostrophe (h : isProseCharacter c = true) (hc : c ≠ '\n') (next : Option Char) :
    step ⟨.quoted '\'', depth, substitutions⟩ c next =
      (⟨if c = '\'' then .code else .quoted '\'', depth, substitutions⟩, false) := by
  have hback : c ≠ '\\' := by
    rintro rfl
    exact absurd h (by decide)
  simp only [step, if_neg hback, hc, or_false]
  split <;> rfl

theorem throughLine_prose (mode : Mode) (hmode : mode = .code ∨ mode = .quoted '\'')
    (h : ∀ c ∈ line, isProseCharacter c = true) (hline : '\n' ∉ line) :
    throughLine ⟨mode, depth, substitutions⟩ line = ⟨.code, depth, substitutions⟩ := by
  induction line generalizing mode with
  | nil => rcases hmode with rfl | rfl <;> rfl
  | cons c cs ih =>
    obtain ⟨hc, hcs⟩ := List.forall_mem_cons.1 h
    rw [List.mem_cons, not_or] at hline
    rw [throughLine]
    rcases hmode with rfl | rfl
    · rw [step_code hc]
      exact ih _ (by split <;> simp) hcs hline.2
    · rw [step_apostrophe hc (Ne.symm hline.1)]
      exact ih _ (by split <;> simp) hcs hline.2

theorem throughLine_lineComment (hline : '\n' ∉ line) :
    throughLine ⟨.lineComment, depth, substitutions⟩ line = ⟨.code, depth, substitutions⟩ := by
  induction line with
  | nil => rfl
  | cons c cs ih =>
    rw [List.mem_cons, not_or] at hline
    rw [throughLine, step]
    simp only [if_neg (Ne.symm hline.1)]
    exact ih hline.2

/-- A line comment is ended by its line, whatever it says. -/
theorem throughLine_commented {blanks : List Char} (hblanks : ∀ c ∈ blanks, isBlank c = true) (hline : '\n' ∉ line) :
    throughLine ⟨.code, depth, substitutions⟩ (blanks ++ ("// ".toList ++ line)) = ⟨.code, depth, substitutions⟩ := by
  induction blanks with
  | nil =>
    have hspaced : '\n' ∉ ' ' :: line := by simpa using hline
    exact throughLine_lineComment hspaced
  | cons c cs ih =>
    obtain ⟨hc, hcs⟩ := List.forall_mem_cons.1 hblanks
    have hquote : c ≠ '\'' := by
      rintro rfl
      exact absurd hc (by decide)
    rw [List.cons_append, throughLine, step_code (by simp [isProseCharacter, hc]), if_neg hquote]
    exact ih hcs

end Scanner

end TreeRepair.Prose
