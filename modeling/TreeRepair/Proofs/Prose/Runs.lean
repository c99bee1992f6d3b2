import Mathlib.Logic.Relation
import TreeRepair.Proofs.Prose.Scopes

/-! Runs of the scanner. A step looks one character ahead, and so a run is taken with what follows it in the text
present. From one place there is one run, which marks the line feeds that it comes through; and a substitution that
is open at its end was opened by a step of it and has been open ever since. -/

set_option autoImplicit false

namespace TreeRepair.Prose.Scanner

open Text

/-- A step of a scanner in front of a text: the scanner behind it, and what is left of the text. -/
def advance? : Scanner × List Char → Option (Scanner × List Char)
  | (_, []) => none
  | (s, c :: cs) => some ((s.step c cs.head?).1, if (s.step c cs.head?).2 then cs.tail else cs)

/-- Steps lead a scanner from its place in a text to another. -/
def Reaches (p q : Scanner × List Char) : Prop := Relation.ReflTransGen (fun p q => advance? p = some q) p q

/-- Steps lead from one place to another, and behind each of them the given substitutions, which were open before the
first one, are open. -/
def Keeps (opened : List Nat) (p q : Scanner × List Char) : Prop :=
  Relation.ReflTransGen (fun p q => advance? p = some q ∧ opened <:+ q.1.substitutions) p q

variable {s t u : Scanner} {c d : Char} {cs rest line : List Char} {p q r : Scanner × List Char}

/-! ## Steps -/

theorem reaches_refl (p : Scanner × List Char) : Reaches p p := Relation.ReflTransGen.refl

theorem reaches_step (h : s.step c cs.head? = (t, false)) : Reaches (s, c :: cs) (t, cs) :=
  Relation.ReflTransGen.single (by rw [advance?, h]; rfl)

theorem reaches_skip (h : s.step c (some d) = (t, true)) : Reaches (s, c :: d :: cs) (t, cs) :=
  Relation.ReflTransGen.single (by rw [advance?, List.head?_cons, h]; rfl)

theorem Reaches.trans (h : Reaches p q) (h' : Reaches q r) : Reaches p r := Relation.ReflTransGen.trans h h'

/-- From a place a scanner comes to another in one way only. -/
theorem Reaches.linear (h : Reaches p q) (h' : Reaches p r) : Reaches q r ∨ Reaches r q :=
  Relation.ReflTransGen.total_of_right_unique
    (fun _ _ _ hq hr => Option.some.inj (hq.symm.trans hr)) h h'

theorem lineStarts_advance (h : advance? p = some q) : ∃ consumed, consumed ≠ [] ∧ p.2 = consumed ++ q.2 ∧
    p.1.lineStarts p.2 = q.1.marks consumed ++ q.1.lineStarts q.2 := by
  obtain ⟨s, _ | ⟨c, cs⟩⟩ := p
  · exact absurd h (by simp [advance?])
  · obtain rfl := Option.some.inj h
    rw [lineStarts]
    rcases s.step c cs.head? with ⟨t, _ | _⟩
    · exact ⟨[c], List.cons_ne_nil _ _, rfl, rfl⟩
    · cases cs with
      | nil => exact ⟨[c], List.cons_ne_nil _ _, rfl, (List.append_nil _).symm⟩
      | cons d ds => exact ⟨[c, d], List.cons_ne_nil _ _, rfl, rfl⟩

/-- A run consumes what lies between its two places and marks the line feeds there, each by one entry. -/
theorem Reaches.lineStarts (h : Reaches p q) : ∃ consumed marks, p.2 = consumed ++ q.2 ∧
    marks.length = consumed.count '\n' ∧ p.1.lineStarts p.2 = marks ++ q.1.lineStarts q.2 := by
  induction h using Relation.ReflTransGen.head_induction_on with
  | refl => exact ⟨[], [], rfl, rfl, rfl⟩
  | head hstep _ ih =>
    obtain ⟨first, -, htext, hmarks⟩ := lineStarts_advance hstep
    obtain ⟨consumed, marks, htext', hcount, hmarks'⟩ := ih
    refine ⟨first ++ consumed, _ ++ marks, by rw [htext, htext', List.append_assoc], ?_,
      by rw [hmarks, hmarks', List.append_assoc]⟩
    rw [List.length_append, hcount, List.count_append, Scanner.marks, List.length_map, ← List.count_eq_length_filter]

theorem Reaches.eq_of_text (h : Reaches p q) (htext : p.2 = q.2) : p = q := by
  rcases Relation.ReflTransGen.cases_head h with rfl | ⟨r, hstep, hrest⟩
  · rfl
  · obtain ⟨first, hne, hfirst, -⟩ := lineStarts_advance hstep
    obtain ⟨consumed, -, hconsumed, -, -⟩ := Reaches.lineStarts hrest
    rw [htext, hconsumed, ← List.append_assoc] at hfirst
    exact absurd (List.append_eq_nil_iff.1 (List.self_eq_append_left.1 hfirst)).1 hne

theorem Reaches.unique (h : Reaches p (s, rest)) (h' : Reaches p (t, rest)) : s = t := by
  rcases h.linear h' with hrun | hrun
  · exact congrArg Prod.fst (hrun.eq_of_text rfl)
  · exact (congrArg Prod.fst (hrun.eq_of_text rfl)).symm

/-! ## Lines -/

theorem reaches_line (s : Scanner) (h : '\n' ∉ line) (rest : List Char) :
    Reaches (s, line ++ '\n' :: rest) (s.throughLine line, rest) := by
  fun_induction throughLine s line with
  | case1 s => exact reaches_step (step_feed s _)
  | case2 s c cs t hstep ih =>
    rw [List.mem_cons, not_or] at h
    rw [List.cons_append]
    refine Reaches.trans (reaches_step ?_) (ih h.2)
    rw [List.head?_append, List.head?_cons, hstep]
  | case3 s c t hstep => exact reaches_skip hstep
  | case4 s c t d ds hstep ih =>
    simp only [List.mem_cons, not_or] at h
    exact Reaches.trans (reaches_skip hstep) (ih h.2.2)

/-- The scanner behind some lines, each with the line feed that ends it. -/
def throughLines (s : Scanner) (lines : List (List Char)) : Scanner := lines.foldl throughLine s

theorem reaches_lines (s : Scanner) {fore back : List (List Char)} (hback : back ≠ []) (h : ∀ l ∈ fore, '\n' ∉ l) :
    Reaches (s, joinLines (fore ++ back)) (s.throughLines fore, joinLines back) := by
  induction fore generalizing s with
  | nil => exact reaches_refl _
  | cons l fore ih =>
    obtain ⟨hl, hfore⟩ := List.forall_mem_cons.1 h
    obtain ⟨m, ms, hne⟩ := List.exists_cons_of_ne_nil (l := fore ++ back) (by simp [hback])
    have hrest := ih (s.throughLine l) hfore
    rw [hne] at hrest
    rw [List.cons_append, hne, joinLines_cons_cons]
    exact (reaches_line s hl _).trans hrest

/-! ## Substitutions -/

/-- The substitutions behind a step are those before it, or all of them but the innermost one, or one more that the
step opens in a template literal. -/
theorem advance_substitutions (h : advance? p = some q) :
    q.1.substitutions <:+ p.1.substitutions ∨
      ∃ d ds, p = (⟨.template, d, ds⟩, '$' :: '\x7b' :: q.2) ∧ q.1 = ⟨.code, d, d :: ds⟩ := by
  obtain ⟨⟨mode, depth, substitutions⟩, _ | ⟨c, cs⟩⟩ := p
  · exact absurd h (by simp [advance?])
  · obtain rfl := Option.some.inj h
    have hsame : substitutions <:+ substitutions := List.suffix_rfl
    cases mode with
    | template =>
      simp only [step]
      by_cases hopens : c = '$' ∧ cs.head? = some '\x7b'
      · obtain ⟨rfl, hnext⟩ := hopens
        obtain ⟨ds, rfl⟩ := List.head?_eq_some_iff.1 hnext
        exact .inr ⟨depth, substitutions, rfl, rfl⟩
      · rw [if_neg hopens]
        split
        · exact .inl hsame
        · split <;> exact .inl hsame
    | code =>
      simp only [step]
      repeat' split
      all_goals first | exact .inl hsame | exact .inl (List.tail_suffix _)
    | lineComment | blockComment | quoted quote =>
      simp only [step]
      repeat' split
      all_goals exact .inl hsame

/-- A substitution that is open at the end of a run was opened in a template literal, and it was not closed since. -/
theorem Reaches.opened (h : Reaches p q) (hstart : p.1.substitutions = []) {d : Nat} {ds : List Nat}
    (hopen : d :: ds <:+ q.1.substitutions) : ∃ rest, Reaches p (⟨.template, d, ds⟩, '$' :: '\x7b' :: rest) ∧
      Keeps (d :: ds) (⟨.code, d, d :: ds⟩, rest) q := by
  induction h with
  | refl => exact absurd hopen (by simp [hstart])
  | @tail q r hrun hstep ih =>
    have hearlier (h : d :: ds <:+ q.1.substitutions) : ∃ rest,
        Reaches p (⟨.template, d, ds⟩, '$' :: '\x7b' :: rest) ∧ Keeps (d :: ds) (⟨.code, d, d :: ds⟩, rest) r := by
      obtain ⟨rest, hopened, hkeeps⟩ := ih h
      exact ⟨rest, hopened, hkeeps.tail ⟨hstep, hopen⟩⟩
    rcases advance_substitutions hstep with hfewer | ⟨e, es, rfl, hmore⟩
    · exact hearlier (hopen.trans hfewer)
    · rw [hmore] at hopen
      rcases List.suffix_cons_iff.1 hopen with heq | hlater
      · obtain ⟨rfl, rfl⟩ := List.cons.inj heq
        refine ⟨r.2, hrun, ?_⟩
        rw [← hmore]
        exact Relation.ReflTransGen.refl
      · exact hearlier hlater

theorem Keeps.reaches {opened : List Nat} (h : Keeps opened p q) : Reaches p q :=
  Relation.ReflTransGen.mono (fun _ _ hstep => hstep.1) _ _ h

theorem Keeps.suffix {opened : List Nat} (h : Keeps opened p q) (hp : opened <:+ p.1.substitutions) :
    opened <:+ q.1.substitutions := by
  rcases Relation.ReflTransGen.cases_tail h with rfl | ⟨r, -, hstep⟩
  · exact hp
  · exact hstep.2

end TreeRepair.Prose.Scanner
