import TreeRepair.Proofs.Prose.Scopes
import TreeRepair.Proofs.Text.Decoding

/-! The scanner on bytes. Every character that means something to the scanner is a single byte, and a byte of any other
character means nothing to it. So it may read the bytes of a text one by one, each as the character with its number,
and it marks the same line starts as on the characters. -/

set_option autoImplicit false

namespace TreeRepair

variable {c : Char} {cs rest front : List Char}

/-! ## Bytes as characters -/

namespace Text

/-- The bytes of a text, each as the character with its number. -/
def byteChars (cs : List Char) : List Char := (cs.flatMap String.utf8EncodeChar).map Char.ofUInt8

theorem byteChars_cons (c : Char) (cs : List Char) :
    byteChars (c :: cs) = (String.utf8EncodeChar c).map Char.ofUInt8 ++ byteChars cs := by
  rw [byteChars, List.flatMap_cons, List.map_append, byteChars]

theorem toNat_ofUInt8 (b : UInt8) : (Char.ofUInt8 b).toNat = b.toNat := UInt8.toNat_toUInt32 b

/-- A character below 128 is one byte. -/
theorem byteChars_narrow (h : c.toNat < 128) (cs : List Char) : byteChars (c :: cs) = c :: byteChars cs := by
  have hsmall : c.val.toNat ≤ 127 := Nat.le_of_lt_succ h
  have hback : Char.ofUInt8 (UInt8.ofNat c.val.toNat) = c := by
    rw [← Char.ofNat_toNat (Char.ofUInt8 _), toNat_ofUInt8, toNat_ofNat_of_lt (by omega)]
    exact Char.ofNat_toNat c
  rw [byteChars_cons, String.utf8EncodeChar, if_pos hsmall, List.map_singleton, hback, List.singleton_append]

/-- A character from 128 on has no byte below 128. -/
theorem byteChars_wide (h : 128 ≤ c.toNat) (cs : List Char) : ∃ e es, byteChars (c :: cs) = e :: (es ++ byteChars cs) ∧
    ∀ d ∈ e :: es, 128 ≤ d.toNat := by
  obtain ⟨b, bs, hbytes, -⟩ := decodeFront_encode c c []
  rw [List.append_nil, List.append_nil] at hbytes
  refine ⟨Char.ofUInt8 b, bs.map Char.ofUInt8, by rw [byteChars_cons, hbytes]; rfl, fun d hd => ?_⟩
  rw [← List.map_cons, ← hbytes, List.mem_map] at hd
  obtain ⟨b', hb', rfl⟩ := hd
  rw [toNat_ofUInt8, ← Nat.not_lt]
  exact fun hlow => notMem_encode hlow (by omega) hb'

/-- What stands at the front of a text below 128 stands at the front of its bytes, and nothing else below 128 does. -/
theorem head?_byteChars (cs : List Char) {d : Char} (hd : d.toNat < 128) :
    (byteChars cs).head? = some d ↔ cs.head? = some d := by
  cases cs with
  | nil => rfl
  | cons c cs =>
    by_cases hc : c.toNat < 128
    · rw [byteChars_narrow hc, List.head?_cons, List.head?_cons]
    · obtain ⟨e, es, hbytes, hwide⟩ := byteChars_wide (Nat.le_of_not_lt hc) cs
      have he := hwide e (List.mem_cons_self ..)
      rw [hbytes, List.head?_cons, List.head?_cons, Option.some.injEq, Option.some.injEq]
      exact iff_of_false (fun h => by rw [h] at he; omega) fun h => hc (h ▸ hd)

end Text

/-! ## Steps -/

namespace Prose.Scanner

open Text

variable {s t : Scanner} {next next' : Option Char} {skips : Bool}

/-- The quote of a string is a character below 128. -/
def Narrow (s : Scanner) : Prop := ∀ quote, s.mode = .quoted quote → quote.toNat < 128

theorem narrow_start : start.Narrow := by
  intro quote h
  cases h

theorem Narrow.step (hs : s.Narrow) (h : s.step c next = (t, skips)) : t.Narrow := by
  obtain ⟨mode, depth, substitutions⟩ := s
  obtain rfl : t = (Scanner.step ⟨mode, depth, substitutions⟩ c next).1 := (congrArg Prod.fst h).symm
  have hquote : c = '\'' ∨ c = '"' → c.toNat < 128 := by
    rintro (rfl | rfl) <;> decide
  intro quote
  cases mode with
  | code =>
    simp only [Scanner.step]
    repeat' split
    all_goals intro hmode
    all_goals cases hmode
    exact hquote ‹_›
  | lineComment | blockComment | template =>
    simp only [Scanner.step]
    repeat' split
    all_goals
      intro hmode
      cases hmode
  | quoted =>
    simp only [Scanner.step]
    split
    · exact hs quote
    split
    · intro hmode
      cases hmode
    · exact hs quote

/-- A step looks for characters below 128 only in what comes next. -/
theorem step_congr (h : ∀ d : Char, d.toNat < 128 → (next = some d ↔ next' = some d)) : s.step c next = s.step c next' := by
  have hslash := h '/' (by decide)
  have hstar := h '*' (by decide)
  have hbrace := h '\x7b' (by decide)
  simp only [step, hslash, hstar, hbrace]

/-- A character from 128 on means nothing, whatever the mode. -/
theorem step_wide (hs : s.Narrow) (hc : 128 ≤ c.toNat) (next : Option Char) : s.step c next = (s, false) := by
  have hne : ∀ d : Char, d.toNat < 128 → c ≠ d := by
    rintro d hd rfl
    omega
  obtain ⟨mode, depth, substitutions⟩ := s
  cases mode with
  | quoted quote => simp [step, hne '\\' (by decide), hne '\n' (by decide), hne quote (hs quote rfl)]
  | _ =>
    simp [step, backtick, hne '/' (by decide), hne '\'' (by decide), hne '"' (by decide), hne '\x60' (by decide),
      hne '\x7b' (by decide), hne '(' (by decide), hne '[' (by decide), hne '\x7d' (by decide), hne ')' (by decide),
      hne ']' (by decide), hne '\n' (by decide), hne '*' (by decide), hne '\\' (by decide), hne '$' (by decide)]

theorem marks_wide (h : 128 ≤ c.toNat) : s.marks [c] = [] := by
  refine s.marks_of_notMem fun hfeed => ?_
  rw [← List.mem_singleton.1 hfeed] at h
  exact absurd h (by decide)

theorem lineStarts_wide (hs : s.Narrow) (h : ∀ d ∈ front, 128 ≤ d.toNat) (rest : List Char) :
    s.lineStarts (front ++ rest) = s.lineStarts rest := by
  induction front with
  | nil => rfl
  | cons c front ih =>
    obtain ⟨hc, hfront⟩ := List.forall_mem_cons.1 h
    rw [List.cons_append, lineStarts, step_wide hs hc]
    simp only
    rw [marks_wide hc, List.nil_append, ih hfront]

/-! ## Runs -/

/-- Where a step takes the next character along, it takes the first byte of it; the others mean nothing. -/
theorem exists_skipped (ht : t.Narrow) (c d : Char) (ds : List Char) : ∃ e es, byteChars (d :: ds) = e :: es ∧
    t.marks [c, e] = t.marks [c, d] ∧ t.lineStarts es = t.lineStarts (byteChars ds) := by
  by_cases hd : d.toNat < 128
  · exact ⟨d, _, byteChars_narrow hd ds, rfl, rfl⟩
  · obtain ⟨e, es, hbytes, hwide⟩ := byteChars_wide (Nat.le_of_not_lt hd) ds
    obtain ⟨he, hes⟩ := List.forall_mem_cons.1 hwide
    have hfeed : ∀ x : Char, 128 ≤ x.toNat → (x == '\n') = false := fun x hx => by
      rw [beq_eq_false_iff_ne]
      rintro rfl
      exact absurd hx (by decide)
    refine ⟨e, es ++ byteChars ds, hbytes, ?_, lineStarts_wide ht hes _⟩
    simp [marks, List.filter_cons, hfeed e he, hfeed d (Nat.le_of_not_lt hd)]

/-- The scanner marks the same line starts in the bytes of a text as in its characters. -/
theorem lineStarts_byteChars (hs : s.Narrow) (cs : List Char) : s.lineStarts (byteChars cs) = s.lineStarts cs := by
  fun_induction lineStarts s cs with
  | case1 => rfl
  | case2 s c cs t hstep ih =>
    by_cases hc : c.toNat < 128
    · have hbytes : s.step c (byteChars cs).head? = (t, false) := by
        rw [← hstep]
        exact step_congr fun d hd => head?_byteChars cs hd
      rw [byteChars_narrow hc, lineStarts, hbytes]
      simp only
      rw [ih (hs.step hstep)]
    · obtain ⟨e, es, hbytes, hwide⟩ := byteChars_wide (Nat.le_of_not_lt hc) cs
      rw [step_wide hs (Nat.le_of_not_lt hc)] at hstep
      obtain rfl : s = t := congrArg Prod.fst hstep
      rw [hbytes, ← List.cons_append, lineStarts_wide hs hwide, ih hs,
        marks_wide (Nat.le_of_not_lt hc), List.nil_append]
  | case3 s c t hstep =>
    have hc : c.toNat < 128 := by
      by_contra hwide
      rw [step_wide hs (Nat.le_of_not_lt hwide)] at hstep
      exact absurd (congrArg Prod.snd hstep) Bool.false_ne_true
    rw [byteChars_narrow hc, show byteChars [] = [] from rfl, lineStarts, hstep]
  | case4 s c t d ds hstep ih =>
    have hc : c.toNat < 128 := by
      by_contra hwide
      rw [step_wide hs (Nat.le_of_not_lt hwide)] at hstep
      exact absurd (congrArg Prod.snd hstep) Bool.false_ne_true
    have hbytes : s.step c (byteChars (d :: ds)).head? = (t, true) := by
      rw [← hstep]
      exact step_congr fun e he => head?_byteChars (d :: ds) he
    obtain ⟨e, es, hcons, hmarks, hrest⟩ := exists_skipped (hs.step hstep) c d ds
    rw [byteChars_narrow hc, lineStarts, hbytes, hcons]
    simp only
    rw [hmarks, hrest, ih (hs.step hstep)]

end Prose.Scanner

namespace Prose

theorem moduleScopeLineStarts_byteChars (cs : List Char) :
    moduleScopeLineStarts (Text.byteChars cs) = moduleScopeLineStarts cs := by
  rw [moduleScopeLineStarts, Scanner.lineStarts_byteChars Scanner.narrow_start, moduleScopeLineStarts]

end Prose

end TreeRepair
