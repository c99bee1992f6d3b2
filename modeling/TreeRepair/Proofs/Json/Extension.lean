import TreeRepair.Proofs.Json.RoundTrip
import TreeRepair.Text.Blank

/-! What the reader takes from the front of a text it takes whatever follows, unless what follows could belong to a
number. So a text that holds one value is no longer one with a second value behind it. -/

set_option autoImplicit false

namespace TreeRepair.Json

variable {cs rest ext : List Char}

/-! ## Blanks and strings -/

theorem skipSpace_append (h : skipSpace cs ≠ []) (ext : List Char) : skipSpace (cs ++ ext) = skipSpace cs ++ ext := by
  unfold skipSpace at h ⊢
  rw [List.dropWhile_append, if_neg (by simpa using h)]

theorem skipSpace_append_cons {c : Char} (h : skipSpace cs = c :: rest) (ext : List Char) :
    skipSpace (cs ++ ext) = c :: (rest ++ ext) := by
  rw [skipSpace_append (by simp [h]), h, List.cons_append]

theorem readUnits_plain {c : Char} (hquote : c ≠ '"') (hescape : c ≠ '\\') (cs : List Char) :
    readUnits (c :: cs) = if c = strayBytes then (readUnits cs).map fun (us, r) => (.stray :: us, r)
      else if c.toNat < 32 ∨ c = '\\' then none else (readUnits cs).map fun (us, r) => (.plain c :: us, r) := by
  rw [readUnits]
  · exact hquote
  · exact fun _ _ _ _ _ heq => absurd heq hescape
  · exact fun _ _ heq => absurd heq hescape

theorem readUnits_append {us : List CodeUnit} (h : readUnits cs = some (us, rest)) (ext : List Char) :
    readUnits (cs ++ ext) = some (us, rest ++ ext) := by
  fun_induction readUnits cs generalizing us with
  | case1 => simp at h
  | case2 r =>
    obtain ⟨rfl, rfl⟩ := Prod.mk.inj (Option.some.inj h)
    rfl
  | case3 a b c d r hhex => simp at h
  | case4 a b c d r n hhex ih =>
    obtain ⟨⟨us', r'⟩, hr, heq⟩ := Option.map_eq_some_iff.1 h
    obtain ⟨rfl, rfl⟩ := Prod.mk.inj heq
    simp only [List.cons_append, readUnits, hhex, ih hr, Option.map_some]
  | case5 e r hnot hesc => simp at h
  | case6 e r hnot c hesc ih =>
    obtain ⟨⟨us', r'⟩, hr, heq⟩ := Option.map_eq_some_iff.1 h
    obtain ⟨rfl, rfl⟩ := Prod.mk.inj heq
    have hu : e ≠ 'u' := by
      rintro rfl
      simp [simpleEscape?] at hesc
    rw [List.cons_append, List.cons_append, readUnits, hesc]
    · simp only [ih hr, Option.map_some]
    · rintro a b c d r rfl
      exact absurd rfl hu
  | case7 r hquote hlong hshort ih =>
    obtain ⟨⟨us', r'⟩, hr, heq⟩ := Option.map_eq_some_iff.1 h
    obtain ⟨rfl, rfl⟩ := Prod.mk.inj heq
    rw [List.cons_append, readUnits_plain (by decide) (by decide), if_pos rfl, ih hr]
    rfl
  | case8 => simp at h
  | case9 c r hquote hlong hshort hstray hplain ih =>
    obtain ⟨⟨us', r'⟩, hr, heq⟩ := Option.map_eq_some_iff.1 h
    obtain ⟨rfl, rfl⟩ := Prod.mk.inj heq
    rw [List.cons_append, readUnits_plain hquote fun heq => hplain (.inr heq), if_neg hstray, if_neg hplain, ih hr]
    rfl

/-! ## Numbers -/

theorem takeWhile_append_of_endsNumber (hext : EndsNumber ext) (cs : List Char) :
    (cs ++ ext).takeWhile isDigit = cs.takeWhile isDigit ∧ (cs ++ ext).dropWhile isDigit = cs.dropWhile isDigit ++ ext := by
  induction cs with
  | nil =>
    cases ext with
    | nil => exact ⟨rfl, rfl⟩
    | cons c r =>
      have hc := (hext c r rfl).1
      simp [hc]
  | cons c cs ih =>
    cases hc : isDigit c with
    | true => simp [hc, ih]
    | false => simp [hc]

theorem skipDigits?_append (h : skipDigits? cs = some rest) (hext : EndsNumber ext) :
    skipDigits? (cs ++ ext) = some (rest ++ ext) := by
  cases cs with
  | nil => simp [skipDigits?] at h
  | cons c cs =>
    rw [skipDigits?] at h
    split at h
    · rename_i hc
      rw [← Option.some.inj h, List.cons_append, skipDigits?, if_pos hc, (takeWhile_append_of_endsNumber hext cs).2]
    · simp at h

theorem skipFraction?_append {b : Bool} (h : skipFraction? cs = some (rest, b)) (hext : EndsNumber ext) :
    skipFraction? (cs ++ ext) = some (rest ++ ext, b) := by
  unfold skipFraction? at h
  split at h
  · obtain ⟨r, hr, heq⟩ := Option.map_eq_some_iff.1 h
    obtain ⟨rfl, rfl⟩ := Prod.mk.inj heq
    rw [List.cons_append, skipFraction?, skipDigits?_append hr hext]
    rfl
  · rename_i hnot
    obtain ⟨rfl, rfl⟩ := Prod.mk.inj (Option.some.inj h)
    unfold skipFraction?
    split
    · rename_i r heq
      cases cs with
      | nil => exact absurd rfl (hext '.' r heq).2.1
      | cons c cs =>
        obtain ⟨rfl, -⟩ := List.cons.inj heq
        exact (hnot cs rfl).elim
    · rfl

theorem skipExponent?_append {b : Bool} (h : skipExponent? cs = some (rest, b)) (hext : EndsNumber ext) :
    skipExponent? (cs ++ ext) = some (rest ++ ext, b) := by
  cases cs with
  | nil =>
    obtain ⟨rfl, rfl⟩ := Prod.mk.inj (Option.some.inj h)
    cases ext with
    | nil => rfl
    | cons c r =>
      obtain ⟨-, -, he, hE⟩ := hext c r rfl
      simp [skipExponent?, he, hE]
  | cons e cs =>
    rw [List.cons_append]
    unfold skipExponent? at h ⊢
    dsimp only at h ⊢
    by_cases he : e = 'e' ∨ e = 'E'
    · rw [if_pos he] at h ⊢
      cases cs with
      | nil => simp at h
      | cons s digits =>
        obtain ⟨r, hr, heq⟩ := Option.map_eq_some_iff.1 h
        obtain ⟨rfl, rfl⟩ := Prod.mk.inj heq
        have hsign : (if s = '+' ∨ s = '-' then digits ++ ext else s :: (digits ++ ext)) =
            (if s = '+' ∨ s = '-' then digits else s :: digits) ++ ext := by
          split <;> rfl
        simp only [List.cons_append, hsign, skipDigits?_append hr hext, Option.map_some]
    · rw [if_neg he] at h ⊢
      obtain ⟨rfl, rfl⟩ := Prod.mk.inj (Option.some.inj h)
      rfl

theorem readUnsigned_append {negative : Bool} {v : Json} (h : readUnsigned negative cs = some (v, rest))
    (hext : EndsNumber ext) : readUnsigned negative (cs ++ ext) = some (v, rest ++ ext) := by
  obtain ⟨htake, hdrop⟩ := takeWhile_append_of_endsNumber hext cs
  unfold readUnsigned at h ⊢
  simp only [htake, hdrop] at h ⊢
  split at h
  · simp at h
  · rename_i hwhole
    rw [if_neg hwhole]
    simp only [Option.bind_eq_bind, Option.bind_eq_some_iff] at h
    obtain ⟨⟨r, b⟩, hfraction, ⟨r', b'⟩, hexponent, h⟩ := h
    rw [skipFraction?_append hfraction hext]
    simp only [Option.bind_eq_bind, Option.bind_some, skipExponent?_append hexponent hext]
    split at h
    · rename_i hother
      obtain ⟨rfl, rfl⟩ := Prod.mk.inj (Option.some.inj h)
      rw [if_pos hother]
      rfl
    · rename_i hnat
      obtain ⟨rfl, rfl⟩ := Prod.mk.inj (Option.some.inj h)
      rw [if_neg hnat]
      rfl

/-! ## Values -/

/-- What the readers take with some fuel they take with other fuel, and in front of another text. -/
structure ReadsOn (ext : List Char) (fuel more : Nat) : Prop where
  value : ∀ cs v rest, readValue fuel cs = some (v, rest) → readValue more (cs ++ ext) = some (v, rest ++ ext)
  items : ∀ cs vs rest, readItems fuel cs = some (vs, rest) → readItems more (cs ++ ext) = some (vs, rest ++ ext)
  members : ∀ cs ms rest, readMembers fuel cs = some (ms, rest) → readMembers more (cs ++ ext) = some (ms, rest ++ ext)

theorem readValue_nil (fuel : Nat) : readValue fuel [] = none := by
  cases fuel <;> rw [readValue]

theorem readItems_nil (fuel : Nat) : readItems fuel [] = none := by
  cases fuel with
  | zero => rw [readItems]
  | succ fuel => rw [readItems, readValue_nil]

theorem readMembers_nil (fuel : Nat) : readMembers fuel [] = none := by
  cases fuel with
  | zero => rw [readMembers]
  | succ fuel => simp [readMembers]

section Step

variable {fuel more : Nat} (hr : ReadsOn ext fuel more)

include hr

/-! One more unit of fuel, for each reader. -/

theorem ReadsOn.value_succ (hext : EndsNumber ext) {v : Json} (h : readValue (fuel + 1) cs = some (v, rest)) :
    readValue (more + 1) (cs ++ ext) = some (v, rest ++ ext) := by
  unfold readValue at h
  split at h
  · obtain ⟨rfl, rfl⟩ := Prod.mk.inj (Option.some.inj h)
    simp [readValue]
  · obtain ⟨rfl, rfl⟩ := Prod.mk.inj (Option.some.inj h)
    simp [readValue]
  · obtain ⟨rfl, rfl⟩ := Prod.mk.inj (Option.some.inj h)
    simp [readValue]
  · obtain ⟨⟨us, r⟩, hus, heq⟩ := Option.map_eq_some_iff.1 h
    obtain ⟨rfl, rfl⟩ := Prod.mk.inj heq
    simp [readValue, readUnits_append hus]
  · simp [readValue, readUnsigned_append h hext]
  · rename_i behind
    split at h
    · rename_i r hs
      obtain ⟨rfl, rfl⟩ := Prod.mk.inj (Option.some.inj h)
      simp [readValue, skipSpace_append_cons hs]
    · rename_i hnot
      obtain ⟨⟨vs, r⟩, hvs, heq⟩ := Option.map_eq_some_iff.1 h
      obtain ⟨rfl, rfl⟩ := Prod.mk.inj heq
      have hne : skipSpace behind ≠ [] := fun hnil => by simp [hnil, readItems_nil] at hvs
      obtain ⟨c, r', hc⟩ := List.exists_cons_of_ne_nil hne
      have hclose : c ≠ ']' := fun heq => hnot r' (by rw [hc, heq])
      have hread := hr.items _ _ _ hvs
      rw [hc, List.cons_append] at hread
      simp [readValue, skipSpace_append_cons hc, hclose, hread]
  · rename_i c behind hnull htrue hfalse hquote hminus hbracket
    -- only an object or a number is left, and neither begins like one of the other values
    have hfirst : c = '\x7b' ∨ isDigit c = true := by
      by_contra hno
      rw [not_or] at hno
      simp [hno.1, hno.2] at h
    have hc : c ≠ 'n' ∧ c ≠ 't' ∧ c ≠ 'f' ∧ c ≠ '"' ∧ c ≠ '-' ∧ c ≠ '[' := by
      refine ⟨?_, ?_, ?_, ?_, ?_, ?_⟩ <;> rintro rfl <;> exact absurd hfirst (by decide)
    obtain ⟨hn, ht, hf, hq, hm, hb⟩ := hc
    rw [List.cons_append, readValue]
    · split at h
      · rename_i hbrace
        rw [if_pos hbrace]
        split at h
        · rename_i d r hs
          rw [skipSpace_append_cons hs]
          dsimp only
          split at h
          · rename_i hd
            obtain ⟨rfl, rfl⟩ := Prod.mk.inj (Option.some.inj h)
            rw [if_pos hd]
          · rename_i hd
            obtain ⟨⟨ms, r'⟩, hms, heq⟩ := Option.map_eq_some_iff.1 h
            obtain ⟨rfl, rfl⟩ := Prod.mk.inj heq
            have hread := hr.members _ _ _ hms
            rw [List.cons_append] at hread
            rw [if_neg hd, hread]
            rfl
        · simp at h
      · rename_i hbrace
        have hdigit := hfirst.resolve_left hbrace
        rw [if_pos hdigit] at h
        rw [if_neg hbrace, if_pos hdigit, ← List.cons_append, readUnsigned_append h hext]
    all_goals
      intros
      contradiction
  · simp at h

theorem ReadsOn.items_succ {vs : List Json} (h : readItems (fuel + 1) cs = some (vs, rest)) :
    readItems (more + 1) (cs ++ ext) = some (vs, rest ++ ext) := by
  rw [readItems] at h
  cases hv : readValue fuel cs with
  | none => simp [hv] at h
  | some found =>
    obtain ⟨v, behind⟩ := found
    rw [hv] at h
    rw [readItems, hr.value cs v behind hv]
    dsimp only at h ⊢
    split at h
    · rename_i r hs
      obtain ⟨rfl, rfl⟩ := Prod.mk.inj (Option.some.inj h)
      rw [skipSpace_append_cons hs]
      simp
    · rename_i r hs
      obtain ⟨⟨ws, r'⟩, hw, heq⟩ := Option.map_eq_some_iff.1 h
      obtain ⟨rfl, rfl⟩ := Prod.mk.inj heq
      have hne : skipSpace r ≠ [] := fun hnil => by simp [hnil, readItems_nil] at hw
      rw [skipSpace_append_cons hs]
      simp [skipSpace_append hne, hr.items _ _ _ hw]
    · simp at h

theorem ReadsOn.members_succ {ms : List (Json × Json)} (h : readMembers (fuel + 1) cs = some (ms, rest)) :
    readMembers (more + 1) (cs ++ ext) = some (ms, rest ++ ext) := by
  unfold readMembers at h
  split at h
  · rename_i behind
    split at h
    · simp at h
    · rename_i us r hus
      split at h
      · rename_i r' hs
        split at h
        · simp at h
        · rename_i v r'' hv
          have hne : skipSpace r' ≠ [] := fun hnil => by simp [hnil, readValue_nil] at hv
          simp only [List.cons_append, readMembers, readUnits_append hus, skipSpace_append_cons hs,
            skipSpace_append hne, hr.value _ _ _ hv]
          split at h
          · rename_i r₃ hs'
            obtain ⟨⟨ns, r₄⟩, hns, heq⟩ := Option.map_eq_some_iff.1 h
            obtain ⟨rfl, rfl⟩ := Prod.mk.inj heq
            have hne' : skipSpace r₃ ≠ [] := fun hnil => by simp [hnil, readMembers_nil] at hns
            simp [skipSpace_append_cons hs', skipSpace_append hne', hr.members _ _ _ hns]
          · rename_i d r₃ hcomma hs'
            split at h
            · rename_i hd
              obtain ⟨rfl, rfl⟩ := Prod.mk.inj (Option.some.inj h)
              simp [skipSpace_append_cons hs', hd]
            · simp at h
          · simp at h
      · simp at h
  · simp at h

end Step

theorem readsOn (hext : EndsNumber ext) {fuel more : Nat} (h : fuel ≤ more) : ReadsOn ext fuel more := by
  induction fuel generalizing more with
  | zero => exact ⟨fun _ _ _ h => by simp [readValue] at h, fun _ _ _ h => by simp [readItems] at h,
      fun _ _ _ h => by simp [readMembers] at h⟩
  | succ fuel ih =>
    obtain ⟨more, rfl⟩ : ∃ m, more = m + 1 := ⟨more - 1, by omega⟩
    have hr := ih (Nat.le_of_succ_le_succ h)
    exact ⟨fun _ _ _ => hr.value_succ hext, fun _ _ _ => hr.items_succ, fun _ _ _ => hr.members_succ⟩

/-! ## Texts with one value -/

theorem readAll_eq_some {v : Json} :
    readAll cs = some v ↔ ∃ rest, readValue (2 * cs.length + 1) (skipSpace cs) = some (v, rest) ∧ skipSpace rest = [] := by
  unfold readAll
  cases h : readValue (2 * cs.length + 1) (skipSpace cs) with
  | none => simp
  | some found =>
    obtain ⟨w, rest⟩ := found
    simp only [Option.some.injEq, Prod.mk.injEq]
    constructor
    · intro hv
      split at hv
      · rename_i hrest
        exact ⟨rest, ⟨Option.some.inj hv, rfl⟩, List.isEmpty_iff.1 hrest⟩
      · simp at hv
    · rintro ⟨rest', ⟨rfl, rfl⟩, hrest⟩
      simp [hrest]

theorem parse_blank_append {a b : String} {v : Json} (ha : Blank a.toList) (h : parse b = some v) :
    parse (a ++ b) = some v := by
  simp only [parse] at h ⊢
  split at h
  · simp at h
  · rename_i hstray
    obtain ⟨rest, hread, hrest⟩ := readAll_eq_some.1 h
    have hno : (a ++ b).toList.contains strayBytes = false := by
      have hblank : strayBytes ∉ a.toList := fun hmem => absurd (ha _ hmem) (by decide)
      rw [String.toList_append, Bool.eq_false_iff, ne_eq, List.contains_iff_mem, List.mem_append, not_or]
      exact ⟨hblank, by simpa using hstray⟩
    rw [hno, if_neg (by simp), readAll_eq_some]
    refine ⟨rest, ?_, hrest⟩
    have hends : EndsNumber [] := fun c r heq => absurd heq.symm (List.cons_ne_nil c r)
    have hmore := readsOn hends
      (show 2 * b.toList.length + 1 ≤ 2 * (a ++ b).toList.length + 1 by simp)
    have hread' := hmore.value _ _ _ hread
    rw [List.append_nil, List.append_nil] at hread'
    rw [String.toList_append, skipSpace_blank ha, ← String.toList_append, hread']

theorem parse_append_eq_none {a b : String} {c : Char} {r : List Char} {v : Json} (h : parse a = some v)
    (hb : b.toList = c :: r) (hspace : isSpace c = false) (hext : EndsNumber b.toList) : parse (a ++ b) = none := by
  simp only [parse] at h ⊢
  split at h
  · simp at h
  · obtain ⟨rest, hread, hrest⟩ := readAll_eq_some.1 h
    have hne : skipSpace a.toList ≠ [] := fun hnil => by simp [hnil, readValue_nil] at hread
    have hmore := readsOn hext (show 2 * a.toList.length + 1 ≤ 2 * (a ++ b).toList.length + 1 by simp)
    have hread' := hmore.value _ _ _ hread
    rw [← skipSpace_append hne, ← String.toList_append] at hread'
    have hbehind : skipSpace (rest ++ b.toList) = c :: r := by
      unfold skipSpace at hrest ⊢
      rw [List.dropWhile_append, hrest, hb, List.dropWhile_cons_of_neg (by simpa using hspace)]
      rfl
    split
    · rfl
    · rw [readAll, hread']
      simp [hbehind]

theorem readValue_of_isBlank {c : Char} (hb : Text.isBlank c = true) (hs : isSpace c = false) (fuel : Nat)
    (cs : List Char) : readValue fuel (c :: cs) = none := by
  have hdigit : isDigit c = false := by
    rw [Bool.eq_false_iff, isDigit, ne_eq, Bool.and_eq_true, decide_eq_true_eq, decide_eq_true_eq]
    rintro ⟨hl, hr⟩
    have hl : 48 ≤ c.toNat := hl
    have hr : c.toNat ≤ 57 := hr
    simp only [Text.isBlank, Bool.or_eq_true, Bool.and_eq_true, decide_eq_true_eq, beq_iff_eq] at hb
    omega
  have hc : c ≠ 'n' ∧ c ≠ 't' ∧ c ≠ 'f' ∧ c ≠ '"' ∧ c ≠ '-' ∧ c ≠ '[' ∧ c ≠ '\x7b' := by
    refine ⟨?_, ?_, ?_, ?_, ?_, ?_, ?_⟩ <;> rintro rfl <;> exact absurd hb (by decide)
  obtain ⟨hn, ht, hf, hq, hm, hbracket, hbrace⟩ := hc
  cases fuel with
  | zero => rw [readValue]
  | succ fuel =>
    rw [readValue]
    · rw [if_neg hbrace, if_neg (by simp [hdigit])]
    all_goals
      intros
      contradiction

theorem parse_eq_none_of_isBlank {a b : String} {c : Char} {r : List Char} (ha : skipSpace a.toList = c :: r)
    (hb : Text.isBlank c = true) : parse (a ++ b) = none := by
  have hs : isSpace c = false := by
    have := List.head?_dropWhile_not isSpace a.toList
    unfold skipSpace at ha
    simpa [ha] using this
  simp only [parse]
  split
  · rfl
  · simp [readAll, skipSpace_append_cons ha, readValue_of_isBlank hb hs]

end TreeRepair.Json
