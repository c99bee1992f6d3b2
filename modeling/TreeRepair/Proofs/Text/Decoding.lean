import Mathlib.Algebra.Order.Ring.Nat
import TreeRepair.Text.Utf8

/-! Decoding what has been encoded. The bytes of a text decode to its characters, whatever stands in for
bytes that are no character, and only the character with number zero has a zero byte. -/

set_option autoImplicit false

namespace TreeRepair.Text

theorem toNat_ofNat_of_lt {n : Nat} (h : n < 256) : (UInt8.ofNat n).toNat = n := by
  rw [UInt8.toNat_ofNat', Nat.mod_eq_of_lt h]

theorem and_toNat (b m : UInt8) {k : Nat} (hm : m.toNat = 2 ^ k - 1) : (b &&& m).toNat = b.toNat % 2 ^ k := by
  rw [UInt8.toNat_and, hm, Nat.and_two_pow_sub_one_eq_mod]

theorem payload_ofNat {n : Nat} (h : n < 64) : payload (UInt8.ofNat (n + 0x80)) = n := by
  rw [payload, and_toNat _ _ (k := 6) rfl, toNat_ofNat_of_lt (by omega)]
  omega

theorem isContinuation_ofNat {n : Nat} (h : n < 64) : isContinuation (UInt8.ofNat (n + 0x80)) = true := by
  have hb := toNat_ofNat_of_lt (n := n + 0x80) (by omega)
  simp only [isContinuation, Bool.and_eq_true, decide_eq_true_eq, UInt8.le_iff_toNat_le, hb]
  exact ⟨by simp, by simp; omega⟩

/-- The first byte says how many follow. -/
theorem leadLength_ofNat {n : Nat} (h : n < 256) :
    leadLength (UInt8.ofNat n) =
      if n < 0x80 then 1 else if 0xc2 ≤ n ∧ n ≤ 0xdf then 2 else if 0xe0 ≤ n ∧ n ≤ 0xef then 3
      else if 0xf0 ≤ n ∧ n ≤ 0xf4 then 4 else 0 := by
  have hb := toNat_ofNat_of_lt h
  simp [leadLength, UInt8.le_iff_toNat_le, UInt8.lt_iff_toNat_lt, hb]

/-- A second byte fits its first one, unless the two spell a short number, a surrogate, or one behind
the last character. -/
theorem isSecondByte_ofNat {l n : Nat} (hl : l < 256) (hn : n < 64) (h0 : l = 0xe0 → 0x20 ≤ n)
    (h1 : l = 0xed → n ≤ 0x1f) (h2 : l = 0xf0 → 0x10 ≤ n) (h3 : l = 0xf4 → n ≤ 0x0f) :
    isSecondByte (UInt8.ofNat l) (UInt8.ofNat (n + 0x80)) = true := by
  have hb := toNat_ofNat_of_lt (n := n + 0x80) (by omega)
  have hlead := toNat_ofNat_of_lt hl
  simp only [isSecondByte, beq_iff_eq, ← UInt8.toNat_inj, hlead, UInt8.le_iff_toNat_le, hb,
    UInt8.reduceToNat]
  split
  · simp only [Bool.and_eq_true, decide_eq_true_eq]; omega
  split
  · simp only [Bool.and_eq_true, decide_eq_true_eq]; omega
  split
  · simp only [Bool.and_eq_true, decide_eq_true_eq]; omega
  split
  · simp only [Bool.and_eq_true, decide_eq_true_eq]; omega
  · simp only [Bool.and_eq_true, decide_eq_true_eq]; omega

theorem toNat_val_cases (c : Char) : c.val.toNat < 0xd800 ∨ 0xdfff < c.val.toNat ∧ c.val.toNat < 0x110000 := by
  rcases c.valid with h | h
  · exact .inl h
  · exact .inr ⟨h.1, h.2⟩

theorem decodeFront_encode (stray c : Char) (rest : List UInt8) :
    ∃ b bs, String.utf8EncodeChar c ++ rest = b :: (bs ++ rest) ∧
      decodeFront stray b (bs ++ rest) = (c, bs.length + 1) := by
  have hc : Char.ofNat c.val.toNat = c := Char.ofNat_toNat c
  have hvalid := toNat_val_cases c
  generalize hv : c.val.toNat = v at hc hvalid
  rw [String.utf8EncodeChar, hv]
  by_cases h1 : v ≤ 0x7f
  · refine ⟨UInt8.ofNat v, [], by simp [h1], ?_⟩
    have hlead : leadLength (UInt8.ofNat v) = 1 := by rw [leadLength_ofNat (by omega), if_pos (by omega)]
    simp [decodeFront, hlead, Nat.mod_eq_of_lt (show v < 256 by omega), hc]
  by_cases h2 : v ≤ 0x7ff
  · refine ⟨UInt8.ofNat (v / 64 % 32 + 0xc0), [UInt8.ofNat (v % 64 + 0x80)], by simp [h1, h2], ?_⟩
    have hlead : leadLength (UInt8.ofNat (v / 64 % 32 + 0xc0)) = 2 := by
      rw [leadLength_ofNat (by omega), if_neg (by omega), if_pos (by omega)]
    have hlow : (UInt8.ofNat (v / 64 % 32 + 0xc0) &&& 0x1f).toNat = v / 64 := by
      rw [and_toNat _ _ (k := 5) rfl, toNat_ofNat_of_lt (by omega)]
      omega
    have hnum : v / 64 * 64 + v % 64 = v := by omega
    simp only [decodeFront, hlead, List.cons_append, isContinuation_ofNat (show v % 64 < 64 by omega), hlow,
      payload_ofNat (show v % 64 < 64 by omega), hnum, hc]
    rfl
  by_cases h3 : v ≤ 0xffff
  · refine ⟨UInt8.ofNat (v / 4096 % 16 + 0xe0), [UInt8.ofNat (v / 64 % 64 + 0x80), UInt8.ofNat (v % 64 + 0x80)],
      by simp [h1, h2, h3], ?_⟩
    have hlead : leadLength (UInt8.ofNat (v / 4096 % 16 + 0xe0)) = 3 := by
      rw [leadLength_ofNat (by omega), if_neg (by omega), if_neg (by omega), if_pos (by omega)]
    have hlow : (UInt8.ofNat (v / 4096 % 16 + 0xe0) &&& 0x0f).toNat = v / 4096 := by
      rw [and_toNat _ _ (k := 4) rfl, toNat_ofNat_of_lt (by omega)]
      omega
    have hsecond : isSecondByte (UInt8.ofNat (v / 4096 % 16 + 0xe0)) (UInt8.ofNat (v / 64 % 64 + 0x80)) = true :=
      isSecondByte_ofNat (by omega) (by omega) (by omega) (by omega) (by omega) (by omega)
    have hnum : (v / 4096 * 64 + v / 64 % 64) * 64 + v % 64 = v := by omega
    simp only [decodeFront, hlead, List.cons_append, isContinuation_ofNat (show v % 64 < 64 by omega), hlow,
      hsecond, payload_ofNat (show v % 64 < 64 by omega), payload_ofNat (show v / 64 % 64 < 64 by omega), hnum, hc]
    rfl
  · refine ⟨UInt8.ofNat (v / 262144 % 8 + 0xf0),
      [UInt8.ofNat (v / 4096 % 64 + 0x80), UInt8.ofNat (v / 64 % 64 + 0x80), UInt8.ofNat (v % 64 + 0x80)],
      by simp [h1, h2, h3], ?_⟩
    have hlead : leadLength (UInt8.ofNat (v / 262144 % 8 + 0xf0)) = 4 := by
      rw [leadLength_ofNat (by omega), if_neg (by omega), if_neg (by omega), if_neg (by omega), if_pos (by omega)]
    have hlow : (UInt8.ofNat (v / 262144 % 8 + 0xf0) &&& 0x07).toNat = v / 262144 := by
      rw [and_toNat _ _ (k := 3) rfl, toNat_ofNat_of_lt (by omega)]
      omega
    have hsecond : isSecondByte (UInt8.ofNat (v / 262144 % 8 + 0xf0)) (UInt8.ofNat (v / 4096 % 64 + 0x80)) = true :=
      isSecondByte_ofNat (by omega) (by omega) (by omega) (by omega) (by omega) (by omega)
    have hnum : ((v / 262144 * 64 + v / 4096 % 64) * 64 + v / 64 % 64) * 64 + v % 64 = v := by omega
    simp only [decodeFront, hlead, List.cons_append, isContinuation_ofNat (show v % 64 < 64 by omega), hlow,
      isContinuation_ofNat (show v / 64 % 64 < 64 by omega), hsecond, payload_ofNat (show v % 64 < 64 by omega),
      payload_ofNat (show v / 64 % 64 < 64 by omega), payload_ofNat (show v / 4096 % 64 < 64 by omega), hnum, hc]
    rfl

theorem decodeChars_encode (stray : Char) (cs : List Char) :
    decodeChars stray (cs.flatMap String.utf8EncodeChar) = cs := by
  induction cs with
  | nil => simp [decodeChars]
  | cons c cs ih =>
    obtain ⟨b, bs, hbytes, hfront⟩ := decodeFront_encode stray c (cs.flatMap String.utf8EncodeChar)
    rw [List.flatMap_cons, hbytes, decodeChars, hfront]
    simp [ih]

theorem notMem_encode {b : UInt8} (hb : b.toNat < 128) {c : Char} (h : c.toNat ≠ b.toNat) :
    b ∉ String.utf8EncodeChar c := by
  have hv : c.val.toNat ≠ b.toNat := h
  have hvalid := toNat_val_cases c
  have hne : ∀ {n : Nat}, n < 256 → n ≠ b.toNat → b ≠ UInt8.ofNat n := by
    intro n hn hnb he
    have := congrArg UInt8.toNat he
    rw [toNat_ofNat_of_lt hn] at this
    exact hnb this.symm
  rw [String.utf8EncodeChar]
  split
  · simpa using hne (by omega) hv
  split
  · simp only [List.mem_cons, List.not_mem_nil, or_false, not_or]
    exact ⟨hne (by omega) (by omega), hne (by omega) (by omega)⟩
  split
  · simp only [List.mem_cons, List.not_mem_nil, or_false, not_or]
    exact ⟨hne (by omega) (by omega), hne (by omega) (by omega), hne (by omega) (by omega)⟩
  · simp only [List.mem_cons, List.not_mem_nil, or_false, not_or]
    exact ⟨hne (by omega) (by omega), hne (by omega) (by omega), hne (by omega) (by omega),
      hne (by omega) (by omega)⟩

theorem data_toUTF8_ofList (cs : List Char) :
    (String.ofList cs).toUTF8.data.toList = cs.flatMap String.utf8EncodeChar := by
  rw [String.toUTF8_eq_toByteArray, String.toByteArray_ofList, List.utf8Encode, List.data_toByteArray]

theorem decodeChars_toUTF8 (stray : Char) (cs : List Char) :
    decodeChars stray (String.ofList cs).toUTF8.data.toList = cs := by
  rw [data_toUTF8_ofList, decodeChars_encode]

theorem fromUTF8?_toUTF8 (s : String) : String.fromUTF8? s.toUTF8 = some s := dif_pos s.isValidUTF8

theorem toUTF8_of_fromUTF8? {b : ByteArray} {s : String} (h : String.fromUTF8? b = some s) : s.toUTF8 = b := by
  unfold String.fromUTF8? at h
  split at h
  · rw [← Option.some.inj h]
    rfl
  · cases h

theorem notMem_toUTF8 {b : UInt8} (hb : b.toNat < 128) {cs : List Char} (h : ∀ c ∈ cs, c.toNat ≠ b.toNat) :
    b ∉ (String.ofList cs).toUTF8.data.toList := by
  rw [data_toUTF8_ofList, List.mem_flatMap]
  rintro ⟨c, hc, hmem⟩
  exact notMem_encode hb (h c hc) hmem

theorem data_toUTF8 (s : String) : s.toUTF8.data.toList = s.toList.flatMap String.utf8EncodeChar := by
  rw [← data_toUTF8_ofList, String.ofList_toList]

theorem exists_append_of_notMem {α : Type} {m : α} {front rest x y : List α} (hfront : m ∉ front)
    (h : front ++ rest = x ++ m :: y) : ∃ e, x = front ++ e ∧ rest = e ++ m :: y := by
  rcases List.append_eq_append_iff.1 h with ⟨e, rfl, he⟩ | ⟨e, rfl, he⟩
  · exact ⟨e, rfl, he⟩
  · cases e with
    | nil => exact ⟨[], by simp, by simpa using he.symm⟩
    | cons b e =>
      obtain ⟨rfl, -⟩ := List.cons.inj he
      exact absurd (by simp) hfront

theorem eq_append_of_encode_zero {cs : List Char} {x y : List UInt8}
    (h : cs.flatMap String.utf8EncodeChar = x ++ 0 :: y) :
    ∃ l r, cs = l ++ '\x00' :: r ∧ l.flatMap String.utf8EncodeChar = x ∧ r.flatMap String.utf8EncodeChar = y := by
  induction cs generalizing x with
  | nil => simp at h
  | cons c cs ih =>
    rw [List.flatMap_cons] at h
    by_cases hc : c = '\x00'
    · subst hc
      have hbytes : String.utf8EncodeChar '\x00' = [0] := by decide
      rw [hbytes, List.singleton_append] at h
      cases x with
      | nil => exact ⟨[], cs, rfl, rfl, (List.cons.inj h).2⟩
      | cons b x =>
        obtain ⟨rfl, hrest⟩ := List.cons.inj h
        obtain ⟨l, r, rfl, rfl, hr⟩ := ih hrest
        exact ⟨'\x00' :: l, r, rfl, by rw [List.flatMap_cons, hbytes, List.singleton_append], hr⟩
    · have hzero : (0 : UInt8) ∉ String.utf8EncodeChar c := by
        refine notMem_encode (by decide) fun h0 => hc ?_
        rw [← Char.ofNat_toNat c, h0]
        rfl
      obtain ⟨e, rfl, hrest⟩ := exists_append_of_notMem hzero h
      obtain ⟨l, r, rfl, rfl, hr⟩ := ih hrest
      exact ⟨c :: l, r, rfl, List.flatMap_cons, hr⟩

end TreeRepair.Text
