/-!
Byte offsets into texts. A text is a list of characters, and an offset counts the bytes of their
UTF-8 forms; it is a boundary when it falls between two characters. `slice?` reads the characters
between two boundaries, and `sliceOrEmpty` the same of a string (`sliceOrEmpty_eq`);
`floorBoundary` and `ceilBoundary` move an offset to the nearest boundary on either side, and
`decodeChars` and `decodeLossy` read bytes that need not be UTF-8.
-/
namespace TreeRepair.Text

/-! ## Offsets and boundaries -/

/-- The number of bytes of a text. -/
def byteLength : List Char → Nat
  | [] => 0
  | c :: cs => c.utf8Size + byteLength cs

/-- Splits a text at a byte offset; nothing inside a character or past the end. -/
def splitAt? : List Char → Nat → Option (List Char × List Char)
  | cs, 0 => some ([], cs)
  | [], _ + 1 => none
  | c :: cs, n + 1 =>
    if c.utf8Size ≤ n + 1 then
      (splitAt? cs (n + 1 - c.utf8Size)).map fun (l, r) => (c :: l, r)
    else none

/-- Whether an offset lies between two characters or at an end of the text. -/
def isBoundary (cs : List Char) (n : Nat) : Bool := (splitAt? cs n).isSome

/-- The text between two boundaries in order; nothing for any other pair of offsets. -/
def slice? (cs : List Char) (a b : Nat) : Option (List Char) :=
  if a ≤ b then
    match splitAt? cs a with
    | none => none
    | some (_, r) => (splitAt? r (b - a)).map (·.1)
  else none

/-- The text between two offsets, empty when they do not delimit one. -/
def sliceOrEmpty (text : String) (a b : Nat) : String :=
  if h : String.Pos.Raw.IsValid text ⟨a⟩ ∧ String.Pos.Raw.IsValid text ⟨b⟩ then
    String.extract (String.Pos.mk ⟨a⟩ h.1) (String.Pos.mk ⟨b⟩ h.2)
  else ""

/-- The longest start of the text of at most `n` bytes. -/
def takeBytes : List Char → Nat → List Char
  | [], _ => []
  | c :: cs, n => if c.utf8Size ≤ n then c :: takeBytes cs (n - c.utf8Size) else []

/-- The last boundary that is not behind the offset. -/
def floorBoundary (cs : List Char) (n : Nat) : Nat := byteLength (takeBytes cs n)

/-- The first boundary that is not before the offset, the end of the text if there is none. -/
def ceilBoundary : List Char → Nat → Nat
  | [], _ => 0
  | c :: cs, n => if n = 0 then 0 else c.utf8Size + ceilBoundary cs (n - c.utf8Size)

/-! ### Splits and slices -/

/-- The bytes of a text are those of its characters. -/
theorem utf8ByteSize_ofList (cs : List Char) : (String.ofList cs).utf8ByteSize = byteLength cs := by
  induction cs with
  | nil => simp [byteLength]
  | cons c cs ih =>
    rw [String.ofList_cons, String.utf8ByteSize_append, String.utf8ByteSize_singleton, ih, byteLength]

/-- A text splits where its first part ends. -/
theorem splitAt?_append (l r : List Char) : splitAt? (l ++ r) (byteLength l) = some (l, r) := by
  induction l with
  | nil => simp [byteLength, splitAt?]
  | cons c l ih =>
    obtain ⟨k, hk⟩ : ∃ k, byteLength (c :: l) = k + 1 :=
      ⟨byteLength (c :: l) - 1, by have := c.utf8Size_pos; simp only [byteLength]; omega⟩
    have hsize : c.utf8Size ≤ k + 1 := by rw [← hk, byteLength]; omega
    have hrest : k + 1 - c.utf8Size = byteLength l := by rw [← hk, byteLength]; omega
    simp [hk, splitAt?, hsize, hrest, ih]

/-- The two parts of a split make up the text, and the first has the bytes asked for. -/
theorem eq_append_of_splitAt? {cs l r : List Char} {n : Nat} (h : splitAt? cs n = some (l, r)) :
    cs = l ++ r ∧ n = byteLength l := by
  fun_induction splitAt? cs n generalizing l with
  | case1 => simp_all [byteLength]
  | case2 => simp at h
  | case3 c cs n hsize ih =>
    obtain ⟨⟨l', r'⟩, hs, he⟩ := Option.map_eq_some_iff.1 h
    obtain ⟨rfl, rfl⟩ := Prod.mk.inj he
    obtain ⟨rfl, hn⟩ := ih hs
    exact ⟨rfl, by rw [byteLength]; omega⟩
  | case4 => simp at h

/-- An offset is valid in a text where its characters split. -/
theorem isValid_iff_splitAt? (text : String) (n : Nat) :
    String.Pos.Raw.IsValid text ⟨n⟩ ↔ ∃ l r, splitAt? text.toList n = some (l, r) := by
  rw [String.Pos.Raw.isValid_iff_exists_append]
  constructor
  · rintro ⟨s, t, rfl, hn⟩
    refine ⟨s.toList, t.toList, ?_⟩
    have hn : n = byteLength s.toList := by
      rw [← utf8ByteSize_ofList, String.ofList_toList]
      exact congrArg String.Pos.Raw.byteIdx hn
    rw [hn, String.toList_append, splitAt?_append]
  · rintro ⟨l, r, h⟩
    obtain ⟨hcs, rfl⟩ := eq_append_of_splitAt? h
    refine ⟨String.ofList l, String.ofList r, ?_, ?_⟩
    · rw [← String.ofList_append, ← hcs, String.ofList_toList]
    · rw [← utf8ByteSize_ofList]; rfl

/-- The bytes of two texts, one after the other. -/
theorem byteLength_append (l r : List Char) : byteLength (l ++ r) = byteLength l + byteLength r := by
  induction l with
  | nil => simp [byteLength]
  | cons c l ih => simp only [List.cons_append, byteLength, ih]; omega

/-- Of two starts of a text, the one with fewer bytes is a start of the other. -/
theorem exists_append_of_byteLength_le {l r l' r' : List Char} (he : l ++ r = l' ++ r')
    (h : byteLength l ≤ byteLength l') : ∃ m, l' = l ++ m ∧ r = m ++ r' := by
  rcases List.append_eq_append_iff.1 he with ⟨m, hm, hr⟩ | ⟨m, rfl, rfl⟩
  · exact ⟨m, hm, hr⟩
  · cases m with
    | nil => exact ⟨[], by simp, by simp⟩
    | cons c m =>
      have := c.utf8Size_pos
      simp only [byteLength_append, byteLength] at h
      omega

/-- Reading between two offsets is reading between two boundaries of the characters. -/
theorem sliceOrEmpty_eq (text : String) (a b : Nat) :
    sliceOrEmpty text a b = (slice? text.toList a b).elim "" String.ofList := by
  unfold sliceOrEmpty slice?
  split
  · rename_i h
    obtain ⟨l, r, ha⟩ := (isValid_iff_splitAt? text a).1 h.1
    obtain ⟨l', r', hb⟩ := (isValid_iff_splitAt? text b).1 h.2
    obtain ⟨hl, hal⟩ := eq_append_of_splitAt? ha
    obtain ⟨hl', hbl⟩ := eq_append_of_splitAt? hb
    rw [ha, ← String.toByteArray_inj, String.toByteArray_extract]
    by_cases hab : a ≤ b
    · obtain ⟨m, rfl, rfl⟩ := exists_append_of_byteLength_le (hl.symm.trans hl') (hal ▸ hbl ▸ hab)
      have hm : b - a = byteLength m := by rw [hbl, hal, byteLength_append]; omega
      have ht : text = String.ofList l ++ (String.ofList m ++ String.ofList r') := by
        rw [← String.ofList_append, ← String.ofList_append, ← hl, String.ofList_toList]
      have hla : a = (String.ofList l).toByteArray.size := by
        rw [String.size_toByteArray, utf8ByteSize_ofList, hal]
      have hmb : b = (String.ofList l).toByteArray.size + (String.ofList m).toByteArray.size := by
        rw [String.size_toByteArray, String.size_toByteArray, utf8ByteSize_ofList,
          utf8ByteSize_ofList, hbl, byteLength_append]
      simp only [hab, if_true, hm, splitAt?_append, Option.map_some, Option.elim_some]
      rw [ht, String.toByteArray_append, String.toByteArray_append, hla, hmb]
      have := @ByteArray.extract_append_size_add (String.ofList l).toByteArray
        ((String.ofList m).toByteArray ++ (String.ofList r').toByteArray) 0 (String.ofList m).toByteArray.size
      rw [Nat.add_zero] at this
      rw [this, ByteArray.extract_append_eq_left rfl]
    · simp only [hab, if_false, Option.elim_none]
      rw [ByteArray.extract_eq_empty_iff.2]
      · rfl
      · omega
  · rename_i h
    simp only [not_and, isValid_iff_splitAt?] at h
    by_cases hab : a ≤ b
    · cases ha : splitAt? text.toList a with
      | none => simp [hab]
      | some p =>
        obtain ⟨l, r⟩ := p
        cases hr : splitAt? r (b - a) with
        | none => simp [hab, hr]
        | some q =>
          obtain ⟨m, t⟩ := q
          obtain ⟨hl, hal⟩ := eq_append_of_splitAt? ha
          obtain ⟨rfl, hm⟩ := eq_append_of_splitAt? hr
          refine absurd ⟨l ++ m, t, ?_⟩ (h ⟨l, _, ha⟩)
          have : b = byteLength (l ++ m) := by rw [byteLength_append]; omega
          rw [this, hl, ← List.append_assoc, splitAt?_append]
    · simp [hab]
/-! ## Lossy decoding -/

/-- Whether a byte can continue a character that a byte `lead` opened, right behind it. -/
def isSecondByte (lead b : UInt8) : Bool :=
  if lead == 0xe0 then 0xa0 ≤ b && b ≤ 0xbf
  else if lead == 0xed then 0x80 ≤ b && b ≤ 0x9f
  else if lead == 0xf0 then 0x90 ≤ b && b ≤ 0xbf
  else if lead == 0xf4 then 0x80 ≤ b && b ≤ 0x8f
  else 0x80 ≤ b && b ≤ 0xbf

/-- Whether a byte is a continuation byte. -/
def isContinuation (b : UInt8) : Bool := 0x80 ≤ b && b ≤ 0xbf

/-- The number of bytes that a first byte asks for, zero if no character begins with it. -/
def leadLength (b : UInt8) : Nat :=
  if b < 0x80 then 1
  else if 0xc2 ≤ b && b ≤ 0xdf then 2
  else if 0xe0 ≤ b && b ≤ 0xef then 3
  else if 0xf0 ≤ b && b ≤ 0xf4 then 4
  else 0

/-- The six low bits of a continuation byte. -/
def payload (b : UInt8) : Nat := (b &&& 0x3f).toNat

/-- The replacement character. -/
def replacement : Char := Char.ofNat 0xfffd

/-- The character at the front of a byte string and how many bytes it takes. Bytes that form none
count as one `stray` for each longest start of a character. -/
def decodeFront (stray : Char) (b : UInt8) (rest : List UInt8) : Char × Nat :=
  match leadLength b, rest with
  | 1, _ => (Char.ofNat b.toNat, 1)
  | 2, c :: _ =>
    if isContinuation c then (Char.ofNat ((b &&& 0x1f).toNat * 64 + payload c), 2)
    else (stray, 1)
  | 3, c :: d :: _ =>
    if isSecondByte b c then
      if isContinuation d then
        (Char.ofNat (((b &&& 0x0f).toNat * 64 + payload c) * 64 + payload d), 3)
      else (stray, 2)
    else (stray, 1)
  | 3, [c] => (stray, if isSecondByte b c then 2 else 1)
  | 4, c :: d :: e :: _ =>
    if isSecondByte b c then
      if isContinuation d then
        if isContinuation e then
          (Char.ofNat ((((b &&& 0x07).toNat * 64 + payload c) * 64 + payload d) * 64 + payload e), 4)
        else (stray, 3)
      else (stray, 2)
    else (stray, 1)
  | 4, [c, d] =>
    (stray, if isSecondByte b c then (if isContinuation d then 3 else 2) else 1)
  | 4, [c] => (stray, if isSecondByte b c then 2 else 1)
  | _, _ => (stray, 1)

/-- Reads bytes as characters, with `stray` for what is not UTF-8. -/
def decodeChars (stray : Char) : List UInt8 → List Char
  | [] => []
  | b :: rest =>
    let (c, n) := decodeFront stray b rest
    c :: decodeChars stray (rest.drop (n - 1))
termination_by bytes => bytes.length
decreasing_by
  simp only [List.length_cons, List.length_drop]
  omega

/-- The text of a byte string: exact if it is UTF-8, with replacement characters otherwise. -/
def decodeLossy (bytes : ByteArray) : String :=
  match String.fromUTF8? bytes with
  | some s => s
  | none => String.ofList (decodeChars replacement bytes.data.toList)

end TreeRepair.Text
