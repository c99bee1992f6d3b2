import TreeRepair.Text.Utf8

/-! Boundaries of a text on either side of an offset: the longest start of the text that ends at or before it,
and the shortest one that ends at or behind it. -/

set_option autoImplicit false

namespace TreeRepair.Text

variable {cs l r : List Char} {a b n : Nat}

theorem utf8ByteSize_eq (text : String) : text.utf8ByteSize = byteLength text.toList := by
  rw [← utf8ByteSize_ofList, String.ofList_toList]

theorem byteLength_concat (l : List Char) (c : Char) : byteLength (l ++ [c]) = byteLength l + c.utf8Size := by
  rw [byteLength_append, byteLength, byteLength, Nat.add_zero]

/-! ## The longest start within an offset -/

theorem takeBytes_isPrefix (cs : List Char) (n : Nat) : takeBytes cs n <+: cs := by
  induction cs generalizing n with
  | nil => exact List.nil_prefix
  | cons c cs ih =>
    rw [takeBytes]
    split
    · exact List.cons_prefix_cons.2 ⟨rfl, ih _⟩
    · exact List.nil_prefix

theorem byteLength_takeBytes_le (cs : List Char) (n : Nat) : byteLength (takeBytes cs n) ≤ n := by
  induction cs generalizing n with
  | nil => exact Nat.zero_le _
  | cons c cs ih =>
    rw [takeBytes]
    split
    · have hrest := ih (n - c.utf8Size)
      rw [byteLength]
      omega
    · exact Nat.zero_le _

theorem prefix_takeBytes (h : l <+: cs) (hl : byteLength l ≤ n) : l <+: takeBytes cs n := by
  induction cs generalizing l n with
  | nil => rwa [takeBytes]
  | cons c cs ih =>
    cases l with
    | nil => exact List.nil_prefix
    | cons d l =>
      obtain ⟨rfl, hrest⟩ := List.cons_prefix_cons.1 h
      rw [byteLength] at hl
      rw [takeBytes, if_pos (by omega)]
      exact List.cons_prefix_cons.2 ⟨rfl, ih hrest (by omega)⟩

theorem byteLength_le_of_isPrefix (h : l <+: cs) : byteLength l ≤ byteLength cs := by
  obtain ⟨r, rfl⟩ := h
  rw [byteLength_append]
  omega

theorem eq_of_isPrefix_of_byteLength (h : l <+: cs) (hlen : byteLength cs ≤ byteLength l) : l = cs := by
  obtain ⟨r, rfl⟩ := h
  cases r with
  | nil => rw [List.append_nil]
  | cons c r =>
    have hpos := c.utf8Size_pos
    rw [byteLength_append, byteLength] at hlen
    omega

theorem takeBytes_concat (l : List Char) (c : Char) (n : Nat) :
    takeBytes (l ++ [c]) n = if byteLength l + c.utf8Size ≤ n then l ++ [c] else takeBytes l n := by
  induction l generalizing n with
  | nil => simp [takeBytes, byteLength]
  | cons d l ih =>
    have hlen : byteLength (d :: l) = d.utf8Size + byteLength l := rfl
    rw [List.cons_append, takeBytes, takeBytes]
    by_cases hd : d.utf8Size ≤ n
    · rw [if_pos hd, if_pos hd, ih]
      split
      · rw [if_pos (by omega)]
      · rw [if_neg (by omega)]
    · rw [if_neg hd, if_neg hd, if_neg (by omega)]

theorem takeBytes_append (r : List Char) (h : n ≤ byteLength l) : takeBytes (l ++ r) n = takeBytes l n := by
  induction l generalizing n with
  | nil =>
    obtain rfl : n = 0 := Nat.le_zero.1 h
    cases r with
    | nil => rfl
    | cons c r =>
      have hfit : ¬ c.utf8Size ≤ 0 := Nat.not_le.2 c.utf8Size_pos
      simp only [List.nil_append, takeBytes, if_neg hfit]
  | cons d l ih =>
    rw [byteLength] at h
    simp only [List.cons_append, takeBytes]
    rw [ih (by omega)]

theorem takeBytes_append_of_le (r : List Char) (h : byteLength l ≤ n) :
    takeBytes (l ++ r) n = l ++ takeBytes r (n - byteLength l) := by
  induction l generalizing n with
  | nil => rfl
  | cons d l ih =>
    have hlen : byteLength (d :: l) = d.utf8Size + byteLength l := rfl
    rw [List.cons_append, takeBytes, if_pos (by omega), ih (by omega), hlen, Nat.sub_sub]
    rfl

/-! ## The shortest start that covers an offset -/

/-- The shortest start of the text of at least `n` bytes, the whole text if there is none. -/
def coverBytes : List Char → Nat → List Char
  | [], _ => []
  | c :: cs, n => if n = 0 then [] else c :: coverBytes cs (n - c.utf8Size)

theorem ceilBoundary_eq (cs : List Char) (n : Nat) : ceilBoundary cs n = byteLength (coverBytes cs n) := by
  induction cs generalizing n with
  | nil => rfl
  | cons c cs ih =>
    rw [ceilBoundary, coverBytes]
    split
    · rfl
    · rw [ih, byteLength]

theorem coverBytes_isPrefix (cs : List Char) (n : Nat) : coverBytes cs n <+: cs := by
  induction cs generalizing n with
  | nil => exact List.nil_prefix
  | cons c cs ih =>
    rw [coverBytes]
    split
    · exact List.nil_prefix
    · exact List.cons_prefix_cons.2 ⟨rfl, ih _⟩

theorem le_byteLength_coverBytes (h : n ≤ byteLength cs) : n ≤ byteLength (coverBytes cs n) := by
  induction cs generalizing n with
  | nil => exact h
  | cons c cs ih =>
    rw [byteLength] at h
    rw [coverBytes]
    split
    · omega
    · have hrest := ih (n := n - c.utf8Size) (by omega)
      rw [byteLength]
      omega

theorem coverBytes_prefix_of_le (h : l <+: cs) (hl : n ≤ byteLength l) : coverBytes cs n <+: l := by
  induction cs generalizing l n with
  | nil => exact List.nil_prefix
  | cons c cs ih =>
    rw [coverBytes]
    split
    · exact List.nil_prefix
    · cases l with
      | nil => exact absurd (Nat.le_zero.1 hl) ‹_›
      | cons d l =>
        obtain ⟨rfl, hrest⟩ := List.cons_prefix_cons.1 h
        rw [byteLength] at hl
        exact List.cons_prefix_cons.2 ⟨rfl, ih hrest (by omega)⟩

theorem coverBytes_concat (l : List Char) (c : Char) (n : Nat) :
    coverBytes (l ++ [c]) n = if n ≤ byteLength l then coverBytes l n else l ++ [c] := by
  induction l generalizing n with
  | nil => cases n <;> simp [coverBytes, byteLength]
  | cons d l ih =>
    have hlen : byteLength (d :: l) = d.utf8Size + byteLength l := rfl
    rw [List.cons_append, coverBytes, coverBytes]
    by_cases hn : n = 0
    · rw [if_pos hn, if_pos hn, if_pos (by omega)]
    · rw [if_neg hn, if_neg hn, ih]
      split
      · rw [if_pos (by omega)]
      · rw [if_neg (by omega)]

theorem coverBytes_append (r : List Char) (h : n ≤ byteLength l) : coverBytes (l ++ r) n = coverBytes l n := by
  induction l generalizing n with
  | nil =>
    obtain rfl : n = 0 := Nat.le_zero.1 h
    cases r <;> simp [coverBytes]
  | cons d l ih =>
    rw [byteLength] at h
    simp only [List.cons_append, coverBytes]
    rw [ih (by omega)]

theorem takeBytes_eq_self (l r : List Char) : takeBytes (l ++ r) (byteLength l) = l := by
  rw [takeBytes_append r (Nat.le_refl _)]
  exact eq_of_isPrefix_of_byteLength (takeBytes_isPrefix l _)
    (byteLength_le_of_isPrefix (prefix_takeBytes (List.prefix_refl l) (Nat.le_refl _)))

theorem coverBytes_eq_self (l r : List Char) : coverBytes (l ++ r) (byteLength l) = l := by
  rw [coverBytes_append r (Nat.le_refl _)]
  exact eq_of_isPrefix_of_byteLength (coverBytes_isPrefix l _) (le_byteLength_coverBytes (Nat.le_refl _))

theorem isPrefix_of_byteLength_le {m : List Char} (h : m <+: l ++ r) (hle : byteLength m ≤ byteLength l) : m <+: l :=
  takeBytes_eq_self l r ▸ prefix_takeBytes h hle

/-! ## Both sides of a range -/

theorem takeBytes_prefix_coverBytes (cs : List Char) (h : a ≤ b) : takeBytes cs a <+: coverBytes cs b := by
  induction cs generalizing a b with
  | nil => exact List.nil_prefix
  | cons c cs ih =>
    have hpos := c.utf8Size_pos
    rw [takeBytes]
    split
    · rw [coverBytes, if_neg (by omega)]
      exact List.cons_prefix_cons.2 ⟨rfl, ih (by omega)⟩
    · exact List.nil_prefix

theorem floorBoundary_le (cs : List Char) (n : Nat) : floorBoundary cs n ≤ n := byteLength_takeBytes_le cs n

theorem le_ceilBoundary (h : n ≤ byteLength cs) : n ≤ ceilBoundary cs n :=
  ceilBoundary_eq cs n ▸ le_byteLength_coverBytes h

theorem floorBoundary_mono (cs : List Char) (h : a ≤ b) : floorBoundary cs a ≤ floorBoundary cs b :=
  byteLength_le_of_isPrefix (prefix_takeBytes (takeBytes_isPrefix cs a) (Nat.le_trans (byteLength_takeBytes_le cs a) h))

theorem ceilBoundary_le_iff (l r : List Char) (hn : n ≤ byteLength (l ++ r)) :
    ceilBoundary (l ++ r) n ≤ byteLength l ↔ n ≤ byteLength l := by
  refine ⟨Nat.le_trans (le_ceilBoundary hn), fun h => ?_⟩
  rw [ceilBoundary_eq]
  exact byteLength_le_of_isPrefix (coverBytes_prefix_of_le (List.prefix_append l r) h)

/-! ## Slices -/

theorem slice?_append (l m r : List Char) : slice? (l ++ m ++ r) (byteLength l) (byteLength l + byteLength m) = some m := by
  rw [slice?, if_pos (Nat.le_add_right _ _), List.append_assoc, splitAt?_append]
  simp only [Nat.add_sub_cancel_left, splitAt?_append, Option.map_some]

end TreeRepair.Text
