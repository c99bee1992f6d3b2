import TreeRepair.Json.Reader
import TreeRepair.Proofs.Text.Decoding
import Mathlib.Algebra.Order.Ring.Nat

/-! Reading what has been written. The compact and the indented text of a value differ in blanks between
tokens only, and every text with blanks there reads back as the value, if it holds integers below 2^64
and no quotients. -/

set_option autoImplicit false

namespace TreeRepair.Json

/-! ## Values that are read exactly -/

mutual

/-- A value all of which a text tells. -/
def Exact : Json → Prop
  | .ratio _ _ => False
  | .other => False
  | .nat n => n < 2 ^ 64
  | .array items => ExactItems items
  | .object members => ExactMembers members
  | _ => True

/-- Values all of which a text tells. -/
def ExactItems : List Json → Prop
  | [] => True
  | v :: rest => Exact v ∧ ExactItems rest

/-- Members all of which a text tells. -/
def ExactMembers : List (String × Json) → Prop
  | [] => True
  | (_, v) :: rest => Exact v ∧ ExactMembers rest

end

mutual

/-- A value in which nothing is a quotient or stands for nothing. -/
def Legible : Json → Prop
  | .ratio _ _ => False
  | .other => False
  | .array items => LegibleItems items
  | .object members => LegibleMembers members
  | _ => True

/-- Values in which nothing is a quotient or stands for nothing. -/
def LegibleItems : List Json → Prop
  | [] => True
  | v :: rest => Legible v ∧ LegibleItems rest

/-- Members in which nothing is a quotient or stands for nothing. -/
def LegibleMembers : List (String × Json) → Prop
  | [] => True
  | (_, v) :: rest => Legible v ∧ LegibleMembers rest

end

mutual

/-- What is read of the text of a value: integers of more than 64 bits stand for nothing. -/
def recalled : Json → Json
  | .null => .null
  | .bool b => .bool b
  | .nat n => if n < 2 ^ 64 then .nat n else .other
  | .ratio n d => .ratio n d
  | .other => .other
  | .text s => .text s
  | .array items => .array (recalledItems items)
  | .object members => .object (recalledMembers members)

/-- What is read of the texts of values. -/
def recalledItems : List Json → List Json
  | [] => []
  | v :: rest => recalled v :: recalledItems rest

/-- What is read of the texts of members. -/
def recalledMembers : List (String × Json) → List (String × Json)
  | [] => []
  | (k, v) :: rest => (k, recalled v) :: recalledMembers rest

end

mutual

theorem Exact.recalled_eq : ∀ {v : Json}, v.Exact → v.Legible ∧ v.recalled = v
  | .null, _ => ⟨trivial, rfl⟩
  | .bool _, _ => ⟨trivial, rfl⟩
  | .nat _, h => ⟨trivial, if_pos h⟩
  | .ratio _ _, h => h.elim
  | .other, h => h.elim
  | .text _, _ => ⟨trivial, rfl⟩
  | .array _, h => (ExactItems.recalledItems_eq h).imp_right (congrArg Json.array)
  | .object _, h => (ExactMembers.recalledMembers_eq h).imp_right (congrArg Json.object)

theorem ExactItems.recalledItems_eq :
    ∀ {items : List Json}, ExactItems items → LegibleItems items ∧ recalledItems items = items
  | [], _ => ⟨trivial, rfl⟩
  | _ :: _, h => ⟨⟨h.1.recalled_eq.1, (ExactItems.recalledItems_eq h.2).1⟩,
      congrArg₂ List.cons h.1.recalled_eq.2 (ExactItems.recalledItems_eq h.2).2⟩

theorem ExactMembers.recalledMembers_eq :
    ∀ {members : List (String × Json)}, ExactMembers members → LegibleMembers members ∧ recalledMembers members = members
  | [], _ => ⟨trivial, rfl⟩
  | (k, _) :: _, h => ⟨⟨h.1.recalled_eq.1, (ExactMembers.recalledMembers_eq h.2).1⟩,
      congrArg₂ List.cons (congrArg (Prod.mk k) h.1.recalled_eq.2) (ExactMembers.recalledMembers_eq h.2).2⟩

end

theorem Exact.legible {v : Json} (h : v.Exact) : v.Legible := h.recalled_eq.1

/-! ## Texts with blanks -/

section Layout

variable (line : Nat → List Char) (gap : List Char)

mutual

/-- The text of a value with `line` in front of items, members and closing brackets, and `gap` behind
colons. -/
def laidOut (level : Nat) : Json → List Char
  | .array [] => ['[', ']']
  | .array (v :: rest) => '[' :: (laidItems (level + 1) (v :: rest) ++ line level ++ [']'])
  | .object [] => ['\x7b', '\x7d']
  | .object (m :: rest) => '\x7b' :: (laidMembers (level + 1) (m :: rest) ++ line level ++ ['\x7d'])
  | .null => compactChars .null
  | .bool b => compactChars (.bool b)
  | .nat n => compactChars (.nat n)
  | .ratio n d => compactChars (.ratio n d)
  | .other => compactChars .other
  | .text s => compactChars (.text s)

/-- The texts of values with commas in between. -/
def laidItems (level : Nat) : List Json → List Char
  | [] => []
  | [v] => line level ++ laidOut level v
  | v :: w :: rest => line level ++ laidOut level v ++ ',' :: laidItems level (w :: rest)

/-- The texts of members with commas in between. -/
def laidMembers (level : Nat) : List (String × Json) → List Char
  | [] => []
  | [(k, v)] => line level ++ quote k.toList ++ ':' :: (gap ++ laidOut level v)
  | (k, v) :: m :: rest =>
    line level ++ quote k.toList ++ ':' :: (gap ++ laidOut level v ++ ',' :: laidMembers level (m :: rest))

end

end Layout

mutual

theorem prettyChars_eq (level : Nat) : ∀ v : Json, prettyChars level v = laidOut newLine [' '] level v
  | .array [] => rfl
  | .array (v :: rest) => by rw [prettyChars, laidOut, prettyItems_eq]; simp
  | .object [] => rfl
  | .object (m :: rest) => by rw [prettyChars, laidOut, prettyMembers_eq]; simp
  | .null => rfl
  | .bool _ => rfl
  | .nat _ => rfl
  | .ratio _ _ => rfl
  | .other => rfl
  | .text _ => rfl

theorem prettyItems_eq (level : Nat) : ∀ items, prettyItems level items = laidItems newLine [' '] level items
  | [] => rfl
  | [v] => by rw [prettyItems, laidItems, prettyChars_eq]
  | v :: w :: rest => by
    rw [prettyItems, laidItems, prettyChars_eq, prettyItems_eq level (w :: rest)]
    simp

theorem prettyMembers_eq (level : Nat) :
    ∀ members, prettyMembers level members = laidMembers newLine [' '] level members
  | [] => rfl
  | [(k, v)] => by rw [prettyMembers, laidMembers, prettyChars_eq]; rfl
  | (k, v) :: m :: rest => by
    rw [prettyMembers, laidMembers, prettyChars_eq, prettyMembers_eq level (m :: rest)]
    · rfl
    · simp

end

mutual

theorem compactChars_eq (level : Nat) : ∀ v : Json, compactChars v = laidOut (fun _ => []) [] level v
  | .array [] => rfl
  | .array (v :: rest) => by rw [compactChars, laidOut, compactItems_eq (level + 1)]; simp
  | .object [] => rfl
  | .object (m :: rest) => by rw [compactChars, laidOut, compactMembers_eq (level + 1)]; simp
  | .null => rfl
  | .bool _ => rfl
  | .nat _ => rfl
  | .ratio _ _ => rfl
  | .other => rfl
  | .text _ => rfl

theorem compactItems_eq (level : Nat) : ∀ items, compactItems items = laidItems (fun _ => []) [] level items
  | [] => rfl
  | [v] => by rw [compactItems, laidItems, compactChars_eq level]; rfl
  | v :: w :: rest => by
    rw [compactItems, laidItems, compactChars_eq level, compactItems_eq level (w :: rest)]
    · rfl
    · simp

theorem compactMembers_eq (level : Nat) :
    ∀ members, compactMembers members = laidMembers (fun _ => []) [] level members
  | [] => rfl
  | [(k, v)] => by rw [compactMembers, laidMembers, compactChars_eq level]; rfl
  | (k, v) :: m :: rest => by
    rw [compactMembers, laidMembers, compactChars_eq level, compactMembers_eq level (m :: rest)]
    · rfl
    · simp

end

/-! ## Strings -/

theorem hexValue?_hexDigit : ∀ n, n < 16 → hexValue? (Digest.hexDigit n) = some n := by decide

theorem hex4?_of_lt {n : Nat} (h : n < 256) :
    hex4? '0' '0' (Digest.hexDigit (n / 16)) (Digest.hexDigit (n % 16)) = some n := by
  have h1 := hexValue?_hexDigit (n / 16) (by omega)
  have h2 := hexValue?_hexDigit (n % 16) (by omega)
  have h0 : hexValue? '0' = some 0 := rfl
  simp only [hex4?, h0, h1, h2, Option.bind_eq_bind, Option.bind_some, Option.pure_def, Option.some.injEq]
  omega

theorem readUnits_escape (c : Char) (rest : List Char) :
    ∃ u, readUnits (escape c ++ rest) = (readUnits rest).map (fun (us, r) => (u :: us, r)) ∧
      ∀ us, joinUnits (u :: us) = (joinUnits us).map (c :: ·) := by
  have hc : Char.ofNat c.toNat = c := Char.ofNat_toNat c
  have hplain : ∀ us, joinUnits (.plain c :: us) = (joinUnits us).map (c :: ·) := fun us => by rw [joinUnits]
  unfold escape
  split
  · exact ⟨.plain c, by simp_all [readUnits, simpleEscape?], hplain⟩
  split
  · exact ⟨.plain c, by simp_all [readUnits, simpleEscape?], hplain⟩
  split
  · exact ⟨.plain c, by simp_all [readUnits, simpleEscape?], hplain⟩
  split
  · exact ⟨.plain c, by simp_all [readUnits, simpleEscape?], hplain⟩
  split
  · exact ⟨.plain c, by simp_all [readUnits, simpleEscape?], hplain⟩
  split
  · rename_i h
    rw [h] at hc
    exact ⟨.plain c, by simp [readUnits, simpleEscape?, ← hc], hplain⟩
  split
  · rename_i h
    rw [h] at hc
    exact ⟨.plain c, by simp [readUnits, simpleEscape?, ← hc], hplain⟩
  split
  · rename_i h
    refine ⟨.escaped c.toNat, ?_, fun us => ?_⟩
    · simp only [List.cons_append, List.nil_append, readUnits, hex4?_of_lt (show c.toNat < 256 by omega)]
    · conv => lhs; unfold joinUnits
      simp only [if_neg (show ¬ (0xdc00 ≤ c.toNat ∧ c.toNat ≤ 0xdfff) by omega),
        if_neg (show ¬ (0xd800 ≤ c.toNat ∧ c.toNat ≤ 0xdbff) by omega), hc]
  · rename_i hq hb _ _ _ _ _ hsmall
    refine ⟨.plain c, ?_, hplain⟩
    have hstray : c ≠ strayBytes := by
      rintro rfl
      exact hsmall (by decide)
    rw [List.singleton_append, readUnits]
    · simp [hstray, hsmall, hb]
    · intro h
      exact hq h
    · intro _ _ _ _ _ h
      exact absurd h hb
    · intro _ _ h
      exact absurd h hb

theorem readUnits_quoted (cs rest : List Char) :
    ∃ us, readUnits (cs.flatMap escape ++ '"' :: rest) = some (us, rest) ∧ joinUnits us = some cs := by
  induction cs with
  | nil => exact ⟨[], by simp [readUnits], by simp [joinUnits]⟩
  | cons c cs ih =>
    obtain ⟨us, hus, hjoin⟩ := ih
    obtain ⟨u, hu, hju⟩ := readUnits_escape c (cs.flatMap escape ++ '"' :: rest)
    refine ⟨u :: us, ?_, by rw [hju, hjoin]; rfl⟩
    rw [List.flatMap_cons, List.append_assoc, hu, hus]
    rfl

/-! ## Numbers -/

/-- A text that does not go on with a number. -/
def EndsNumber (rest : List Char) : Prop :=
  ∀ c r, rest = c :: r → isDigit c = false ∧ c ≠ '.' ∧ c ≠ 'e' ∧ c ≠ 'E'

theorem isDigit_of_mem_digits {n : Nat} {c : Char} (h : c ∈ Text.digits n) : isDigit c = true := by
  have := Nat.isDigit_of_mem_toDigits (by decide) (by decide) h
  rw [Char.isDigit, Bool.and_eq_true, decide_eq_true_eq, decide_eq_true_eq] at this
  rw [isDigit, Bool.and_eq_true, decide_eq_true_eq, decide_eq_true_eq]
  exact this

theorem head?_digits {n : Nat} (h : 10 ≤ n) : (Text.digits n).head? ≠ some '0' := by
  induction n using Nat.strongRecOn with
  | ind n ih =>
    rw [Text.digits, Nat.toDigits_of_base_le (by decide) h]
    by_cases hn : n / 10 < 10
    · rw [Nat.toDigits_of_lt_base hn]
      simp
      omega
    · have := ih (n / 10) (by omega) (by omega)
      rw [Text.digits] at this
      rwa [List.head?_append, Option.or_of_isSome (by simp [List.isSome_head?, Nat.toDigits_ne_nil])]

theorem takeWhile_digits {ds rest : List Char} (hd : ∀ c ∈ ds, isDigit c = true) (hr : EndsNumber rest) :
    (ds ++ rest).takeWhile isDigit = ds ∧ (ds ++ rest).dropWhile isDigit = rest := by
  induction ds with
  | nil =>
    cases rest with
    | nil => simp
    | cons c r => simp [(hr c r rfl).1]
  | cons d ds ih =>
    have hdd := hd d (List.mem_cons_self ..)
    obtain ⟨h1, h2⟩ := ih fun c hc => hd c (List.mem_cons_of_mem d hc)
    simp [hdd, h1, h2]

theorem ofDigits_digits (n : Nat) : ofDigits (Text.digits n) = n := by
  have h := Nat.ofDigitChars_ten_toDigits (n := n)
  rw [Nat.ofDigitChars_eq_foldl] at h
  rw [ofDigits, Text.digits]
  simpa [Nat.mul_comm] using h

theorem readUnsigned_digits (n : Nat) {rest : List Char} (hr : EndsNumber rest) :
    readUnsigned false (Text.digits n ++ rest) = some (recalled (.nat n), rest) := by
  have hdigits : ∀ c ∈ Text.digits n, isDigit c = true := fun c hc => isDigit_of_mem_digits hc
  obtain ⟨h1, h2⟩ := takeWhile_digits hdigits hr
  have hne : Text.digits n ≠ [] := Nat.toDigits_ne_nil
  have hzero : ¬ ((Text.digits n).isEmpty || ((Text.digits n).length > 1 && (Text.digits n).head? == some '0')) = true := by
    by_cases h10 : n < 10
    · have : Text.digits n = [n.digitChar] := Nat.toDigits_of_lt_base h10
      simp [this]
    · simp [hne, head?_digits (show 10 ≤ n by omega)]
  have hfraction : skipFraction? rest = some (rest, false) := by
    unfold skipFraction?
    split
    · exact absurd rfl (hr _ _ rfl).2.1
    · rfl
  have hexponent : skipExponent? rest = some (rest, false) := by
    unfold skipExponent?
    split
    · rename_i e r
      obtain ⟨-, -, he, hE⟩ := hr e r rfl
      rw [if_neg (by simp [he, hE])]
    · rfl
  unfold readUnsigned
  simp only [h1, h2]
  rw [if_neg hzero]
  rw [recalled, hfraction, Option.bind_eq_bind, Option.bind_some, hexponent, Option.bind_some, ofDigits_digits]
  by_cases hn : n < 18446744073709551616
  · simp [hn, Nat.not_le.2 hn]
  · simp [hn, Nat.not_lt.1 hn]

/-! ## Values -/

/-- Blanks between tokens. -/
def Blank (cs : List Char) : Prop := ∀ c ∈ cs, isSpace c = true

theorem skipSpace_blank {b : List Char} (hb : Blank b) (rest : List Char) : skipSpace (b ++ rest) = skipSpace rest :=
  List.dropWhile_append_of_pos hb

theorem skipSpace_cons {c : Char} (hc : isSpace c = false) (rest : List Char) :
    skipSpace (c :: rest) = c :: rest := by
  simp [skipSpace, hc]

section Layout

variable {line : Nat → List Char} {gap : List Char}

theorem laidOut_head (line : Nat → List Char) (gap : List Char) (level : Nat) {v : Json} (hv : v.Legible) :
    ∃ c r, laidOut line gap level v = c :: r ∧ isSpace c = false ∧ c ≠ ']' := by
  cases v with
  | null => exact ⟨'n', _, rfl, rfl, by decide⟩
  | bool b => cases b <;> exact ⟨_, _, rfl, rfl, by decide⟩
  | nat n =>
    obtain ⟨d, ds, hd⟩ := List.exists_cons_of_ne_nil (Nat.toDigits_ne_nil (n := n) (b := 10))
    have hdigit : isDigit d = true := isDigit_of_mem_digits (n := n) (by rw [Text.digits, hd]; simp)
    refine ⟨d, ds, by rw [laidOut, compactChars, Text.digits, hd], ?_, ?_⟩
    · by_contra hs
      simp only [isSpace, Bool.not_eq_false, Bool.or_eq_true, beq_iff_eq] at hs
      rcases hs with ((rfl | rfl) | rfl) | rfl <;> exact absurd hdigit (by decide)
    · rintro rfl
      exact absurd hdigit (by decide)
  | ratio a b => exact hv.elim
  | other => exact hv.elim
  | text s => exact ⟨'"', _, rfl, rfl, by decide⟩
  | array items => cases items <;> exact ⟨'[', _, rfl, rfl, by decide⟩
  | object members => cases members <;> exact ⟨'\x7b', _, rfl, rfl, by decide⟩

theorem laidItems_head (gap : List Char) (level : Nat) {items : List Json} (hv : LegibleItems items) (hne : items ≠ [])
    (hl : Blank (line level)) (rest : List Char) :
    ∃ c r, skipSpace (laidItems line gap level items ++ rest) = c :: r ∧ c ≠ ']' := by
  obtain ⟨v, vs, rfl⟩ := List.exists_cons_of_ne_nil hne
  obtain ⟨c, r, hc, hs, hb⟩ := laidOut_head line gap level hv.1
  cases vs with
  | nil => exact ⟨c, r ++ rest, by simp [laidItems, skipSpace_blank hl, hc, skipSpace_cons hs], hb⟩
  | cons w ws =>
    refine ⟨c, r ++ (',' :: laidItems line gap level (w :: ws) ++ rest), ?_, hb⟩
    simp [laidItems, skipSpace_blank hl, hc, skipSpace_cons hs]

theorem laidMembers_head (gap : List Char) (level : Nat) (members : List (String × Json)) (hne : members ≠ [])
    (hl : Blank (line level)) (rest : List Char) :
    ∃ r, skipSpace (laidMembers line gap level members ++ rest) = '"' :: r := by
  obtain ⟨⟨k, v⟩, ms, rfl⟩ := List.exists_cons_of_ne_nil hne
  have hs : isSpace '"' = false := rfl
  cases ms <;> simp [laidMembers, quote, skipSpace_blank hl, skipSpace_cons hs]

theorem ofMembers_texts (members : List (String × Json)) :
    ofMembers (members.map fun m => (.text m.1, m.2)) = .object members := by
  have hmap : ∀ f : Json × Json → Option (String × Json), (∀ k v, f (.text k, v) = some (k, v)) →
      ∀ ms : List (String × Json), (ms.map fun m => ((.text m.1 : Json), m.2)).mapM f = some ms := by
    intro f hf ms
    induction ms with
    | nil => rfl
    | cons m ms ih => simp [ih, hf]
  rw [ofMembers, hmap _ fun _ _ => rfl]

theorem endsNumber_blank {b : List Char} (hb : Blank b) {c : Char} (hc : isDigit c = false ∧ c ≠ '.' ∧ c ≠ 'e' ∧ c ≠ 'E')
    (rest : List Char) : EndsNumber (b ++ c :: rest) := by
  intro d r hd
  cases b with
  | nil =>
    obtain ⟨rfl, -⟩ := List.cons.inj hd
    exact hc
  | cons e es =>
    obtain ⟨rfl, -⟩ := List.cons.inj hd
    have hs := hb e (List.mem_cons_self ..)
    simp only [isSpace, Bool.or_eq_true, beq_iff_eq] at hs
    rcases hs with ((rfl | rfl) | rfl) | rfl <;> decide

mutual

/-- The text of a value reads back, whatever follows that does not continue a number. -/
theorem readValue_laidOut (hl : ∀ level, Blank (line level)) (hg : Blank gap) :
    ∀ (v : Json) (level fuel : Nat) (rest : List Char), v.Legible → EndsNumber rest →
    2 * (laidOut line gap level v).length ≤ fuel + 2 →
    readValue (fuel + 1) (laidOut line gap level v ++ rest) = some (v.recalled, rest)
  | .null, level, fuel, rest, _, _, _ => by simp [laidOut, compactChars, readValue, recalled]
  | .bool true, level, fuel, rest, _, _, _ => by simp [laidOut, compactChars, readValue, recalled]
  | .bool false, level, fuel, rest, _, _, _ => by simp [laidOut, compactChars, readValue, recalled]
  | .nat n, level, fuel, rest, hv, hr, hf => by
    obtain ⟨d, ds, hd⟩ := List.exists_cons_of_ne_nil (Nat.toDigits_ne_nil (n := n) (b := 10))
    have hdigit : isDigit d = true := isDigit_of_mem_digits (n := n) (by rw [Text.digits, hd]; simp)
    have hread := readUnsigned_digits n hr
    rw [Text.digits, hd, List.cons_append] at hread
    rw [laidOut, compactChars, Text.digits, hd, List.cons_append, readValue]
    · rw [if_neg (by rintro rfl; exact absurd hdigit (by decide)), if_pos hdigit, hread]
    all_goals
      intros
      subst d
      exact absurd hdigit (by decide)
  | .ratio _ _, _, _, _, hv, _, _ => hv.elim
  | .other, _, _, _, hv, _, _ => hv.elim
  | .text s, level, fuel, rest, _, _, hf => by
    obtain ⟨us, hus, hjoin⟩ := readUnits_quoted s.toList rest
    simp [laidOut, compactChars, quote, readValue, hus, ofUnits, hjoin, recalled]
  | .array [], level, fuel, rest, _, _, hf => by
    simp [laidOut, readValue, skipSpace, isSpace, recalled, recalledItems]
  | .array (v :: vs), level, fuel, rest, hv, _, hf => by
    have hitems := readItems_laidItems hl hg (v :: vs) (level + 1) fuel (line level) rest hv (by simp) (hl level)
      (by simp [laidOut] at hf; omega)
    obtain ⟨c, r, hc, hb⟩ :=
      laidItems_head gap (level + 1) hv (by simp) (hl (level + 1)) (line level ++ ']' :: rest)
    rw [hc] at hitems
    rw [laidOut, List.cons_append, List.append_assoc, List.append_assoc, List.singleton_append, readValue, hc]
    split
    · rename_i heq
      exact absurd (List.cons.inj heq).1 hb
    · rw [hitems]
      rfl
  | .object [], level, fuel, rest, _, _, hf => by
    simp [laidOut, readValue, skipSpace, isSpace, recalled, recalledMembers]
  | .object (m :: ms), level, fuel, rest, hv, _, hf => by
    have hmembers := readMembers_laidMembers hl hg (m :: ms) (level + 1) fuel (line level) rest hv (by simp) (hl level)
      (by simp [laidOut] at hf; omega)
    obtain ⟨r, hr⟩ := laidMembers_head gap (level + 1) (m :: ms) (by simp) (hl (level + 1))
      (line level ++ '\x7d' :: rest)
    rw [hr] at hmembers
    rw [laidOut, List.cons_append, List.append_assoc, List.append_assoc, List.singleton_append, readValue]
    · rw [if_pos rfl, hr]
      simp only [if_neg (show ¬ '"' = '\x7d' by decide), hmembers, Option.map_some, ofMembers_texts, recalled]
    all_goals
      intros
      simp_all

theorem readItems_laidItems (hl : ∀ level, Blank (line level)) (hg : Blank gap) :
    ∀ (items : List Json) (level fuel : Nat) (b rest : List Char), LegibleItems items →
    items ≠ [] → Blank b → 2 * (laidItems line gap level items).length ≤ fuel →
    readItems fuel (skipSpace (laidItems line gap level items ++ (b ++ ']' :: rest))) = some (recalledItems items, rest)
  | [], _, _, _, _, _, hne, _, _ => absurd rfl hne
  | [v], level, fuel, b, rest, hv, _, hb, hf => by
    obtain ⟨c, r, hc, hs, -⟩ := laidOut_head line gap level hv.1
    obtain ⟨f, rfl⟩ : ∃ f, fuel = f + 2 := ⟨fuel - 2, by simp [laidItems, hc] at hf; omega⟩
    have hread := readValue_laidOut hl hg v level f (b ++ ']' :: rest) hv.1 (endsNumber_blank hb (by decide) rest)
      (by simp [laidItems] at hf; omega)
    rw [laidItems, List.append_assoc, skipSpace_blank (hl level)]
    rw [hc, List.cons_append] at hread ⊢
    rw [skipSpace_cons hs, readItems, hread]
    simp [skipSpace_blank hb, skipSpace_cons (show isSpace ']' = false from rfl), recalledItems]
  | v :: w :: vs, level, fuel, b, rest, hv, _, hb, hf => by
    obtain ⟨c, r, hc, hs, -⟩ := laidOut_head line gap level hv.1
    obtain ⟨f, rfl⟩ : ∃ f, fuel = f + 2 := ⟨fuel - 2, by simp [laidItems, hc] at hf; omega⟩
    have hread := readValue_laidOut hl hg v level f (',' :: (laidItems line gap level (w :: vs) ++ (b ++ ']' :: rest))) hv.1
      (endsNumber_blank (b := []) (by simp [Blank]) (by decide) _) (by simp [laidItems] at hf; omega)
    have hrest := readItems_laidItems hl hg (w :: vs) level (f + 1) b rest hv.2 (by simp) hb
      (by simp [laidItems] at hf ⊢; omega)
    rw [laidItems, List.append_assoc, List.append_assoc, skipSpace_blank (hl level)]
    rw [hc, List.cons_append] at hread ⊢
    rw [skipSpace_cons hs, List.cons_append, readItems, hread]
    simp only [skipSpace_cons (show isSpace ',' = false from rfl), hrest, Option.map_some, recalledItems]

theorem readMembers_laidMembers (hl : ∀ level, Blank (line level)) (hg : Blank gap) :
    ∀ (members : List (String × Json)) (level fuel : Nat) (b rest : List Char),
    LegibleMembers members → members ≠ [] → Blank b → 2 * (laidMembers line gap level members).length ≤ fuel →
    readMembers fuel (skipSpace (laidMembers line gap level members ++ (b ++ '\x7d' :: rest))) =
      some ((recalledMembers members).map (fun m => (.text m.1, m.2)), rest)
  | [], _, _, _, _, _, hne, _, _ => absurd rfl hne
  | [(k, v)], level, fuel, b, rest, hv, _, hb, hf => by
    obtain ⟨c, r, hc, hs, -⟩ := laidOut_head line gap level hv.1
    obtain ⟨f, rfl⟩ : ∃ f, fuel = f + 2 := ⟨fuel - 2, by simp [laidMembers, hc] at hf; omega⟩
    have hread := readValue_laidOut hl hg v level f (b ++ '\x7d' :: rest) hv.1 (endsNumber_blank hb (by decide) rest)
      (by simp [laidMembers] at hf; omega)
    obtain ⟨us, hus, hjoin⟩ :=
      readUnits_quoted k.toList (':' :: (gap ++ (laidOut line gap level v ++ (b ++ '\x7d' :: rest))))
    rw [hc, List.cons_append] at hread hus
    simp only [laidMembers, quote, List.append_assoc, skipSpace_blank (hl level), List.cons_append,
      skipSpace_cons (show isSpace '"' = false from rfl), List.nil_append, hc]
    rw [readMembers, hus]
    simp only [skipSpace_cons (show isSpace ':' = false from rfl), skipSpace_blank hg, skipSpace_cons hs, hread,
      skipSpace_blank hb, skipSpace_cons (show isSpace '\x7d' = false from rfl), ofUnits, hjoin,
      String.ofList_toList, recalledMembers, List.map_cons, List.map_nil]
    rfl
  | (k, v) :: m :: ms, level, fuel, b, rest, hv, _, hb, hf => by
    obtain ⟨c, r, hc, hs, -⟩ := laidOut_head line gap level hv.1
    obtain ⟨f, rfl⟩ : ∃ f, fuel = f + 2 := ⟨fuel - 2, by simp [laidMembers, hc] at hf; omega⟩
    have hread := readValue_laidOut hl hg v level f
      (',' :: (laidMembers line gap level (m :: ms) ++ (b ++ '\x7d' :: rest))) hv.1
      (endsNumber_blank (b := []) (by simp [Blank]) (by decide) _) (by simp [laidMembers] at hf; omega)
    have hrest := readMembers_laidMembers hl hg (m :: ms) level (f + 1) b rest hv.2 (by simp) hb
      (by simp [laidMembers] at hf ⊢; omega)
    obtain ⟨us, hus, hjoin⟩ := readUnits_quoted k.toList (':' :: (gap ++ (laidOut line gap level v ++
      (',' :: (laidMembers line gap level (m :: ms) ++ (b ++ '\x7d' :: rest))))))
    rw [hc, List.cons_append] at hread hus
    simp only [laidMembers, quote, List.append_assoc, skipSpace_blank (hl level), List.cons_append,
      skipSpace_cons (show isSpace '"' = false from rfl), List.nil_append, hc]
    rw [readMembers, hus]
    simp only [skipSpace_cons (show isSpace ':' = false from rfl), skipSpace_blank hg, skipSpace_cons hs, hread,
      skipSpace_cons (show isSpace ',' = false from rfl), hrest, ofUnits, hjoin, String.ofList_toList,
      recalledMembers, List.map_cons, Option.map_some]

end

theorem readAll_laidOut (hl : ∀ level, Blank (line level)) (hg : Blank gap) {v : Json} (hv : v.Legible) :
    readAll (laidOut line gap 0 v) = some v.recalled := by
  obtain ⟨c, r, hc, hs, -⟩ := laidOut_head line gap 0 hv
  have hread := readValue_laidOut hl hg v 0 (2 * (laidOut line gap 0 v).length) [] hv
    (fun _ _ h => absurd h (by simp)) (by omega)
  rw [List.append_nil] at hread
  have hskip : skipSpace (laidOut line gap 0 v) = laidOut line gap 0 v := by rw [hc, skipSpace_cons hs]
  rw [readAll, hskip, hread]
  simp [skipSpace]

end Layout

/-! ## Texts and bytes -/

theorem le_of_all {l : List Char} (h : (l.all fun c => 32 ≤ c.toNat) = true) : ∀ c ∈ l, 32 ≤ c.toNat := by
  intro c hc
  simpa using List.all_eq_true.1 h c hc

theorem le_of_mem_escape {c d : Char} (h : d ∈ escape c) : 32 ≤ d.toNat := by
  by_cases hc : c.toNat < 32
  · have hsmall : ∀ n, n < 32 → ((escape (Char.ofNat n)).all fun d => 32 ≤ d.toNat) = true := by decide
    refine le_of_all (hsmall c.toNat hc) d ?_
    rwa [Char.ofNat_toNat]
  · unfold escape at h
    split at h
    · exact le_of_all (by decide) d h
    split at h
    · exact le_of_all (by decide) d h
    rw [if_neg (by rintro rfl; exact hc (by decide)), if_neg (by rintro rfl; exact hc (by decide)),
      if_neg (by rintro rfl; exact hc (by decide)), if_neg (by omega), if_neg (by omega),
      List.mem_singleton] at h
    subst h
    omega

section Layout

variable {line : Nat → List Char} {gap : List Char} {P : Char → Prop}

theorem forall_mem_quote (hP : ∀ c, 32 ≤ c.toNat → P c) (cs : List Char) : ∀ c ∈ quote cs, P c := by
  intro c hc
  refine hP c ?_
  rw [quote, List.mem_cons, List.mem_append, List.mem_flatMap, List.mem_singleton] at hc
  rcases hc with rfl | ⟨d, -, hd⟩ | rfl
  · decide
  · exact le_of_mem_escape hd
  · decide

mutual

/-- What holds of all characters but control characters, and of the blanks, holds of all characters of
a text. -/
theorem forall_mem_laidOut (hP : ∀ c, 32 ≤ c.toNat → P c) (hl : ∀ level, ∀ c ∈ line level, P c)
    (hg : ∀ c ∈ gap, P c) : ∀ (v : Json) (level : Nat), v.Legible → ∀ c ∈ laidOut line gap level v, P c
  | .null, _, _ => fun c hc => hP c (le_of_all (l := compactChars .null) (by decide) c hc)
  | .bool true, _, _ => fun c hc => hP c (le_of_all (l := compactChars (.bool true)) (by decide) c hc)
  | .bool false, _, _ => fun c hc => hP c (le_of_all (l := compactChars (.bool false)) (by decide) c hc)
  | .nat n, _, _ => by
    intro c hc
    rw [laidOut, compactChars] at hc
    have hdigit := isDigit_of_mem_digits hc
    rw [isDigit, Bool.and_eq_true, decide_eq_true_eq, decide_eq_true_eq] at hdigit
    exact hP c (Nat.le_trans (by decide) hdigit.1)
  | .ratio _ _, _, hv => hv.elim
  | .other, _, hv => hv.elim
  | .text s, _, _ => by
    rw [laidOut, compactChars]
    exact forall_mem_quote hP _
  | .array [], _, _ => fun c hc => hP c (le_of_all (l := ['[', ']']) (by decide) c hc)
  | .array (v :: vs), level, hv => by
    have hitems := forall_mem_laidItems hP hl hg (v :: vs) (level + 1) hv
    simp only [laidOut, List.forall_mem_cons, List.forall_mem_append]
    exact ⟨hP _ (by decide), ⟨hitems, hl level⟩, hP _ (by decide), by simp⟩
  | .object [], _, _ => fun c hc => hP c (le_of_all (l := ['\x7b', '\x7d']) (by decide) c hc)
  | .object (m :: ms), level, hv => by
    have hmembers := forall_mem_laidMembers hP hl hg (m :: ms) (level + 1) hv
    simp only [laidOut, List.forall_mem_cons, List.forall_mem_append]
    exact ⟨hP _ (by decide), ⟨hmembers, hl level⟩, hP _ (by decide), by simp⟩

theorem forall_mem_laidItems (hP : ∀ c, 32 ≤ c.toNat → P c) (hl : ∀ level, ∀ c ∈ line level, P c)
    (hg : ∀ c ∈ gap, P c) :
    ∀ (items : List Json) (level : Nat), LegibleItems items → ∀ c ∈ laidItems line gap level items, P c
  | [], _, _ => by simp [laidItems]
  | [v], level, hv => by
    have hval := forall_mem_laidOut hP hl hg v level hv.1
    simp only [laidItems, List.forall_mem_append]
    exact ⟨hl level, hval⟩
  | v :: w :: vs, level, hv => by
    have hval := forall_mem_laidOut hP hl hg v level hv.1
    have hrest := forall_mem_laidItems hP hl hg (w :: vs) level hv.2
    simp only [laidItems, List.forall_mem_cons, List.forall_mem_append]
    exact ⟨⟨hl level, hval⟩, hP _ (by decide), hrest⟩

theorem forall_mem_laidMembers (hP : ∀ c, 32 ≤ c.toNat → P c) (hl : ∀ level, ∀ c ∈ line level, P c)
    (hg : ∀ c ∈ gap, P c) :
    ∀ (members : List (String × Json)) (level : Nat), LegibleMembers members →
      ∀ c ∈ laidMembers line gap level members, P c
  | [], _, _ => by simp [laidMembers]
  | [(k, v)], level, hv => by
    have hval := forall_mem_laidOut hP hl hg v level hv.1
    simp only [laidMembers, List.forall_mem_cons, List.forall_mem_append]
    exact ⟨⟨hl level, forall_mem_quote hP _⟩, hP _ (by decide), hg, hval⟩
  | (k, v) :: m :: ms, level, hv => by
    have hval := forall_mem_laidOut hP hl hg v level hv.1
    have hrest := forall_mem_laidMembers hP hl hg (m :: ms) level hv.2
    simp only [laidMembers, List.forall_mem_cons, List.forall_mem_append]
    exact ⟨⟨hl level, forall_mem_quote hP _⟩, hP _ (by decide), ⟨hg, hval⟩, hP _ (by decide), hrest⟩

end

theorem strayBytes_notMem_laidOut (hl : ∀ level, Blank (line level)) (hg : Blank gap) {v : Json} (hv : v.Legible) :
    strayBytes ∉ laidOut line gap 0 v := by
  have hblank : ∀ c, isSpace c = true → c ≠ strayBytes := by
    rintro c hc rfl
    exact absurd hc (by decide)
  have hother : ∀ c : Char, 32 ≤ c.toNat → c ≠ strayBytes := by
    rintro c hc rfl
    exact absurd hc (by decide)
  intro hmem
  exact forall_mem_laidOut hother (fun level c hc => hblank c (hl level c hc)) (fun c hc => hblank c (hg c hc)) v 0 hv
    _ hmem rfl

end Layout

theorem le_of_mem_compact {v : Json} (hv : v.Exact) : ∀ c ∈ v.compactChars, 32 ≤ c.toNat := by
  rw [compactChars_eq 0]
  exact forall_mem_laidOut (fun _ h => h) (by simp) (by simp) v 0 hv.legible

theorem blank_newLine (level : Nat) : Blank (newLine level) := by
  intro c hc
  rcases List.mem_cons.1 hc with rfl | hc
  · rfl
  · rw [(List.mem_replicate.1 hc).2]
    rfl

theorem parseBytes_pretty_recalled {v : Json} (hv : v.Legible) : parseBytes v.pretty.toUTF8 = some v.recalled := by
  have hgap : Blank [' '] := by simp [Blank, isSpace]
  have hstray := strayBytes_notMem_laidOut blank_newLine hgap hv
  have hzero : 0 ∉ v.pretty.toUTF8.data.toList := by
    refine Text.notMem_toUTF8 (by decide) fun c hc h0 => ?_
    rw [prettyChars_eq] at hc
    rw [← Char.ofNat_toNat c, h0] at hc
    exact hstray hc
  rw [parseBytes]
  simp only [List.contains_eq_mem, hzero, decide_false, Bool.false_eq_true, if_false]
  rw [pretty, Text.decodeChars_toUTF8, prettyChars_eq]
  exact readAll_laidOut blank_newLine hgap hv

theorem parseBytes_pretty {v : Json} (hv : v.Exact) : parseBytes v.pretty.toUTF8 = some v := by
  rw [parseBytes_pretty_recalled hv.legible, hv.recalled_eq.2]

theorem parse_compact {v : Json} (hv : v.Exact) : parse v.compact = some v := by
  have hline : ∀ level : Nat, Blank ((fun _ => []) level : List Char) := fun _ => by simp [Blank]
  have hgap : Blank [] := by simp [Blank]
  have hstray := strayBytes_notMem_laidOut hline hgap hv.legible
  rw [parse, compact, String.toList_ofList, compactChars_eq 0]
  simp only [List.contains_eq_mem, hstray, decide_false, Bool.false_eq_true, if_false]
  rw [readAll_laidOut hline hgap hv.legible, hv.recalled_eq.2]

end TreeRepair.Json
