import TreeRepair.Proofs.Repair.Pieces

/-! What becomes of the text of a markup attribute. In an attribute a backslash is a character like any other and the next
quote ends the text, while the template literal that is written for it takes each backslash for the start of an escape. So
the literal says what the attribute says, placeholders aside, exactly where no backslash stands outside of them. -/

set_option autoImplicit false

namespace TreeRepair

namespace Template

open Prose

/-- The character of a piece. -/
def Piece.char : Piece → Char
  | plain c => c
  | escaped c => c

/-- The number of open braces behind a character inside a placeholder, nothing behind the brace that closes it. -/
def depthBehind (depth : Nat) (c : Char) : Option Nat :=
  if c = '\x7b' then some (depth + 1)
  else if c = '\x7d' then if depth ≤ 1 then none else some (depth - 1)
  else some depth

/-- The pieces that stand outside of placeholders, read from outside or from inside one with some open braces. A
placeholder goes from its dollar sign to the brace that closes its own. -/
def outside : Option Nat → List Piece → List Piece
  | _, [] => []
  | none, p :: ps =>
    if p = .plain '$' ∧ ps.head? = some (.plain '\x7b') then outside (some 0) ps else p :: outside none ps
  | some depth, p :: ps => outside (depthBehind depth p.char) ps

/-- The characters of an attribute outside of placeholders, each of them a piece of its own. -/
def shown (text : List Char) (depth : Option Nat) : List Piece := outside depth (text.map .plain)

/-- What a template literal says outside of placeholders, where the attribute's text is its body. -/
def said (text : List Char) (depth : Option Nat) : List Piece := outside depth (meaning text)

/-! ## One character after another -/

variable {c : Char} {cs : List Char}

theorem char_bare (p : Piece) : p.bare.char = p.char := by
  cases p with
  | plain c => rfl
  | escaped c =>
    rw [Piece.bare]
    split <;> rfl

theorem head?_meaning (cs : List Char) : (meaning cs).head? = some (.plain '\x7b') ↔ cs.head? = some '\x7b' := by
  induction cs using piecewise with
  | nil => simp [meaning, pieces]
  | slash => decide
  | escaped c cs _ =>
    by_cases hc : c = '\'' ∨ c = '"' ∨ c = backtick
    · rcases hc with rfl | rfl | rfl <;> simp [meaning, pieces, Piece.bare, backtick]
    · simp [meaning, pieces, Piece.bare, hc]
  | plain c cs hslash _ => simp [meaning, pieces_cons hslash, Piece.bare]

theorem shown_cons (c : Char) (cs : List Char) : shown (c :: cs) none =
    if c = '$' ∧ cs.head? = some '\x7b' then shown cs (some 0) else .plain c :: shown cs none := by
  have hopen : Piece.plain c = .plain '$' ∧ (cs.map Piece.plain).head? = some (.plain '\x7b') ↔
      c = '$' ∧ cs.head? = some '\x7b' := by simp
  rw [shown, List.map_cons, outside, if_congr hopen rfl rfl]
  rfl

theorem said_plain (hslash : c ≠ '\\') : said (c :: cs) none =
    if c = '$' ∧ cs.head? = some '\x7b' then said cs (some 0) else .plain c :: said cs none := by
  have hopen : Piece.plain c = .plain '$' ∧ (meaning cs).head? = some (.plain '\x7b') ↔
      c = '$' ∧ cs.head? = some '\x7b' := by rw [head?_meaning, Piece.plain.injEq]
  rw [said, meaning, pieces_cons hslash, List.map_cons, Piece.bare, outside, ← meaning, if_congr hopen rfl rfl]
  rfl

theorem said_plain_inside (hslash : c ≠ '\\') (depth : Nat) :
    said (c :: cs) (some depth) = said cs (depthBehind depth c) := by
  rw [said, meaning, pieces_cons hslash]
  rfl

theorem said_escaped (c : Char) (cs : List Char) : said ('\\' :: c :: cs) none = (Piece.escaped c).bare :: said cs none := by
  have hshut : (Piece.escaped c).bare ≠ .plain '$' := by
    by_cases hc : c = '\'' ∨ c = '"' ∨ c = backtick
    · rcases hc with rfl | rfl | rfl <;> decide
    · simp [Piece.bare, hc]
  rw [said, meaning, pieces, List.map_cons, outside, if_neg fun h => hshut h.1]
  rfl

theorem said_escaped_inside (c : Char) (cs : List Char) (depth : Nat) :
    said ('\\' :: c :: cs) (some depth) = said cs (depthBehind depth c) := by
  rw [said, meaning, pieces, List.map_cons, outside, char_bare]
  rfl

/-! ## Texts -/

theorem said_eq_shown {text : List Char} {depth : Option Nat} (h : .plain '\\' ∉ shown text depth) :
    said text depth = shown text depth := by
  induction text using piecewise generalizing depth with
  | nil => cases depth <;> rfl
  | slash =>
    cases depth with
    | none => exact absurd (by decide) h
    | some d => rfl
  | escaped c cs ih =>
    cases depth with
    | none => simp [shown_cons] at h
    | some d =>
      rw [said_escaped_inside]
      exact ih h
  | plain c cs hslash ih =>
    cases depth with
    | none =>
      rw [shown_cons] at h ⊢
      rw [said_plain hslash]
      by_cases hopen : c = '$' ∧ cs.head? = some '\x7b'
      · rw [if_pos hopen] at h ⊢
        rw [if_pos hopen, ih h]
      · rw [if_neg hopen, List.mem_cons, not_or] at h
        rw [if_neg hopen, if_neg hopen, ih h.2]
    | some d =>
      rw [said_plain_inside hslash]
      exact ih h

/-- Where a literal has no escape outside of placeholders, it lacks one character for each backslash that the attribute
shows there. -/
theorem length_said {text : List Char} {depth : Option Nat} (hpaired : dangles text = false)
    (h : ∀ c, .escaped c ∉ said text depth) :
    (said text depth).length + (shown text depth).count (.plain '\\') = (shown text depth).length := by
  induction text using piecewise generalizing depth with
  | nil => cases depth <;> rfl
  | slash => simp [dangles] at hpaired
  | escaped c cs ih =>
    rw [dangles] at hpaired
    cases depth with
    | none =>
      rw [said_escaped] at h ⊢
      have hquote : c = '\'' ∨ c = '"' ∨ c = backtick := by
        by_contra hc
        exact h c (by simp [Piece.bare, hc])
      have hshut : ¬ (c = '$' ∧ cs.head? = some '\x7b') := by rcases hquote with rfl | rfl | rfl <;> simp [backtick]
      have hne : Piece.plain c ≠ .plain '\\' := by rcases hquote with rfl | rfl | rfl <;> decide
      have hrest := ih hpaired fun d hd => h d (List.mem_cons_of_mem _ hd)
      rw [shown_cons, if_neg (by simp), shown_cons, if_neg hshut, List.count_cons_self, List.count_cons_of_ne hne]
      simp only [List.length_cons]
      omega
    | some d =>
      rw [said_escaped_inside] at h ⊢
      exact ih hpaired h
  | plain c cs hslash ih =>
    rw [dangles_cons hslash] at hpaired
    cases depth with
    | none =>
      rw [said_plain hslash] at h ⊢
      rw [shown_cons]
      by_cases hopen : c = '$' ∧ cs.head? = some '\x7b'
      · rw [if_pos hopen] at h ⊢
        rw [if_pos hopen]
        exact ih hpaired h
      · rw [if_neg hopen] at h ⊢
        have hrest := ih hpaired fun d hd => h d (List.mem_cons_of_mem _ hd)
        have hne : Piece.plain c ≠ .plain '\\' := by simpa using hslash
        rw [if_neg hopen, List.count_cons_of_ne hne, List.length_cons, List.length_cons]
        omega
    | some d =>
      rw [said_plain_inside hslash] at h ⊢
      exact ih hpaired h

theorem escaped_notMem_shown (text : List Char) (depth : Option Nat) (c : Char) : .escaped c ∉ shown text depth := by
  induction text generalizing depth with
  | nil => cases depth <;> simp [shown, outside]
  | cons d text ih =>
    cases depth with
    | none =>
      rw [shown_cons]
      split
      · exact ih _
      · simpa using ih none
    | some n => exact ih (depthBehind n d)

theorem said_eq_shown_iff {text : List Char} (hpaired : dangles text = false) (depth : Option Nat) :
    said text depth = shown text depth ↔ .plain '\\' ∉ shown text depth := by
  refine ⟨fun heq => ?_, said_eq_shown⟩
  have hlength := length_said hpaired fun c => heq ▸ escaped_notMem_shown text depth c
  rw [heq] at hlength
  exact List.count_eq_zero.1 (by omega)

end Template

/-! ## Attributes of a unit -/

namespace ParsedUnit

variable {u : ParsedUnit} {i : Nat} {quote : Char} {text : List Char} {h : Hazard}

theorem stringValue_of_quoted (hquote : quote = '\'' ∨ quote = '"') (htext : (u.text i).toList = quote :: (text ++ [quote])) :
    u.stringValue i = String.ofList text := by
  have hone : Text.byteLength [quote] = 1 := by rcases hquote with rfl | rfl <;> decide
  have hlist : (u.text i).toList = [quote] ++ text ++ [quote] := by rw [htext]; rfl
  have hsize : (u.text i).utf8ByteSize - 1 = Text.byteLength [quote] + Text.byteLength text := by
    rw [Text.utf8ByteSize_eq, hlist, Text.byteLength_append, Text.byteLength_append, hone]
    omega
  rw [stringValue, Text.sliceOrEmpty_eq, hsize, hlist, ← hone, Text.slice?_append]
  rfl

theorem node_of_mem_hazards (hmem : h ∈ u.hazards) : ∃ n, u.node? h.node = some n := by
  obtain ⟨i, -, hi⟩ := List.mem_filterMap.1 hmem
  cases hnode : u.node? i with
  | none => simp [hnode] at hi
  | some n =>
    simp only [hnode, Option.ite_none_right_eq_some, Option.some.injEq] at hi
    exact ⟨n, by rw [← hi.2, hnode]⟩

end ParsedUnit

open ParsedUnit Template

/-- The string of an attribute with a placeholder is replaced by a literal in braces. The literal is complete exactly if
the attribute does not end in an odd number of backslashes, and it says outside of placeholders just what the attribute
shows there exactly if no backslash is among it. -/
theorem attribute_replaced {u : ParsedUnit} {h : Hazard} {quote : Char} {text : List Char} (hmem : h ∈ u.hazards)
    (hattribute : h.inAttribute = true) (hquote : quote = '\'' ∨ quote = '"')
    (htext : (u.text h.node).toList = quote :: (text ++ [quote])) (source : String) :
    ∃ edits n, Rule.interpolateAttribute.propose u source = .ok edits ∧ u.node? h.node = some n ∧
      ⟨n.start, n.stop, String.ofList ('\x7b' :: (literal text ++ ['\x7d']))⟩ ∈ edits ∧
      ((∃ inside, IsLiteral (literal text) inside) ↔ dangles text = false) ∧
      ∀ inside, IsLiteral (literal text) inside →
        (outside none (inside.map .bare) = shown text none ↔ .plain '\\' ∉ shown text none) := by
  obtain ⟨n, hnode⟩ := node_of_mem_hazards hmem
  refine ⟨_, n, rfl, hnode, ?_, ?_, ?_⟩
  · have hvalue : (u.stringValue h.node).toList = text := by
      rw [stringValue_of_quoted hquote htext, String.toList_ofList]
    have hedit : templateEdit u h = ⟨n.start, n.stop, String.ofList ('\x7b' :: (literal text ++ ['\x7d']))⟩ := by
      simp only [templateEdit, templateFor, hnode, hattribute, hvalue, Option.elim_some, if_true]
    exact hedit ▸ List.mem_map_of_mem hmem
  · simp only [isLiteral_iff, exists_and_left, exists_eq, and_true]
  · rintro inside hliteral
    obtain ⟨hpaired, rfl⟩ := (isLiteral_iff text).1 hliteral
    have hsaid : outside none ((pieces (ofBody text)).map .bare) = said text none := by
      rw [said, ← meaning_ofBody, meaning]
    rw [hsaid, said_eq_shown_iff hpaired]

/-- A source with a placeholder behind a letter with a backslash, in an attribute. -/
def barred : ParsedUnit where
  file := "a.jsx"
  key := ""
  grammar := none
  source := "<i t=\"\\d$\x7bx\x7d\"/>"
  nodes := #[⟨"program", true, none, 0, 15, 1, 0, 1, none, [1]⟩,
    ⟨"jsx_self_closing_element", true, none, 0, 15, 1, 0, 1, some 0, [2]⟩,
    ⟨"jsx_attribute", true, none, 3, 13, 1, 3, 1, some 1, [3]⟩,
    ⟨"string", true, none, 5, 13, 1, 5, 1, some 2, []⟩]
  errors := []
  recovery := none

/-- The literal that replaces the attribute is complete and says the letter escaped. -/
theorem attribute_replaced_barred :
    let text := ['\\', 'd', '$', '\x7b', 'x', '\x7d']
    ⟨3, 1, true⟩ ∈ barred.hazards ∧ (barred.text 3).toList = '"' :: (text ++ ['"']) ∧
      (∃ edits, Rule.interpolateAttribute.propose barred barred.source = .ok edits ∧
        ⟨5, 13, String.ofList ('\x7b' :: (literal text ++ ['\x7d']))⟩ ∈ edits) ∧
      ∃ inside, IsLiteral (literal text) inside ∧ outside none (inside.map .bare) ≠ shown text none := by
  intro text
  have hmem : ⟨3, 1, true⟩ ∈ barred.hazards := by decide +kernel
  have htext : (barred.text 3).toList = '"' :: (text ++ ['"']) := by decide +kernel
  obtain ⟨edits, n, hpropose, hnode, hedit, hcomplete, hmeans⟩ :=
    attribute_replaced hmem rfl (.inr rfl) htext barred.source
  obtain rfl : barred.nodes[3] = n := Option.some.inj hnode
  obtain ⟨inside, hinside⟩ := hcomplete.2 (by decide)
  exact ⟨hmem, htext, ⟨edits, hpropose, hedit⟩, inside, hinside, fun heq => (hmeans inside hinside).1 heq (by decide)⟩

end TreeRepair
