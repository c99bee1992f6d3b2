import TreeRepair.Proofs.Repair.Templates

/-! What the body of a quoted string says, and what is said by the template literal that is written for it. A body is
read from left to right in pieces, each a character or a backslash with the character that it takes; the body of the
literal is the same pieces, each turned on its own, so that no backslash ever takes another character than before. -/

set_option autoImplicit false

namespace TreeRepair.Template

open Prose

/-- A piece of a body: a character, or a backslash with the character that it takes. -/
inductive Piece where
  | plain (c : Char)
  | escaped (c : Char)
  deriving DecidableEq, Repr

namespace Piece

/-- The characters of a piece. -/
def text : Piece → List Char
  | plain c => [c]
  | escaped c => ['\\', c]

/-- What a piece stands for. An escaped quote or backtick stands for the bare character; any other escape is left as it
is. -/
def bare : Piece → Piece
  | plain c => plain c
  | escaped c => if c = '\'' ∨ c = '"' ∨ c = backtick then plain c else escaped c

/-- What is written for a piece in a template literal. -/
def inTemplate : Piece → Piece
  | plain c => if c = backtick then escaped c else plain c
  | escaped c => if c = '\'' ∨ c = '"' then plain c else escaped c

variable (p : Piece)

theorem inTemplate_cases : p = plain backtick ∧ p.inTemplate = escaped backtick ∨
    p = escaped '\'' ∧ p.inTemplate = plain '\'' ∨ p = escaped '"' ∧ p.inTemplate = plain '"' ∨
    p ≠ plain backtick ∧ p.inTemplate = p := by
  cases p with
  | plain c =>
    by_cases hc : c = backtick
    · exact .inl (by simp [inTemplate, hc])
    · exact .inr (.inr (.inr (by simp [inTemplate, hc])))
  | escaped c =>
    by_cases hc : c = '\'' ∨ c = '"'
    · rcases hc with rfl | rfl
      · exact .inr (.inl (by decide))
      · exact .inr (.inr (.inl (by decide)))
    · exact .inr (.inr (.inr (by simp [inTemplate, hc])))

theorem bare_inTemplate : p.inTemplate.bare = p.bare := by
  obtain ⟨rfl, h⟩ | ⟨rfl, h⟩ | ⟨rfl, h⟩ | ⟨-, h⟩ := p.inTemplate_cases <;> rw [h] <;> rfl

theorem inTemplate_inTemplate : p.inTemplate.inTemplate = p.inTemplate := by
  obtain ⟨-, h⟩ | ⟨-, h⟩ | ⟨-, h⟩ | ⟨-, h⟩ := p.inTemplate_cases <;> rw [h]
  · rfl
  · rfl
  · rfl
  · exact h

theorem inTemplate_eq_slash : p.inTemplate = plain '\\' ↔ p = plain '\\' := by
  obtain ⟨rfl, h⟩ | ⟨rfl, h⟩ | ⟨rfl, h⟩ | ⟨-, h⟩ := p.inTemplate_cases <;> rw [h] <;> decide

theorem inTemplate_ne_backtick : p.inTemplate ≠ plain backtick := by
  obtain ⟨-, h⟩ | ⟨-, h⟩ | ⟨-, h⟩ | ⟨hne, h⟩ := p.inTemplate_cases <;> rw [h]
  · decide
  · decide
  · decide
  · exact hne

end Piece

/-- The pieces of a body; a backslash at its end takes nothing. -/
def pieces : List Char → List Piece
  | [] => []
  | ['\\'] => [.plain '\\']
  | '\\' :: c :: cs => .escaped c :: pieces cs
  | c :: cs => .plain c :: pieces cs

/-- What a body says. -/
def meaning (cs : List Char) : List Piece := (pieces cs).map .bare

/-- Whether a text is one template literal with the given pieces inside: behind the opening backtick, the first one that
no backslash takes is the last character. -/
def IsLiteral (text : List Char) (inside : List Piece) : Prop :=
  pieces text = .plain backtick :: (inside ++ [.plain backtick]) ∧ .plain backtick ∉ inside

/-! ## Pieces of a text -/

/-- Induction on the pieces of a text. -/
@[elab_as_elim]
theorem piecewise {motive : List Char → Prop} (nil : motive []) (slash : motive ['\\'])
    (escaped : ∀ c cs, motive cs → motive ('\\' :: c :: cs))
    (plain : ∀ c cs, c ≠ '\\' → motive cs → motive (c :: cs)) (cs : List Char) : motive cs := by
  fun_induction pieces cs with
  | case1 => exact nil
  | case2 => exact slash
  | case3 c cs ih => exact escaped c cs ih
  | case4 c cs halone hescape ih =>
    refine plain c cs (fun hc => ?_) ih
    cases cs with
    | nil => exact halone hc rfl
    | cons d ds => exact hescape d ds hc rfl

section

variable {c : Char} {cs l : List Char}

theorem pieces_cons (hslash : c ≠ '\\') : pieces (c :: cs) = .plain c :: pieces cs := by
  rw [pieces]
  · rintro rfl
    exact absurd rfl hslash
  · rintro d ds rfl
    exact absurd rfl hslash

theorem flatMap_pieces (cs : List Char) : (pieces cs).flatMap Piece.text = cs := by
  induction cs using piecewise with
  | nil => rfl
  | slash => rfl
  | escaped c cs ih => rw [pieces, List.flatMap_cons, ih]; rfl
  | plain c cs hslash ih => rw [pieces_cons hslash, List.flatMap_cons, ih]; rfl

theorem pieces_inj (h : pieces l = pieces cs) : l = cs := by
  rw [← flatMap_pieces l, h, flatMap_pieces]

theorem mem_pieces_slash (cs : List Char) : .plain '\\' ∈ pieces cs ↔ dangles cs = true := by
  induction cs using piecewise with
  | nil => simp [pieces, dangles]
  | slash => simp [pieces, dangles]
  | escaped c cs ih => simp [pieces, dangles, ih]
  | plain c cs hslash ih => simp [pieces_cons hslash, dangles_cons hslash, ih, Ne.symm hslash]

theorem pieces_append (h : dangles l = false) (r : List Char) : pieces (l ++ r) = pieces l ++ pieces r := by
  induction l using piecewise with
  | nil => rfl
  | slash => simp [dangles] at h
  | escaped c cs ih =>
    rw [dangles] at h
    simp only [List.cons_append, pieces, ih h]
  | plain c cs hslash ih =>
    rw [dangles_cons hslash] at h
    rw [List.cons_append, pieces_cons hslash, pieces_cons hslash, ih h, List.cons_append]

theorem pieces_concat_of_dangles (h : dangles l = true) (c : Char) : ∃ ps, pieces (l ++ [c]) = ps ++ [.escaped c] := by
  induction l using piecewise with
  | nil => simp [dangles] at h
  | slash => exact ⟨[], rfl⟩
  | escaped d cs ih =>
    rw [dangles] at h
    obtain ⟨ps, hps⟩ := ih h
    exact ⟨.escaped d :: ps, by simp only [List.cons_append, pieces, hps]⟩
  | plain d cs hslash ih =>
    rw [dangles_cons hslash] at h
    obtain ⟨ps, hps⟩ := ih h
    exact ⟨.plain d :: ps, by rw [List.cons_append, pieces_cons hslash, hps, List.cons_append]⟩

end

/-! ## Pieces of a literal -/

variable (body : List Char)

theorem pieces_ofBody : pieces (ofBody body) = (pieces body).map .inTemplate := by
  induction body using piecewise with
  | nil => rfl
  | slash => rfl
  | escaped c cs ih =>
    rw [ofBody, pieces, List.map_cons, Piece.inTemplate]
    by_cases hc : c = '\'' ∨ c = '"'
    · have hslash : c ≠ '\\' := by rcases hc with rfl | rfl <;> decide
      rw [if_pos hc, if_pos hc, pieces_cons hslash, ih]
    · rw [if_neg hc, if_neg hc, pieces, ih]
  | plain c cs hslash ih =>
    have hbody : ofBody (c :: cs) = if c = backtick then '\\' :: backtick :: ofBody cs else c :: ofBody cs := by
      rw [ofBody]
      · rintro rfl
        exact absurd rfl hslash
      · rintro d ds rfl
        exact absurd rfl hslash
    rw [hbody, pieces_cons hslash, List.map_cons, Piece.inTemplate]
    by_cases hc : c = backtick
    · rw [if_pos hc, if_pos hc, pieces, ih, hc]
    · rw [if_neg hc, if_neg hc, pieces_cons hslash, ih]

theorem meaning_ofBody : meaning (ofBody body) = meaning body := by
  rw [meaning, pieces_ofBody, List.map_map]
  exact List.map_congr_left fun p _ => p.bare_inTemplate

theorem ofBody_ofBody : ofBody (ofBody body) = ofBody body := by
  refine pieces_inj ?_
  rw [pieces_ofBody (ofBody body), pieces_ofBody, List.map_map]
  exact List.map_congr_left fun p _ => p.inTemplate_inTemplate

theorem backtick_notMem_pieces : .plain backtick ∉ pieces (ofBody body) := by
  rw [pieces_ofBody, List.mem_map]
  rintro ⟨p, -, hp⟩
  exact p.inTemplate_ne_backtick hp

theorem dangles_ofBody : dangles (ofBody body) = dangles body := by
  rw [Bool.eq_iff_iff, ← mem_pieces_slash, ← mem_pieces_slash, pieces_ofBody]
  simp [Piece.inTemplate_eq_slash]

/-- A literal closes at its last character unless the body ends in a backslash, which takes that character. -/
theorem isLiteral_iff {inside : List Piece} :
    IsLiteral (literal body) inside ↔ dangles body = false ∧ inside = pieces (ofBody body) := by
  have htick : backtick ≠ '\\' := by decide
  have hopen : pieces (literal body) = .plain backtick :: pieces (ofBody body ++ [backtick]) := pieces_cons htick
  rw [IsLiteral, hopen, List.cons.injEq, and_iff_right rfl, ← dangles_ofBody]
  cases hdangles : dangles (ofBody body) with
  | true =>
    obtain ⟨ps, hps⟩ := pieces_concat_of_dangles hdangles backtick
    rw [hps]
    refine iff_of_false (fun h => ?_) (fun h => Bool.noConfusion h.1)
    simpa using (List.append_inj' h.1 rfl).2
  | false =>
    rw [pieces_append hdangles, pieces_cons htick, pieces, List.append_cancel_right_eq, and_iff_right rfl]
    constructor
    · exact fun h => h.1.symm
    · rintro rfl
      exact ⟨rfl, backtick_notMem_pieces body⟩

/-- The body of a template literal says what the body of the quoted string says, each backtick in it is taken by a
backslash, and nothing changes when it is written once more. Where each backslash of the string takes a character so does
each of the body, and exactly then the literal closes at its last character and not before. -/
theorem ofBody_faithful :
    meaning (ofBody body) = meaning body ∧ .plain backtick ∉ pieces (ofBody body) ∧
      dangles (ofBody body) = dangles body ∧ ofBody (ofBody body) = ofBody body ∧
      (IsLiteral (literal body) (pieces (ofBody body)) ↔ dangles body = false) := by
  refine ⟨meaning_ofBody body, backtick_notMem_pieces body, dangles_ofBody body, ofBody_ofBody body, ?_⟩
  rw [isLiteral_iff, and_iff_left rfl]

/-- A quote, a backtick, a backslash and a line feed, escaped; and a backtick that is bare. -/
example : ofBody ['\\', '\'', '\\', backtick, '\\', '\\', '\\', 'n', backtick] =
    ['\'', '\\', backtick, '\\', '\\', '\\', 'n', '\\', backtick] := by decide

end TreeRepair.Template
