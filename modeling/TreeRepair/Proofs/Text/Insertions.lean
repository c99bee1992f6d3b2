import Mathlib.Data.List.Find
import TreeRepair.Proofs.Text.Splicing

/-! Edits that only put texts in. At the boundary of a character an insertion leaves all characters where they are. One
inside a character is widened over it and takes its place, and two inside one character overlap. So insertions of a text
succeed exactly if no two of them split the same character, and taking the texts out again that were put in gives the
text back exactly if none of them splits a character. -/

set_option autoImplicit false

namespace TreeRepair.Text

/-! ## Offsets -/

section Offsets

variable {text l r : List Char} {c : Char} {n : Nat}

theorem floorBoundary_append (l r : List Char) : floorBoundary (l ++ r) (byteLength l) = byteLength l := by
  rw [floorBoundary, takeBytes_eq_self]

theorem ceilBoundary_append (l r : List Char) : ceilBoundary (l ++ r) (byteLength l) = byteLength l := by
  rw [ceilBoundary_eq, coverBytes_eq_self]

theorem floorBoundary_within (h : byteLength l ≤ n) (hn : n < byteLength l + c.utf8Size) :
    floorBoundary (l ++ c :: r) n = byteLength l := by
  rw [floorBoundary, takeBytes_append_of_le _ h, takeBytes, if_neg (by omega), List.append_nil]

theorem ceilBoundary_within (h : byteLength l < n) (hn : n ≤ byteLength l + c.utf8Size) :
    ceilBoundary (l ++ c :: r) n = byteLength l + c.utf8Size := by
  have hlen := byteLength_concat l c
  rw [ceilBoundary_eq, List.append_cons, coverBytes_append r (by omega), coverBytes_concat, if_neg (by omega), hlen]

theorem boundary_or_within (h : n ≤ byteLength text) :
    (∃ l r, text = l ++ r ∧ n = byteLength l) ∨
      ∃ l c r, text = l ++ c :: r ∧ byteLength l < n ∧ n < byteLength l + c.utf8Size := by
  obtain ⟨r, hr⟩ := takeBytes_isPrefix text n
  have hle := byteLength_takeBytes_le text n
  rcases Nat.eq_or_lt_of_le hle with heq | hlt
  · exact .inl ⟨_, r, hr.symm, heq.symm⟩
  · cases r with
    | nil =>
      rw [← hr, List.append_nil] at h
      exact absurd h (Nat.not_le.2 hlt)
    | cons c r =>
      refine .inr ⟨_, c, r, hr.symm, hlt, Nat.lt_of_not_le fun hfits => ?_⟩
      -- a longer start of the text would have at most as many bytes
      have hlonger : takeBytes text n ++ [c] <+: takeBytes text n :=
        prefix_takeBytes ⟨r, by rw [← List.append_cons, hr]⟩
          (by rw [byteLength_append, byteLength, byteLength]; exact hfits)
      have hlen := hlonger.length_le
      rw [List.length_append, List.length_singleton] at hlen
      omega

end Offsets

/-! ## Insertions that share a character -/

namespace Edit

/-- Whether an edit puts a text in at an offset of a text of `length` bytes. -/
def IsInsertion (length : Nat) (e : Edit) : Prop := e.start = e.stop ∧ e.stop ≤ length

/-- Whether an edit starts inside a character. -/
def Splits (text : List Char) (e : Edit) : Prop := floorBoundary text e.start < e.start

/-- Whether no two edits start inside the same character. -/
def Uncrowded (text : List Char) (edits : List Edit) : Prop :=
  edits.Pairwise fun e f => ¬ (e.Splits text ∧ f.Splits text ∧ floorBoundary text e.start = floorBoundary text f.start)

instance (length : Nat) (e : Edit) : Decidable (e.IsInsertion length) := inferInstanceAs (Decidable (_ ∧ _))

instance (text : List Char) (e : Edit) : Decidable (e.Splits text) := inferInstanceAs (Decidable (_ < _))

instance (text : List Char) (edits : List Edit) : Decidable (Uncrowded text edits) :=
  inferInstanceAs (Decidable (List.Pairwise _ _))

variable {text : List Char} {e f : Edit} {edits : List Edit}

theorem IsInsertion.fits (h : e.IsInsertion (byteLength text)) : e.Fits (byteLength text) := ⟨Nat.le_of_eq h.1, h.2⟩

theorem uncrowded_of_forall (h : ∀ e ∈ edits, ¬ e.Splits text) : Uncrowded text edits :=
  List.pairwise_of_forall_mem_list fun e he _ _ hboth => h e he hboth.1

/-- The widened ranges of two insertions are apart unless both lie inside one character. -/
theorem apart_widen_iff (he : e.IsInsertion (byteLength text)) (hf : f.IsInsertion (byteLength text)) :
    Apart (e.widen text) (f.widen text) ↔
      ¬ (e.Splits text ∧ f.Splits text ∧ floorBoundary text e.start = floorBoundary text f.start) := by
  obtain ⟨hestart, hestop⟩ := he
  obtain ⟨hfstart, hfstop⟩ := hf
  rw [Apart, widen, widen, Splits, Splits, ← hestart, ← hfstart]
  simp only
  have hfloor := floorBoundary_le text f.start
  rcases boundary_or_within (hestart ▸ hestop) with ⟨l, r, rfl, hl⟩ | ⟨l, c, r, rfl, hlow, hhigh⟩
  · rw [hl, floorBoundary_append, ceilBoundary_append]
    refine iff_of_true ?_ fun h => absurd h.1 (Nat.lt_irrefl _)
    rcases Nat.le_total (byteLength l) f.start with hle | hle
    · have hmono := floorBoundary_mono (l ++ r) hle
      rw [floorBoundary_append] at hmono
      exact .inl hmono
    · exact .inr ((ceilBoundary_le_iff l r (hfstart ▸ hfstop)).2 hle)
  · have hlen := byteLength_concat l c
    rw [floorBoundary_within (Nat.le_of_lt hlow) hhigh, ceilBoundary_within hlow (Nat.le_of_lt hhigh)]
    by_cases hbefore : f.start ≤ byteLength l
    · have hceil := (ceilBoundary_le_iff l (c :: r) (hfstart ▸ hfstop)).2 hbefore
      exact iff_of_true (.inr hceil) (by omega)
    by_cases hbehind : byteLength l + c.utf8Size ≤ f.start
    · have hmono := floorBoundary_mono (l ++ c :: r) (hlen ▸ hbehind)
      rw [List.append_cons, floorBoundary_append, hlen, ← List.append_cons] at hmono
      exact iff_of_true (.inl hmono) (by omega)
    · rw [floorBoundary_within (by omega) (by omega), ceilBoundary_within (by omega) (by omega)]
      exact iff_of_false (by omega) (not_not_intro ⟨hlow, by omega, rfl⟩)

theorem compatible_iff_uncrowded (h : ∀ e ∈ edits, e.IsInsertion (byteLength text)) :
    Compatible text edits ↔ Uncrowded text edits := by
  rw [Compatible, and_iff_right fun e he => (h e he).fits, List.pairwise_map, Uncrowded]
  exact List.Pairwise.iff_of_mem fun he hf => apart_widen_iff (h _ he) (h _ hf)

end Edit

open Edit

/-! ## A text in pieces -/

/-- A part of a text with insertions. -/
inductive Piece where
  /-- A character of the text itself. -/
  | kept (c : Char)
  /-- What an edit puts in. -/
  | put (e : Edit)

namespace Piece

/-- What is read where a piece stands. -/
def text : Piece → List Char
  | .kept c => [c]
  | .put e => e.replacement.toList

def kept? : Piece → Option Char
  | .kept c => some c
  | .put _ => none

def put? : Piece → Option Edit
  | .kept _ => none
  | .put e => some e

end Piece

/-- Whether an edit starts inside a character that begins at an offset. -/
def isWithin (n : Nat) (c : Char) (e : Edit) : Bool := n < e.start && e.start < n + c.utf8Size

/-- The pieces of a text from an offset on: at each boundary the insertions there in their given order, then the character
that follows or, in its place, the first of the insertions inside it. -/
def pieces (edits : List Edit) : Nat → List Char → List Piece
  | n, [] => (insertionsAt n edits).map .put
  | n, c :: cs =>
    (insertionsAt n edits).map .put ++
      (edits.find? (isWithin n c)).elim (.kept c) .put :: pieces edits (n + c.utf8Size) cs

/-- The text that pieces make up. -/
def written (ps : List Piece) : List Char := ps.flatMap Piece.text

/-- What is left of pieces without what was put in. -/
def kept (ps : List Piece) : List Char := ps.filterMap Piece.kept?

/-- What was put in, in the order of its places. -/
def putIn (ps : List Piece) : List Edit := ps.filterMap Piece.put?

section Pieces

variable {text l cs : List Char} {c : Char} {edits : List Edit} {e : Edit} {n resume : Nat}

theorem written_put (edits : List Edit) : written (edits.map .put) = texts edits := by
  rw [written, List.flatMap_map]
  rfl

theorem kept_put (edits : List Edit) : kept (edits.map .put) = [] := by
  simp [kept, Piece.kept?]

theorem putIn_put (edits : List Edit) : putIn (edits.map .put) = edits := by
  simp [putIn, Piece.put?, Function.comp_def]

theorem insertionsAt_eq_filter (h : ∀ e ∈ edits, e.IsInsertion (byteLength text)) (n : Nat) :
    insertionsAt n edits = edits.filter fun e => e.start = n := by
  refine List.filter_congr fun e he => ?_
  rw [← (h e he).1, Bool.and_self]
  rfl

theorem insertionsAt_widen (h : ∀ e ∈ edits, e.IsInsertion (byteLength (l ++ cs))) :
    insertionsAt (byteLength l) (edits.map (widen (l ++ cs))) =
      (insertionsAt (byteLength l) edits).map (widen (l ++ cs)) := by
  rw [insertionsAt, List.filter_map, insertionsAt]
  refine congrArg _ (List.filter_congr fun e he => ?_)
  rw [Function.comp_apply, Bool.eq_iff_iff]
  simp only [Bool.and_eq_true, beq_iff_eq]
  constructor
  · rintro ⟨hstart, hstop⟩
    exact (h e he).fits.of_widen_eq hstart hstop
  · rintro ⟨hstart, hstop⟩
    rw [widen, hstart, hstop]
    exact ⟨floorBoundary_append l cs, ceilBoundary_append l cs⟩

theorem replacementAt?_widen (h : ∀ e ∈ edits, e.IsInsertion (byteLength (l ++ c :: cs))) :
    replacementAt? (byteLength l) (edits.map (widen (l ++ c :: cs))) =
      (edits.find? (isWithin (byteLength l) c)).map (widen (l ++ c :: cs)) := by
  rw [replacementAt?, List.find?_map]
  refine congrArg _ (List.find?_congr fun e he => ?_)
  obtain ⟨hstart, hstop⟩ := h e he
  have hlen := byteLength_concat l c
  have hfloor := floorBoundary_le (l ++ c :: cs) e.start
  rw [Function.comp_apply, Bool.eq_iff_iff, isWithin]
  simp only [Bool.and_eq_true, beq_iff_eq, decide_eq_true_eq, widen, ← hstart]
  constructor
  · rintro ⟨hlow, hhigh⟩
    refine ⟨?_, Nat.lt_of_not_le fun hle => ?_⟩
    · rcases Nat.eq_or_lt_of_le (hlow ▸ hfloor) with heq | hlt
      · rw [← heq, ceilBoundary_append] at hhigh
        exact absurd hhigh (Nat.lt_irrefl _)
      · exact hlt
    · have hmono := floorBoundary_mono (l ++ c :: cs) (hlen ▸ hle)
      rw [List.append_cons, floorBoundary_append, hlen, ← List.append_cons, hlow] at hmono
      have hpos := c.utf8Size_pos
      omega
  · rintro ⟨hlow, hhigh⟩
    rw [floorBoundary_within (Nat.le_of_lt hlow) hhigh, ceilBoundary_within hlow (Nat.le_of_lt hhigh)]
    exact ⟨rfl, Nat.lt_trans hlow hhigh⟩

theorem readThrough_insertions (htext : text = l ++ cs) (h : ∀ e ∈ edits, e.IsInsertion (byteLength text))
    (hresume : resume ≤ byteLength l) :
    readThrough (edits.map (widen text)) (byteLength l) resume cs = written (pieces edits (byteLength l) cs) := by
  induction cs generalizing l resume with
  | nil =>
    subst htext
    rw [readThrough, pieces, written_put, insertionsAt_widen h]
    simp [texts, widen, List.flatMap_map]
  | cons c cs ih =>
    have hlen := byteLength_concat l c
    have hrest : ∀ resume ≤ byteLength l + c.utf8Size,
        readThrough (edits.map (widen text)) (byteLength l + c.utf8Size) resume cs =
          written (pieces edits (byteLength l + c.utf8Size) cs) := by
      intro resume hle
      rw [← hlen] at hle ⊢
      exact ih (by rw [htext, List.append_cons]) hle
    subst htext
    have hput : texts (insertionsAt (byteLength l) (edits.map (widen (l ++ c :: cs)))) =
        texts (insertionsAt (byteLength l) edits) := by
      rw [insertionsAt_widen h]
      simp [texts, widen, List.flatMap_map]
    rw [readThrough, if_neg (Nat.not_lt.2 hresume), hput, replacementAt?_widen h, pieces, written, List.flatMap_append,
      ← written, written_put, List.flatMap_cons, ← written]
    refine congrArg _ ?_
    cases hfind : edits.find? (isWithin (byteLength l) c) with
    | none => exact congrArg _ (hrest _ (Nat.le_trans hresume (Nat.le_add_right _ _)))
    | some e =>
      have hwithin := List.find?_some hfind
      simp only [isWithin, Bool.and_eq_true, decide_eq_true_eq] at hwithin
      have hstop : (e.widen (l ++ c :: cs)).stop = byteLength l + c.utf8Size := by
        rw [widen, ← (h e (List.mem_of_find?_eq_some hfind)).1]
        exact ceilBoundary_within hwithin.1 (Nat.le_of_lt hwithin.2)
      simp only [Option.map_some, Option.elim_some]
      rw [hstop, hrest _ (Nat.le_refl _)]
      rfl

/-! ## What is put in -/

theorem filter_eq_toList_find? {α : Type} {p : α → Bool} {as : List α}
    (h : as.Pairwise fun a b => ¬ (p a = true ∧ p b = true)) : as.filter p = (as.find? p).toList := by
  induction as with
  | nil => rfl
  | cons a as ih =>
    obtain ⟨hfirst, hrest⟩ := List.pairwise_cons.1 h
    cases hp : p a with
    | false => rw [List.filter_cons_of_neg (by simp [hp]), List.find?_cons_of_neg (by simp [hp]), ih hrest]
    | true =>
      have hnone : as.filter p = [] := List.filter_eq_nil_iff.2 fun b hb hpb => hfirst b hb ⟨hp, hpb⟩
      rw [List.filter_cons_of_pos hp, List.find?_cons_of_pos hp, hnone]
      rfl

theorem filter_perm_append {α : Type} {p q r : α → Bool} {as : List α}
    (hr : ∀ a ∈ as, r a = true ↔ p a = true ∨ q a = true)
    (hapart : ∀ a ∈ as, p a = true → ¬ q a = true) : (as.filter r).Perm (as.filter p ++ as.filter q) := by
  have hp : (as.filter r).filter p = as.filter p := by
    rw [List.filter_filter]
    refine List.filter_congr fun a ha => ?_
    rw [Bool.eq_iff_iff, Bool.and_eq_true, hr a ha]
    tauto
  have hq : (as.filter r).filter (fun a => !p a) = as.filter q := by
    rw [List.filter_filter]
    refine List.filter_congr fun a ha => ?_
    have hnot := hapart a ha
    rw [Bool.eq_iff_iff, Bool.and_eq_true, hr a ha, Bool.not_eq_true', ← Bool.not_eq_true]
    tauto
  have hboth := List.filter_append_perm p (as.filter r)
  rw [hp, hq] at hboth
  exact hboth.symm

theorem Edit.Uncrowded.filter_isWithin (h : Uncrowded (l ++ c :: cs) edits) :
    edits.filter (isWithin (byteLength l) c) = (edits.find? (isWithin (byteLength l) c)).toList := by
  refine filter_eq_toList_find? (h.imp fun {e f} hnot hboth => hnot ?_)
  simp only [isWithin, Bool.and_eq_true, decide_eq_true_eq] at hboth
  obtain ⟨⟨helow, hehigh⟩, hflow, hfhigh⟩ := hboth
  rw [Splits, Splits, floorBoundary_within (Nat.le_of_lt helow) hehigh, floorBoundary_within (Nat.le_of_lt hflow) hfhigh]
  exact ⟨helow, hflow, rfl⟩

theorem putIn_pieces_perm (htext : text = l ++ cs) (h : ∀ e ∈ edits, e.IsInsertion (byteLength text))
    (hun : Uncrowded text edits) :
    (putIn (pieces edits (byteLength l) cs)).Perm (edits.filter fun e => byteLength l ≤ e.start) := by
  induction cs generalizing l with
  | nil =>
    rw [pieces, putIn_put, insertionsAt_eq_filter h]
    refine .of_eq (List.filter_congr fun e he => ?_)
    have hle : e.start ≤ byteLength l := by
      have hfit := h e he
      rw [htext, List.append_nil] at hfit
      exact hfit.1 ▸ hfit.2
    exact decide_eq_decide.2 (by omega)
  | cons c cs ih =>
    have hlen := byteLength_concat l c
    have hpos := c.utf8Size_pos
    have hrest := ih (l := l ++ [c]) (by rw [htext, List.append_cons])
    have hhere : (((edits.find? (isWithin (byteLength l) c)).elim (.kept c) .put : Piece)).put?.toList =
        edits.filter (isWithin (byteLength l) c) := by
      have hown : Uncrowded (l ++ c :: cs) edits := htext ▸ hun
      rw [hown.filter_isWithin]
      cases edits.find? (isWithin (byteLength l) c) <;> rfl
    have hsplit : putIn (pieces edits (byteLength l) (c :: cs)) =
        edits.filter (fun e => e.start = byteLength l) ++ (edits.filter (isWithin (byteLength l) c) ++
          putIn (pieces edits (byteLength l + c.utf8Size) cs)) := by
      rw [pieces, putIn, List.filterMap_append, ← putIn, putIn_put, insertionsAt_eq_filter h, ← hhere, putIn]
      cases edits.find? (isWithin (byteLength l) c) <;> rfl
    rw [hsplit]
    -- the edits from here on are those at the boundary, those inside the character, and those behind it
    have hlater : (edits.filter fun e => byteLength l < e.start).Perm
        (edits.filter (isWithin (byteLength l) c) ++ edits.filter fun e => byteLength (l ++ [c]) ≤ e.start) := by
      refine filter_perm_append (fun e _ => ?_) fun e _ hwithin => ?_ <;>
        simp only [isWithin, Bool.and_eq_true, decide_eq_true_eq] at * <;> omega
    have hnow : (edits.filter fun e => byteLength l ≤ e.start).Perm
        ((edits.filter fun e => e.start = byteLength l) ++ edits.filter fun e => byteLength l < e.start) := by
      refine filter_perm_append (fun e _ => ?_) fun e _ hhere => ?_ <;> simp only [decide_eq_true_eq] at * <;> omega
    rw [hlen] at hrest hlater
    exact ((hrest.append_left _).trans hlater.symm).append_left _ |>.trans hnow.symm

/-! ## What is kept -/

theorem kept_pieces_cons (edits : List Edit) (n : Nat) (c : Char) (cs : List Char) :
    kept (pieces edits n (c :: cs)) =
      if (edits.find? (isWithin n c)).isNone then c :: kept (pieces edits (n + c.utf8Size) cs)
      else kept (pieces edits (n + c.utf8Size) cs) := by
  rw [pieces, kept, List.filterMap_append, ← kept, kept_put, List.nil_append]
  cases edits.find? (isWithin n c) <;> rfl

theorem kept_pieces_sublist (edits : List Edit) (n : Nat) (cs : List Char) : (kept (pieces edits n cs)).Sublist cs := by
  induction cs generalizing n with
  | nil => rw [pieces, kept_put]
  | cons c cs ih =>
    rw [kept_pieces_cons]
    split
    · exact (ih _).cons_cons c
    · exact (ih _).cons c

theorem kept_pieces_eq_iff (htext : text = l ++ cs) (h : ∀ e ∈ edits, e.IsInsertion (byteLength text)) :
    kept (pieces edits (byteLength l) cs) = cs ↔ ∀ e ∈ edits, byteLength l ≤ e.start → ¬ e.Splits text := by
  induction cs generalizing l with
  | nil =>
    rw [pieces, kept_put]
    refine iff_of_true rfl fun e he hle => ?_
    have hfit := h e he
    rw [htext] at hfit ⊢
    have hend : e.start = byteLength (l ++ []) := Nat.le_antisymm (hfit.1 ▸ hfit.2) (by rwa [List.append_nil])
    have hfloor := floorBoundary_append (l ++ []) []
    rw [List.append_nil (l ++ [])] at hfloor
    rw [Splits, hend, hfloor]
    exact Nat.lt_irrefl _
  | cons c cs ih =>
    have hlen := byteLength_concat l c
    have hrest := ih (l := l ++ [c]) (by rw [htext, List.append_cons])
    rw [hlen] at hrest
    rw [kept_pieces_cons]
    split
    · rename_i hnone
      have hout := List.find?_eq_none.1 (Option.isNone_iff_eq_none.1 hnone)
      rw [List.cons_inj_right, hrest]
      refine forall₂_congr fun e he => ⟨fun hlater hle => ?_, fun hall hle => hall (by omega)⟩
      have hwithin := hout e he
      simp only [isWithin, Bool.and_eq_true, decide_eq_true_eq] at hwithin
      by_cases hhere : e.start = byteLength l
      · rw [Splits, hhere, htext, floorBoundary_append]
        exact Nat.lt_irrefl _
      · exact hlater (by omega)
    · rename_i hsome
      obtain ⟨e, he, hwithin⟩ : ∃ e ∈ edits, isWithin (byteLength l) c e = true := by simpa using hsome
      simp only [isWithin, Bool.and_eq_true, decide_eq_true_eq] at hwithin
      have hsplits : e.Splits text := by
        rw [Splits, htext, floorBoundary_within (Nat.le_of_lt hwithin.1) hwithin.2]
        exact hwithin.1
      refine iff_of_false (fun heq => ?_) fun hall =>
        hall e he (Nat.le_of_lt hwithin.1) hsplits
      have hshort := (kept_pieces_sublist edits (byteLength l + c.utf8Size) cs).length_le
      rw [heq, List.length_cons] at hshort
      omega

/-! ## Insertions that fail -/

/-- Splicing of ranges within a text fails at one that ends behind the beginning of a range spliced before it. -/
theorem spliceDown_error {r after : List Char} {es : List Edit} {x : EditError} (htext : text = l ++ r)
    (hfits : ∀ e ∈ es, e.Fits (byteLength text)) (hes : es.Pairwise Precedes)
    (h : spliceDown text (byteLength text) (.behind l after) es = .error x) :
    ∃ e ∈ es, x = .overlapping (floorBoundary text e.start) (ceilBoundary text e.stop) ∧
      (byteLength l < e.stop ∨ ∃ f ∈ es, Precedes f e ∧ floorBoundary text f.start < e.stop) := by
  induction es generalizing l r after with
  | nil => cases h
  | cons e es ih =>
    obtain ⟨hfit, hfits⟩ := List.forall_mem_cons.1 hfits
    obtain ⟨hfirst, hes⟩ := List.pairwise_cons.1 hes
    have hin : ¬ (e.stop < e.start || byteLength text < e.stop) = true := by
      simpa using ⟨Nat.not_lt.1 (Nat.not_lt.2 hfit.1), hfit.2⟩
    rw [spliceDown, if_neg hin, Cut.offset_behind] at h
    split at h
    · rename_i hstop
      obtain rfl := Except.error.inj h
      exact ⟨e, List.mem_cons_self, rfl, .inl hstop⟩
    · rename_i hstop
      obtain ⟨l₀, m, k, hl, hlow, -, hcut⟩ := Cut.apply_behind r after hfit.1 (Nat.not_lt.1 hstop)
      rw [hcut] at h
      have hrest : text = l₀ ++ (m ++ (k ++ r)) := by rw [htext, hl, List.append_assoc, List.append_assoc]
      obtain ⟨e', he', hx, hcause⟩ := ih hrest hfits hes h
      refine ⟨e', List.mem_cons_of_mem _ he', hx, .inr ?_⟩
      rcases hcause with hlt | ⟨f, hf, hbefore, hlt⟩
      · rw [← hlow, ← htext] at hlt
        exact ⟨e, List.mem_cons_self, hfirst e' he', hlt⟩
      · exact ⟨f, List.mem_cons_of_mem _ hf, hbefore, hlt⟩

/-- Edits within a text that fail do so at two that overlap. -/
theorem applyEdits_overlap {text : String} {x : EditError} (h : ∀ e ∈ edits, e.Fits (byteLength text.toList))
    (hrun : applyEdits text edits = .error x) :
    ∃ e ∈ edits, ∃ f ∈ edits, x = .overlapping (floorBoundary text.toList e.start) (ceilBoundary text.toList e.stop) ∧
      Precedes f e ∧ floorBoundary text.toList f.start < e.stop := by
  have hmem : ∀ e, e ∈ applied edits ↔ e ∈ edits := fun e => (applied_perm edits).mem_iff
  have hfits : ∀ e ∈ applied edits, e.Fits (byteLength text.toList) := fun e he => h e ((hmem e).1 he)
  rw [applyEdits_eq] at hrun
  cases hsplice : spliceDown text.toList (byteLength text.toList) (.behind text.toList []) (applied edits) with
  | ok c =>
    rw [hsplice] at hrun
    cases hrun
  | error y =>
    rw [hsplice] at hrun
    obtain rfl := Except.error.inj hrun
    obtain ⟨e, he, rfl, hcause⟩ :=
      spliceDown_error (List.append_nil text.toList).symm hfits (applied_pairwise edits) hsplice
    rcases hcause with hlt | ⟨f, hf, hbefore, hlt⟩
    · exact absurd (hfits e he).2 (Nat.not_le.2 hlt)
    · exact ⟨e, (hmem e).1 he, f, (hmem f).1 hf, rfl, hbefore, hlt⟩

/-- Insertions that fail overlap at a character that one of them splits. -/
theorem applyEdits_crowded {text : String} (h : ∀ e ∈ edits, e.IsInsertion (byteLength text.toList))
    (hcrowded : ¬ Uncrowded text.toList edits) :
    ∃ l c r, text.toList = l ++ c :: r ∧ (∃ e ∈ edits, isWithin (byteLength l) c e = true) ∧
      applyEdits text edits = .error (.overlapping (byteLength l) (byteLength l + c.utf8Size)) := by
  cases hrun : applyEdits text edits with
  | ok out => exact absurd ((compatible_iff_uncrowded h).1 (applyEdits_eq_ok.1 hrun).1) hcrowded
  | error x =>
    obtain ⟨e, he, f, hf, rfl, hbefore, hlt⟩ := applyEdits_overlap (fun e he => (h e he).fits) hrun
    obtain ⟨hestart, hestop⟩ := h e he
    obtain ⟨hfstart, hfstop⟩ := h f hf
    have hle : e.start ≤ f.start := by rw [Precedes] at hbefore; omega
    -- the one applied first begins inside a character: at a boundary it would not reach behind the other one
    rcases boundary_or_within (hfstart ▸ hfstop) with ⟨l, r, htext, hl⟩ | ⟨l, c, r, htext, hlow, hhigh⟩
    · rw [hl, htext, floorBoundary_append] at hlt
      omega
    · rw [htext, floorBoundary_within (Nat.le_of_lt hlow) hhigh, ← hestart] at hlt
      refine ⟨l, c, r, htext, ⟨e, he, by simp [isWithin]; omega⟩, ?_⟩
      rw [htext, ← hestart, floorBoundary_within (Nat.le_of_lt hlt) (by omega), ceilBoundary_within hlt (by omega)]

/-- Insertions that lie in a text succeed exactly if no two of them split the same character. The text that comes of them
is read off its pieces: each insertion is put in once, at its offset and behind those given before it, and what is left
without them is the text itself exactly if none of them splits a character; a character that is split is lost. -/
theorem applyEdits_insertions (text : String) {edits : List Edit}
    (h : ∀ e ∈ edits, e.IsInsertion (byteLength text.toList)) :
    (Uncrowded text.toList edits →
      applyEdits text edits = .ok (String.ofList (written (pieces edits 0 text.toList))) ∧
        (putIn (pieces edits 0 text.toList)).Perm edits) ∧
    (¬ Uncrowded text.toList edits →
      ∃ l c r, text.toList = l ++ c :: r ∧ (∃ e ∈ edits, isWithin (byteLength l) c e = true) ∧
        applyEdits text edits = .error (.overlapping (byteLength l) (byteLength l + c.utf8Size))) ∧
    (kept (pieces edits 0 text.toList) = text.toList ↔ ∀ e ∈ edits, ¬ e.Splits text.toList) ∧
    ((∀ e ∈ edits, ¬ e.Splits text.toList) → Uncrowded text.toList edits) := by
  have htext : text.toList = [] ++ text.toList := rfl
  refine ⟨fun hun => ⟨?_, ?_⟩, applyEdits_crowded h, ?_, uncrowded_of_forall⟩
  · rw [applyEdits_eq_ok]
    have hread := readThrough_insertions htext h (Nat.le_refl 0)
    exact ⟨(compatible_iff_uncrowded h).2 hun, congrArg String.ofList hread.symm⟩
  · have hperm := putIn_pieces_perm htext h hun
    rwa [List.filter_eq_self.2 fun e _ => by simp [byteLength]] at hperm
  · have hkept := kept_pieces_eq_iff htext h
    simpa [byteLength] using hkept

/-- Two insertions before a character of four bytes, one inside it and one behind it. -/
theorem applyEdits_insertions_rocket :
    let edits : List Edit := [.insert 3 "X", .insert 1 "<", .insert 5 ">", .insert 1 "("]
    (∀ e ∈ edits, e.IsInsertion (byteLength "a🚀b".toList)) ∧ applyEdits "a🚀b" edits = .ok "a<(X>b" ∧
      kept (pieces edits 0 "a🚀b".toList) ≠ "a🚀b".toList := by
  intro edits
  have hin : ∀ e ∈ edits, e.IsInsertion (byteLength "a🚀b".toList) := by decide
  obtain ⟨hrun, -, hkept, -⟩ := applyEdits_insertions "a🚀b" hin
  have hwritten : String.ofList (written (pieces edits 0 "a🚀b".toList)) = "a<(X>b" := by decide +kernel
  refine ⟨hin, hwritten ▸ (hrun (by decide +kernel)).1, fun heq => ?_⟩
  exact hkept.1 heq (.insert 3 "X") (by decide) (by decide +kernel)

end Pieces

end TreeRepair.Text
