import Mathlib.Data.List.Induction
import Mathlib.Data.List.Sort
import TreeRepair.Text.Edit
import TreeRepair.Proofs.Text.Boundaries

/-! Edits as one simultaneous splicing. The ranges, widened outward to boundaries, are replaced while the text is
read once from left to right; this is what comes of splicing them one after another into the text that the later
ones have left, and it comes to a result exactly if no two ranges share a byte. -/

set_option autoImplicit false

namespace TreeRepair.Text

namespace Edit

/-- Whether the range of an edit runs forwards and ends within `length` bytes. -/
def Fits (length : Nat) (e : Edit) : Prop := e.start ≤ e.stop ∧ e.stop ≤ length

/-- An edit with its range widened outward to boundaries. -/
def widen (text : List Char) (e : Edit) : Edit :=
  ⟨floorBoundary text e.start, ceilBoundary text e.stop, e.replacement⟩

/-- Whether one of two ranges ends at or before the start of the other. -/
def Apart (e f : Edit) : Prop := e.stop ≤ f.start ∨ f.stop ≤ e.start

instance (length : Nat) (e : Edit) : Decidable (e.Fits length) := inferInstanceAs (Decidable (_ ∧ _))

instance (e f : Edit) : Decidable (Apart e f) := inferInstanceAs (Decidable (_ ∨ _))

/-- Whether all ranges lie in a text and no two of them share a byte once they are widened. -/
def Compatible (text : List Char) (edits : List Edit) : Prop :=
  (∀ e ∈ edits, e.Fits (byteLength text)) ∧ (edits.map (widen text)).Pairwise Apart

instance (text : List Char) (edits : List Edit) : Decidable (Compatible text edits) := inferInstanceAs (Decidable (_ ∧ _))

/-- The insertions at an offset, in their given order. -/
def insertionsAt (n : Nat) (edits : List Edit) : List Edit := edits.filter fun e => e.start == n && e.stop == n

/-- The edit that replaces the text from an offset on. -/
def replacementAt? (n : Nat) (edits : List Edit) : Option Edit := edits.find? fun e => e.start == n && n < e.stop

/-- The texts that edits put in, one after another. -/
def texts (edits : List Edit) : List Char := edits.flatMap (·.replacement.toList)

end Edit

open Edit

/-- Reads a text from `offset` on, from left to right. Up to `resume` it is skipped, since a range replaced
it; elsewhere the insertions come first, then the replacement that starts here or else the character itself. -/
def readThrough (ws : List Edit) : Nat → Nat → List Char → List Char
  | offset, _, [] => texts (insertionsAt offset ws)
  | offset, resume, c :: cs =>
    if offset < resume then readThrough ws (offset + c.utf8Size) resume cs
    else
      texts (insertionsAt offset ws) ++
        match replacementAt? offset ws with
        | none => c :: readThrough ws (offset + c.utf8Size) resume cs
        | some w => w.replacement.toList ++ readThrough ws (offset + c.utf8Size) w.stop cs

/-- A text with all edits spliced in at once. -/
def spliceAll (text : List Char) (edits : List Edit) : List Char := readThrough (edits.map (widen text)) 0 0 text

/-! ## Reading -/

section Reading

variable {ws vs : List Edit} {e : Edit} {offset resume n : Nat}

theorem insertionsAt_eq_nil (h : ∀ w ∈ ws, w.start ≠ n) : insertionsAt n ws = [] := by
  rw [insertionsAt, List.filter_eq_nil_iff]
  intro w hw
  simp [h w hw]

theorem replacementAt?_eq_none (h : ∀ w ∈ ws, w.start ≠ n) : replacementAt? n ws = none := by
  rw [replacementAt?, List.find?_eq_none]
  intro w hw
  simp [h w hw]

theorem readThrough_skip (m r : List Char) (h : offset + byteLength m = resume) :
    readThrough ws offset resume (m ++ r) = readThrough ws resume resume r := by
  induction m generalizing offset with
  | nil =>
    obtain rfl : offset = resume := h
    rfl
  | cons c m ih =>
    have hpos := c.utf8Size_pos
    rw [byteLength] at h
    rw [List.cons_append, readThrough, if_pos (by omega), ih (by omega)]

theorem readThrough_copy (k r : List Char) (hresume : resume ≤ offset)
    (h : ∀ w ∈ ws, w.start < offset ∨ offset + byteLength k ≤ w.start) :
    readThrough ws offset resume (k ++ r) = k ++ readThrough ws (offset + byteLength k) resume r := by
  induction k generalizing offset with
  | nil => rfl
  | cons c k ih =>
    have hpos := c.utf8Size_pos
    have hlen : byteLength (c :: k) = c.utf8Size + byteLength k := rfl
    have hnone : ∀ w ∈ ws, w.start ≠ offset := fun w hw => by have := h w hw; omega
    have hrest : readThrough ws (offset + c.utf8Size) resume (k ++ r) =
        k ++ readThrough ws (offset + c.utf8Size + byteLength k) resume r :=
      ih (by omega) fun w hw => by have := h w hw; omega
    rw [List.cons_append, readThrough, if_neg (by omega), insertionsAt_eq_nil hnone, replacementAt?_eq_none hnone, hrest,
      hlen, Nat.add_assoc]
    rfl

/-- Reading depends on the edits from its offset on only, and on the end of a replaced range only within it. -/
theorem readThrough_congr {resume' : Nat} (r : List Char) (h : resume = resume' ∨ resume ≤ offset ∧ resume' ≤ offset)
    (hins : ∀ n, offset ≤ n → insertionsAt n ws = insertionsAt n vs)
    (hrep : ∀ n, offset ≤ n → replacementAt? n ws = replacementAt? n vs) :
    readThrough ws offset resume r = readThrough vs offset resume' r := by
  induction r generalizing offset resume resume' with
  | nil => rw [readThrough, readThrough, hins offset (Nat.le_refl _)]
  | cons c r ih =>
    have hins' : ∀ n, offset + c.utf8Size ≤ n → insertionsAt n ws = insertionsAt n vs := fun n hn => hins n (by omega)
    have hrep' : ∀ n, offset + c.utf8Size ≤ n → replacementAt? n ws = replacementAt? n vs := fun n hn => hrep n (by omega)
    rw [readThrough, readThrough, hins offset (Nat.le_refl _), hrep offset (Nat.le_refl _)]
    have hrest : readThrough ws (offset + c.utf8Size) resume r = readThrough vs (offset + c.utf8Size) resume' r :=
      ih (by omega) hins' hrep'
    by_cases hskip : offset < resume
    · rw [if_pos hskip, if_pos (by omega), hrest]
    · rw [if_neg hskip, if_neg (by omega)]
      cases replacementAt? offset vs with
      | none => rw [hrest]
      | some w =>
        simp only
        rw [ih (.inl rfl) hins' hrep']

theorem insertionsAt_cons_of_ne (h : ¬ (e.start = n ∧ e.stop = n)) : insertionsAt n (e :: ws) = insertionsAt n ws :=
  List.filter_cons_of_neg (by simpa using h)

theorem replacementAt?_cons_of_ne (h : ¬ (e.start = n ∧ n < e.stop)) : replacementAt? n (e :: ws) = replacementAt? n ws :=
  List.find?_cons_of_neg (by simpa using h)

theorem readThrough_cons_of_lt (r : List Char) (hresume : resume ≤ offset) (h : e.start < offset) :
    readThrough (e :: ws) offset resume r = readThrough ws offset 0 r :=
  readThrough_congr r (.inr ⟨hresume, Nat.zero_le _⟩) (fun n hn => insertionsAt_cons_of_ne (by omega))
    fun n hn => replacementAt?_cons_of_ne (by omega)

theorem readThrough_insertion (r : List Char) (hstart : e.start = offset) (hstop : e.stop = offset) :
    readThrough (e :: ws) offset 0 r = e.replacement.toList ++ readThrough ws offset 0 r := by
  have hins : texts (insertionsAt offset (e :: ws)) = e.replacement.toList ++ texts (insertionsAt offset ws) := by
    rw [insertionsAt, List.filter_cons_of_pos (by simp [hstart, hstop])]
    rfl
  cases r with
  | nil => rw [readThrough, readThrough, hins]
  | cons c r =>
    have hpos := c.utf8Size_pos
    rw [readThrough, readThrough, if_neg (by omega), if_neg (by omega), hins, replacementAt?_cons_of_ne (by omega),
      List.append_assoc, readThrough_cons_of_lt r (Nat.zero_le _) (by omega)]
    cases replacementAt? offset ws with
    | none => rfl
    | some w =>
      simp only
      have hsame : readThrough (e :: ws) (offset + c.utf8Size) w.stop r = readThrough ws (offset + c.utf8Size) w.stop r :=
        readThrough_congr r (.inl rfl) (fun n hn => insertionsAt_cons_of_ne (by omega))
          fun n hn => replacementAt?_cons_of_ne (by omega)
      rw [hsame]

/-- One more edit, before all others: its text comes in the place of its range, and what lies between it and the
others is copied. -/
theorem readThrough_cons {m k : List Char} (r : List Char) (hm : e.start + byteLength m = e.stop)
    (hws : ∀ w ∈ ws, e.stop + byteLength k ≤ w.start) :
    readThrough (e :: ws) e.start 0 (m ++ (k ++ r)) =
      e.replacement.toList ++ (k ++ readThrough ws (e.stop + byteLength k) 0 r) := by
  cases m with
  | nil =>
    have hstop : e.stop = e.start := hm.symm
    rw [List.nil_append, readThrough_insertion _ rfl hstop, hstop,
      readThrough_copy k r (Nat.zero_le _) fun w hw => .inr (hstop ▸ hws w hw)]
  | cons c m =>
    have hpos := c.utf8Size_pos
    have hlen : byteLength (c :: m) = c.utf8Size + byteLength m := rfl
    have hlater : ∀ w ∈ ws, w.start ≠ e.start := fun w hw => by have := hws w hw; omega
    have hfound : replacementAt? e.start (e :: ws) = some e := List.find?_cons_of_pos (by simp; omega)
    have hcopied : ∀ w ∈ e :: ws, w.start < e.stop ∨ e.stop + byteLength k ≤ w.start := by
      intro w hw
      rcases List.mem_cons.1 hw with rfl | hw
      · exact .inl (by omega)
      · exact .inr (hws w hw)
    rw [List.cons_append, readThrough, if_neg (by omega), insertionsAt_cons_of_ne (by omega), insertionsAt_eq_nil hlater,
      hfound]
    simp only
    rw [readThrough_skip m _ (by omega), readThrough_copy k r (Nat.le_refl _) hcopied,
      readThrough_cons_of_lt r (by omega) (by omega)]
    rfl

end Reading

/-! ## One splice -/

/-- The cut behind a start of a text. -/
def Cut.behind (l after : List Char) : Cut := ⟨l.reverse, byteLength l, after⟩

namespace Cut

theorem toText_behind (l after : List Char) : (behind l after).toText = l ++ after := by
  rw [toText, behind, List.reverseAux_eq, List.reverse_reverse]

theorem offset_behind (l after : List Char) : (behind l after).offset = byteLength l := rfl

theorem keepFrom_eq (l after : List Char) (n : Nat) :
    ∃ k, l = coverBytes l n ++ k ∧ keepFrom n l.reverse (byteLength l) after = behind (coverBytes l n) (k ++ after) := by
  induction l using List.reverseRecOn generalizing after with
  | nil => exact ⟨[], rfl, rfl⟩
  | append_singleton l c ih =>
    have hlen := byteLength_concat l c
    rw [List.reverse_append, List.reverse_singleton, List.singleton_append, keepFrom, coverBytes_concat]
    by_cases hn : n ≤ byteLength l
    · obtain ⟨k, hk, hcut⟩ := ih (c :: after)
      rw [if_pos hn, if_pos (by omega), hlen, Nat.add_sub_cancel, hcut]
      exact ⟨k ++ [c], by rw [← List.append_assoc, ← hk], by rw [List.append_assoc, List.singleton_append]⟩
    · rw [if_neg hn, if_neg (by omega)]
      exact ⟨[], (List.append_nil _).symm, by rw [behind, List.reverse_append]; rfl⟩

theorem dropFrom_eq (l after : List Char) (n : Nat) :
    dropFrom n l.reverse (byteLength l) after = behind (takeBytes l n) after := by
  induction l using List.reverseRecOn with
  | nil => rfl
  | append_singleton l c ih =>
    have hlen := byteLength_concat l c
    rw [List.reverse_append, List.reverse_singleton, List.singleton_append, dropFrom, takeBytes_concat]
    by_cases hn : n < byteLength (l ++ [c])
    · rw [if_pos hn, if_neg (by omega), hlen, Nat.add_sub_cancel, ih]
    · rw [if_neg hn, if_pos (by omega), behind, List.reverse_append]
      rfl

/-- One splice before the cut: the text up to the widened range stays, its replacement and what lies between the
range and the cut go behind the cut. -/
theorem apply_behind {l : List Char} (r after : List Char) {e : Edit} (hstart : e.start ≤ e.stop)
    (hstop : e.stop ≤ byteLength l) : ∃ l₀ m k, l = l₀ ++ (m ++ k) ∧ (e.widen (l ++ r)).start = byteLength l₀ ∧
      (e.widen (l ++ r)).stop = byteLength l₀ + byteLength m ∧
      (behind l after).apply e = behind l₀ (e.replacement.toList ++ (k ++ after)) := by
  obtain ⟨m, hm⟩ := takeBytes_prefix_coverBytes l hstart
  obtain ⟨k, hk, hkeep⟩ := keepFrom_eq l after e.stop
  have hlow : e.start ≤ byteLength (coverBytes l e.stop) := Nat.le_trans hstart (le_byteLength_coverBytes hstop)
  have htake : takeBytes (coverBytes l e.stop) e.start = takeBytes l e.start := by
    conv_rhs => rw [hk]
    rw [takeBytes_append k hlow]
  refine ⟨takeBytes l e.start, m, k, ?_, ?_, ?_, ?_⟩
  · rw [← List.append_assoc, hm, ← hk]
  · rw [widen, floorBoundary, takeBytes_append r (Nat.le_trans hstart hstop)]
  · rw [widen, ceilBoundary_eq, coverBytes_append r hstop, ← hm, byteLength_append]
  · have hback : (behind l after).backTo e.stop = behind (coverBytes l e.stop) (k ++ after) := hkeep
    have hdrop : dropFrom e.start (coverBytes l e.stop).reverse (byteLength (coverBytes l e.stop)) (k ++ after) =
        behind (takeBytes l e.start) (k ++ after) := by rw [dropFrom_eq, htake]
    rw [apply, hback, replaceFrom]
    simp only [behind] at hdrop ⊢
    rw [hdrop]

end Cut

/-! ## All splices -/

/-- Whether the widened ranges run back through a text, each of them ending at or before the start of the one
before it. -/
def Descends (text : List Char) : Nat → List Edit → Prop
  | _, [] => True
  | bound, e :: rest => (e.widen text).stop ≤ bound ∧ Descends text (e.widen text).start rest

/-- Ranges that run back through a text are spliced in, one before the other. -/
theorem spliceDown_of_descends {text l r after : List Char} {ws es : List Edit} (htext : text = l ++ r)
    (hws : ∀ w ∈ ws, byteLength l ≤ w.start) (hafter : after = readThrough ws (byteLength l) 0 r)
    (hfits : ∀ e ∈ es, e.Fits (byteLength text)) (hdown : Descends text (byteLength l) es) :
    ∃ c, spliceDown text (byteLength text) (.behind l after) es = .ok c ∧
      c.toText = readThrough ((es.map (widen text)).reverse ++ ws) 0 0 text := by
  induction es generalizing l r after ws with
  | nil =>
    refine ⟨_, rfl, ?_⟩
    have hcopied : readThrough ws 0 0 (l ++ r) = l ++ readThrough ws (0 + byteLength l) 0 r :=
      readThrough_copy l r (Nat.le_refl 0) fun w hw => .inr (by simpa using hws w hw)
    rw [Cut.toText_behind, hafter, htext, List.map_nil, List.reverse_nil, List.nil_append, hcopied, Nat.zero_add]
  | cons e es ih =>
    obtain ⟨hforward, hlength⟩ := hfits e (List.mem_cons_self ..)
    obtain ⟨hbound, hdown⟩ := hdown
    have hstop : e.stop ≤ byteLength l := by
      rw [widen, htext, ceilBoundary_le_iff l r (htext ▸ hlength)] at hbound
      exact hbound
    obtain ⟨l₀, m, k, hl, hlow, hhigh, hcut⟩ := Cut.apply_behind r after hforward hstop
    rw [← htext] at hlow hhigh
    have hbytes : byteLength l = byteLength l₀ + (byteLength m + byteLength k) := by
      rw [hl, byteLength_append, byteLength_append]
    have hread : e.replacement.toList ++ (k ++ after) = readThrough (e.widen text :: ws) (byteLength l₀) 0 (m ++ (k ++ r)) := by
      have hlast : (e.widen text).stop + byteLength k = byteLength l := by omega
      rw [← hlow, readThrough_cons r (by omega) fun w hw => hlast ▸ hws w hw, hlast, ← hafter]
      rfl
    obtain ⟨c, hrun, hresult⟩ := ih (l := l₀) (r := m ++ (k ++ r))
      (by rw [htext, hl, List.append_assoc, List.append_assoc]) (fun w hw => by
        rcases List.mem_cons.1 hw with rfl | hw
        · exact Nat.le_of_eq hlow.symm
        · have := hws w hw
          omega) hread (fun f hf => hfits f (List.mem_cons_of_mem _ hf)) (hlow ▸ hdown)
    refine ⟨c, ?_, ?_⟩
    · rw [spliceDown, if_neg (by simp; omega), Cut.offset_behind, if_neg (Nat.not_lt.2 hstop), hcut, hrun]
    · rw [hresult, List.map_cons, List.reverse_cons, List.append_assoc, List.singleton_append]

/-- Splicing comes to a result only if all ranges lie in the text and run back through it. -/
theorem descends_of_spliceDown {text l r after : List Char} {es : List Edit} {c : Cut} (htext : text = l ++ r)
    (h : spliceDown text (byteLength text) (.behind l after) es = .ok c) :
    (∀ e ∈ es, e.Fits (byteLength text)) ∧ Descends text (byteLength l) es := by
  induction es generalizing l r after with
  | nil => exact ⟨fun e he => absurd he List.not_mem_nil, trivial⟩
  | cons e es ih =>
    rw [spliceDown] at h
    split at h
    · cases h
    · rename_i hfits
      simp only [Bool.or_eq_true, decide_eq_true_eq, not_or, Nat.not_lt] at hfits
      split at h
      · cases h
      · rename_i hstop
        have hstop : e.stop ≤ byteLength l := Nat.not_lt.1 hstop
        obtain ⟨l₀, m, k, hl, hlow, -, hcut⟩ := Cut.apply_behind r after hfits.1 hstop
        rw [← htext] at hlow
        rw [hcut] at h
        obtain ⟨hrest, hdown⟩ := ih (r := m ++ (k ++ r)) (by rw [htext, hl, List.append_assoc, List.append_assoc]) h
        have hbound : (e.widen text).stop ≤ byteLength l := by
          rw [widen, htext]
          exact (ceilBoundary_le_iff l r (htext ▸ hfits.2)).2 hstop
        exact ⟨List.forall_mem_cons.2 ⟨hfits, hrest⟩, hbound, hlow ▸ hdown⟩

/-! ## The order of application -/

namespace Edit

/-- Whether an edit is applied before another one, as far as their ranges decide it. -/
def Precedes (e f : Edit) : Prop := f.start < e.start ∨ f.start = e.start ∧ (e.start = e.stop → f.start = f.stop)

variable {x y : Nat × Edit}

theorem comesBefore_iff : comesBefore x y = true ↔
    y.2.start < x.2.start ∨ y.2.start = x.2.start ∧
      ((x.2.start ≠ x.2.stop ∧ y.2.start = y.2.stop) ∨ ((x.2.start = x.2.stop ↔ y.2.start = y.2.stop) ∧ y.1 ≤ x.1)) := by
  unfold comesBefore
  by_cases hs : x.2.start = y.2.start
  · by_cases hx : x.2.start = x.2.stop <;> by_cases hy : y.2.start = y.2.stop <;> simp_all
  · simp only [ne_eq, hs, not_false_eq_true, if_true, decide_eq_true_eq]
    omega

theorem comesBefore_trans (x y z : Nat × Edit) (hxy : comesBefore x y = true) (hyz : comesBefore y z = true) :
    comesBefore x z = true := by
  rw [comesBefore_iff] at *
  omega

theorem comesBefore_total (x y : Nat × Edit) : (comesBefore x y || comesBefore y x) = true := by
  rw [Bool.or_eq_true, comesBefore_iff, comesBefore_iff]
  omega

theorem ordered_pairwise (edits : List Edit) : (ordered edits).Pairwise fun x y => comesBefore x y = true :=
  List.pairwise_mergeSort comesBefore_trans comesBefore_total _

theorem ordered_perm (edits : List Edit) : (ordered edits).Perm ((List.range edits.length).zip edits) :=
  List.mergeSort_perm _ _

/-- The edits in order of application. -/
def applied (edits : List Edit) : List Edit := (ordered edits).map (·.2)

theorem applied_perm (edits : List Edit) : (applied edits).Perm edits := by
  have hperm := (ordered_perm edits).map Prod.snd
  rwa [List.map_snd_zip (by simp)] at hperm

theorem applied_pairwise (edits : List Edit) : (applied edits).Pairwise Precedes := by
  refine List.pairwise_map.2 ((ordered_pairwise edits).imp fun {x y} h => ?_)
  rw [comesBefore_iff] at h
  rw [Precedes]
  omega

theorem filter_applied {edits : List Edit} {q : Edit → Bool} {n : Nat}
    (h : ∀ e ∈ edits, q e = true → e.start = n ∧ e.stop = n) : (applied edits).reverse.filter q = edits.filter q := by
  have hindices : ((List.range edits.length).zip edits).map Prod.fst = List.range edits.length := List.map_fst_zip (by simp)
  have hgiven : (((List.range edits.length).zip edits).filter (q ∘ Prod.snd)).Pairwise fun x y => x.1 ≤ y.1 := by
    have hlt : (((List.range edits.length).zip edits).map Prod.fst).Pairwise (· < ·) := by
      rw [hindices]
      exact List.pairwise_lt_range
    exact ((List.pairwise_map.1 hlt).imp Nat.le_of_lt).filter _
  have hmem : ∀ x ∈ (ordered edits).filter (q ∘ Prod.snd), x.2.start = n ∧ x.2.stop = n := by
    intro x hx
    obtain ⟨hx, hq⟩ := List.mem_filter.1 hx
    exact h x.2 (List.of_mem_zip ((ordered_perm edits).subset hx)).2 hq
  have happlied : ((ordered edits).filter (q ∘ Prod.snd)).reverse.Pairwise fun x y => x.1 ≤ y.1 := by
    refine List.pairwise_reverse.2 (((ordered_pairwise edits).filter _).imp_of_mem fun {x y} hx hy hxy => ?_)
    have hx := hmem x hx
    have hy := hmem y hy
    rw [comesBefore_iff] at hxy
    omega
  have hperm : ((ordered edits).filter (q ∘ Prod.snd)).reverse.Perm
      (((List.range edits.length).zip edits).filter (q ∘ Prod.snd)) :=
    (List.reverse_perm _).trans ((ordered_perm edits).filter _)
  have heq := hperm.eq_of_pairwise (fun x y hx hy hxy hyx => ?_) happlied hgiven
  · have hzip : edits.filter q = (((List.range edits.length).zip edits).map Prod.snd).filter q := by
      rw [List.map_snd_zip (by simp)]
    rw [applied, ← List.map_reverse, List.filter_map, List.filter_reverse, heq, hzip, List.filter_map]
  · have hinj := List.inj_on_of_nodup_map (f := Prod.fst) (hindices ▸ List.nodup_range)
    exact hinj (List.mem_filter.1 (hperm.subset hx)).1 (List.mem_filter.1 hy).1 (Nat.le_antisymm hxy hyx)

/-! ## Ranges apart -/

variable {text : List Char} {e f : Edit}

theorem Fits.widen_le (h : e.Fits (byteLength text)) : (e.widen text).start ≤ (e.widen text).stop := by
  have hlow := floorBoundary_le text e.start
  have hhigh := le_ceilBoundary h.2
  have hforward := h.1
  simp only [widen]
  omega

theorem Fits.of_widen_eq {n : Nat} (h : e.Fits (byteLength text)) (hstart : (e.widen text).start = n)
    (hstop : (e.widen text).stop = n) : e.start = n ∧ e.stop = n := by
  have hlow := floorBoundary_le text e.start
  have hhigh := le_ceilBoundary h.2
  have hforward := h.1
  simp only [widen] at hstart hstop
  omega

theorem Apart.symm (h : Apart e f) : Apart f e := Or.symm h

theorem Apart.stop_le (h : (e.widen text).Apart (f.widen text)) (hef : Precedes e f) (he : e.Fits (byteLength text)) : (f.widen text).stop ≤ (e.widen text).start := by
  rcases h with h | h
  · have hmono : (f.widen text).start ≤ (e.widen text).start :=
      floorBoundary_mono text (by rw [Precedes] at hef; omega)
    have hwide := he.widen_le
    obtain ⟨hestart, hestop⟩ := he.of_widen_eq (n := (f.widen text).start) (by omega) (by omega)
    have hlow : (f.widen text).start ≤ f.start := floorBoundary_le text f.start
    -- both ranges start at the boundary at which `e` inserts, so `f` inserts there as well
    have hstop : f.stop = e.stop := by rw [Precedes] at hef; omega
    have heq : (f.widen text).stop = (e.widen text).stop := congrArg (ceilBoundary text) hstop
    omega
  · exact h

theorem descends_iff {es : List Edit} {bound : Nat} (hfits : ∀ e ∈ es, e.Fits (byteLength text)) (hes : es.Pairwise Precedes) :
    Descends text bound es ↔ (∀ e ∈ es, (e.widen text).stop ≤ bound) ∧ (es.map (widen text)).Pairwise Apart := by
  induction es generalizing bound with
  | nil => simp [Descends]
  | cons e es ih =>
    obtain ⟨hfirst, hrest⟩ := List.pairwise_cons.1 hes
    obtain ⟨hfit, hfits⟩ := List.forall_mem_cons.1 hfits
    have hwide := hfit.widen_le
    rw [Descends, ih hfits hrest, List.map_cons, List.pairwise_cons, List.forall_mem_cons]
    constructor
    · rintro ⟨hbound, hbelow, hapart⟩
      refine ⟨⟨hbound, fun f hf => ?_⟩, fun w hw => ?_, hapart⟩
      · have := hbelow f hf
        omega
      · obtain ⟨f, hf, rfl⟩ := List.mem_map.1 hw
        exact .inr (hbelow f hf)
    · rintro ⟨⟨hbound, -⟩, hfar, hapart⟩
      refine ⟨hbound, fun f hf => ?_, hapart⟩
      exact (hfar _ (List.mem_map_of_mem hf)).stop_le (hfirst f hf) hfit

theorem replacementAt?_perm {ws vs : List Edit} (n : Nat) (hperm : ws.Perm vs) (hapart : ws.Pairwise Apart) :
    replacementAt? n ws = replacementAt? n vs := by
  have hnever : ∀ {us : List Edit}, us.Pairwise Apart →
      (us.filter fun e => e.start == n && n < e.stop).Pairwise fun _ _ => False := by
    intro us hus
    refine (hus.filter _).imp_of_mem fun {e f} he hf hef => ?_
    simp only [List.mem_filter, Bool.and_eq_true, beq_iff_eq, decide_eq_true_eq] at he hf
    rw [Apart] at hef
    omega
  have hvs : vs.Pairwise Apart := (hperm.pairwise_iff fun h => Apart.symm h).1 hapart
  have heq := (hperm.filter _).eq_of_pairwise (fun _ _ _ _ h => h.elim) (hnever hapart) (hnever hvs)
  rw [replacementAt?, replacementAt?, ← List.head?_filter, heq, List.head?_filter]

theorem insertionsAt_applied {edits : List Edit} (hfits : ∀ e ∈ edits, e.Fits (byteLength text)) (n : Nat) :
    insertionsAt n ((applied edits).reverse.map (widen text)) = insertionsAt n (edits.map (widen text)) := by
  rw [insertionsAt, insertionsAt, List.filter_map, List.filter_map, filter_applied (n := n)]
  intro e he hq
  simp only [Function.comp_apply, Bool.and_eq_true, beq_iff_eq] at hq
  exact (hfits e he).of_widen_eq hq.1 hq.2

end Edit

/-! ## Splicing in place -/

/-- A text with what lies between two of its boundaries replaced; nothing for offsets that are no boundaries of it
in order. -/
def replaceRange? (text : List Char) (start stop : Nat) (replacement : List Char) : Option (List Char) :=
  if start ≤ stop then
    match splitAt? text start, splitAt? text stop with
    | some (front, _), some (_, back) => some (front ++ (replacement ++ back))
    | _, _ => none
  else none

/-- Splices edits into a text that already holds the later ones, whose ranges begin at `bound`. The boundaries are
those of the text as given; nothing comes of it if they are none of the text as it is by then. -/
def spliceInto? (text : List Char) : List Char → Nat → List Edit → Option (Except EditError (List Char))
  | out, _, [] => some (.ok out)
  | out, bound, e :: rest =>
    if e.stop < e.start || byteLength text < e.stop then some (.error (.outOfBounds e.start e.stop (byteLength text)))
    else
      let w := e.widen text
      if bound < w.stop then some (.error (.overlapping w.start w.stop))
      else
        match replaceRange? out w.start w.stop e.replacement.toList with
        | none => none
        | some next => spliceInto? text next w.start rest

/-- Splices edits one after another into a text, from the last to the first. -/
def spliceInPlace? (text : List Char) (edits : List Edit) : Option (Except EditError (List Char)) :=
  spliceInto? text text (byteLength text) (applied edits)

theorem replaceRange?_append (front middle back replacement : List Char) :
    replaceRange? (front ++ (middle ++ back)) (byteLength front) (byteLength front + byteLength middle) replacement =
      some (front ++ (replacement ++ back)) := by
  have hstop : splitAt? (front ++ (middle ++ back)) (byteLength front + byteLength middle) = some (front ++ middle, back) := by
    rw [← byteLength_append, ← List.append_assoc, splitAt?_append]
  rw [replaceRange?, if_pos (Nat.le_add_right ..), splitAt?_append, hstop]

theorem spliceInto?_eq {text l r : List Char} (htext : text = l ++ r) (after : List Char) (es : List Edit) :
    spliceInto? text (l ++ after) (byteLength l) es =
      some ((spliceDown text (byteLength text) (.behind l after) es).map Cut.toText) := by
  induction es generalizing l r after with
  | nil => rw [spliceInto?, spliceDown, Except.map, Cut.toText_behind]
  | cons e es ih =>
    rw [spliceInto?, spliceDown]
    split
    · rfl
    · rename_i hfits
      simp only [Bool.or_eq_true, decide_eq_true_eq, not_or, Nat.not_lt] at hfits
      have hiff : (e.widen text).stop ≤ byteLength l ↔ e.stop ≤ byteLength l := by
        rw [widen, htext]
        exact ceilBoundary_le_iff l r (htext ▸ hfits.2)
      by_cases hstop : e.stop ≤ byteLength l
      · obtain ⟨l₀, m, k, hl, hlow, hhigh, hcut⟩ := Cut.apply_behind r after hfits.1 hstop
        rw [← htext] at hlow hhigh
        have hfree : ¬ byteLength l < (e.widen text).stop := Nat.not_lt.2 (hiff.2 hstop)
        have hreplace : replaceRange? (l ++ after) (e.widen text).start (e.widen text).stop e.replacement.toList =
            some (l₀ ++ (e.replacement.toList ++ (k ++ after))) := by
          rw [hlow, hhigh, hl, List.append_assoc, List.append_assoc, replaceRange?_append]
        simp only
        rw [if_neg hfree, Cut.offset_behind, if_neg (Nat.not_lt.2 hstop), hreplace, hcut]
        simp only
        rw [hlow, ih (by rw [htext, hl, List.append_assoc, List.append_assoc])]
      · have htaken : byteLength l < (e.widen text).stop := Nat.lt_of_not_le fun h => hstop (hiff.1 h)
        simp only
        rw [if_pos htaken, Cut.offset_behind, if_pos (Nat.lt_of_not_le hstop)]
        rfl

/-! ## Edits of a text -/

theorem applyEdits_eq (text : String) (edits : List Edit) :
    applyEdits text edits = (spliceDown text.toList (byteLength text.toList) (.behind text.toList []) (applied edits)).map
      fun c => String.ofList c.toText := rfl

theorem spliceInPlace?_eq (text : String) (edits : List Edit) :
    spliceInPlace? text.toList edits = some ((applyEdits text edits).map String.toList) := by
  have hplace := spliceInto?_eq (List.append_nil text.toList).symm [] (applied edits)
  rw [List.append_nil] at hplace
  rw [spliceInPlace?, hplace, applyEdits_eq]
  cases spliceDown text.toList (byteLength text.toList) (.behind text.toList []) (applied edits) with
  | error e => rfl
  | ok c => simp [Except.map]

theorem Edit.Compatible.iff_descends {text : List Char} {edits : List Edit} : Compatible text edits ↔
    (∀ e ∈ applied edits, e.Fits (byteLength text)) ∧ Descends text (byteLength text) (applied edits) := by
  have hfits : (∀ e ∈ applied edits, e.Fits (byteLength text)) ↔ ∀ e ∈ edits, e.Fits (byteLength text) := by
    simp only [(applied_perm edits).mem_iff]
  have hapart : ((applied edits).map (widen text)).Pairwise Apart ↔ (edits.map (widen text)).Pairwise Apart :=
    ((applied_perm edits).map _).pairwise_iff fun h => Apart.symm h
  have hend : ∀ e ∈ applied edits, (e.widen text).stop ≤ byteLength text := by
    intro e _
    rw [widen, ceilBoundary_eq]
    exact byteLength_le_of_isPrefix (coverBytes_isPrefix text e.stop)
  rw [Compatible, ← hfits]
  refine and_congr_right fun h => ?_
  rw [descends_iff h (applied_pairwise edits), hapart, and_iff_right hend]

theorem Edit.Compatible.readThrough_applied {text : List Char} {edits : List Edit} (h : Compatible text edits) :
    readThrough ((applied edits).map (widen text)).reverse 0 0 text = spliceAll text edits := by
  have hperm : ((applied edits).reverse.map (widen text)).Perm (edits.map (widen text)) :=
    ((List.reverse_perm _).trans (applied_perm edits)).map _
  rw [← List.map_reverse]
  refine readThrough_congr text (.inl rfl) (fun n _ => insertionsAt_applied h.1 n) fun n _ => ?_
  exact (replacementAt?_perm n hperm.symm h.2).symm

/-- Splicing from the last range to the first gives what splicing all at once does, and comes to a result exactly
for compatible edits. -/
theorem applyEdits_eq_ok {text out : String} {edits : List Edit} : applyEdits text edits = .ok out ↔
    Compatible text.toList edits ∧ out = String.ofList (spliceAll text.toList edits) := by
  have hrun : Compatible text.toList edits → applyEdits text edits = .ok (String.ofList (spliceAll text.toList edits)) := by
    intro hcompatible
    obtain ⟨hfits, hdescends⟩ := Compatible.iff_descends.1 hcompatible
    have hbehind : [] = readThrough [] (byteLength text.toList) 0 [] := rfl
    obtain ⟨c, hrun, hresult⟩ := spliceDown_of_descends (List.append_nil text.toList).symm
      (fun w hw => absurd hw List.not_mem_nil) hbehind hfits hdescends
    rw [List.append_nil, hcompatible.readThrough_applied] at hresult
    rw [applyEdits_eq, hrun, Except.map, hresult]
  constructor
  · intro h
    have hcompatible : Compatible text.toList edits := by
      rw [applyEdits_eq] at h
      cases hsplice : spliceDown text.toList (byteLength text.toList) (.behind text.toList []) (applied edits) with
      | error e =>
        rw [hsplice] at h
        cases h
      | ok c => exact Compatible.iff_descends.2 (descends_of_spliceDown (List.append_nil text.toList).symm hsplice)
    rw [hrun hcompatible] at h
    exact ⟨hcompatible, (Except.ok.inj h).symm⟩
  · rintro ⟨hcompatible, rfl⟩
    exact hrun hcompatible

/-! ## The order in which edits are given -/

variable {text : String} {edits given : List Edit}

theorem Edit.Compatible.perm {text : List Char} (h : given.Perm edits) : Compatible text given ↔ Compatible text edits := by
  simp only [Compatible, h.mem_iff, (h.map _).pairwise_iff fun h => Apart.symm h]

theorem applyEdits_perm {out : String} (h : given.Perm edits) (hins : ∀ n,
    insertionsAt n (given.map (widen text.toList)) = insertionsAt n (edits.map (widen text.toList))) :
    applyEdits text given = .ok out ↔ applyEdits text edits = .ok out := by
  rw [applyEdits_eq_ok, applyEdits_eq_ok, Compatible.perm h]
  refine and_congr_right fun hcompatible => ?_
  have hread : spliceAll text.toList given = spliceAll text.toList edits :=
    readThrough_congr _ (.inl rfl) (fun n _ => hins n)
      fun n _ => (replacementAt?_perm n (h.map _).symm hcompatible.2).symm
  rw [hread]

/-- Applying edits is splicing them in all at once: it comes to a result exactly if every range lies in the text
and no two widened ranges share a byte, and the result is then the text read once with all ranges replaced. Spliced
in place, no range ever ends inside a character. In another order the edits are as compatible as before, each
offset has the same replacement and the same insertions, and only the order of those can change the result. -/
theorem applyEdits_simultaneous (text : String) (edits : List Edit) :
    (∀ out, applyEdits text edits = .ok out ↔
      Compatible text.toList edits ∧ out = String.ofList (spliceAll text.toList edits)) ∧
    spliceInPlace? text.toList edits = some ((applyEdits text edits).map String.toList) ∧
    ∀ given, given.Perm edits →
      (Compatible text.toList given ↔ Compatible text.toList edits) ∧
      (Compatible text.toList edits → ∀ n,
        replacementAt? n (given.map (widen text.toList)) = replacementAt? n (edits.map (widen text.toList)) ∧
        (insertionsAt n (given.map (widen text.toList))).Perm (insertionsAt n (edits.map (widen text.toList)))) ∧
      ((∀ n, insertionsAt n (given.map (widen text.toList)) = insertionsAt n (edits.map (widen text.toList))) →
        ∀ out, applyEdits text given = .ok out ↔ applyEdits text edits = .ok out) := by
  refine ⟨fun out => applyEdits_eq_ok, spliceInPlace?_eq text edits, fun given h => ?_⟩
  refine ⟨Compatible.perm h, fun hcompatible n => ?_, fun hins out => applyEdits_perm h hins⟩
  exact ⟨(replacementAt?_perm n (h.map _).symm hcompatible.2).symm, (h.map _).filter _⟩

/-- Two insertions and a replacement meet before a character of four bytes, whatever is given first. -/
theorem applyEdits_simultaneous_rocket :
    let edits : List Edit := [⟨2, 3, "X"⟩, .insert 1 "<", .insert 5 "!", .insert 1 ">"]
    let given : List Edit := [.insert 1 "<", .insert 1 ">", ⟨2, 3, "X"⟩, .insert 5 "!"]
    given.Perm edits ∧ applyEdits "a🚀b" edits = .ok "a<>X!b" ∧ applyEdits "a🚀b" given = .ok "a<>X!b" := by
  intro edits given
  have hperm : given.Perm edits := by decide
  obtain ⟨hrun, -, horder⟩ := applyEdits_simultaneous "a🚀b" edits
  have hedits : applyEdits "a🚀b" edits = .ok "a<>X!b" := (hrun _).2 ⟨by decide +kernel, by decide +kernel⟩
  obtain ⟨-, -, hsame⟩ := horder given hperm
  refine ⟨hperm, hedits, (hsame (fun n => ?_) _).2 hedits⟩
  have hgiven : given.map (widen "a🚀b".toList) = [.insert 1 "<", .insert 1 ">", ⟨1, 5, "X"⟩, .insert 5 "!"] := by
    decide +kernel
  have hwide : edits.map (widen "a🚀b".toList) = [⟨1, 5, "X"⟩, .insert 1 "<", .insert 5 "!", .insert 1 ">"] := by
    decide +kernel
  rw [hgiven, hwide]
  by_cases h1 : n = 1
  · subst h1
    rfl
  · by_cases h5 : n = 5
    · subst h5
      rfl
    · simp [insertionsAt, Edit.insert, Ne.symm h1, Ne.symm h5]

end TreeRepair.Text
