import Mathlib.Data.List.Pairwise

/-! Lists that are sorted by keys. The sort is stable: it keeps the order of items with one key, and items may as well be
picked before it as behind it. -/

set_option autoImplicit false

namespace TreeRepair.KeyOrder

variable {α : Type}

/-! ## Picking items of a sorted list -/

section Stable

variable {le : α → α → Bool} {a : α} {front rest : List α}

theorem cut_of_pairwise (h : (front ++ a :: rest).Pairwise fun b c => le b c = true)
    (hfront : ∀ b ∈ front, (!le a b) = true) :
    (front ++ rest).takeWhile (fun b => !le a b) = front ∧ (front ++ rest).dropWhile (fun b => !le a b) = rest := by
  have hrest : ∀ b ∈ rest, le a b = true := (List.pairwise_cons.1 (List.pairwise_append.1 h).2.1).1
  rw [List.takeWhile_append_of_pos hfront, List.dropWhile_append_of_pos hfront]
  cases rest with
  | nil => exact ⟨List.append_nil front, rfl⟩
  | cons b rest => simp [hrest b List.mem_cons_self]

theorem filter_mergeSort (htrans : ∀ a b c, le a b = true → le b c = true → le a c = true)
    (htotal : ∀ a b, (le a b || le b a) = true) (p : α → Bool) (l : List α) :
    (l.mergeSort le).filter p = (l.filter p).mergeSort le := by
  induction l with
  | nil => simp
  | cons a l ih =>
    obtain ⟨front, rest, hsplit, hsorted, hfront⟩ := List.mergeSort_cons htrans htotal a l
    rw [hsorted, List.filter_append] at ih
    rw [hsplit, List.filter_append, List.filter_cons, List.filter_cons]
    split
    · -- the item is cut in at the same place among all items and among those that are picked
      obtain ⟨front', rest', hsplit', hsorted', hfront'⟩ := List.mergeSort_cons htrans htotal a (l.filter p)
      have hsub : (front.filter p ++ a :: rest.filter p).Sublist (front ++ a :: rest) :=
        List.filter_sublist.append (List.filter_sublist.cons_cons a)
      have hpair := (hsplit ▸ List.pairwise_mergeSort htrans htotal (a :: l)).sublist hsub
      have hpair' := hsplit' ▸ List.pairwise_mergeSort htrans htotal (a :: l.filter p)
      obtain ⟨htake, hdrop⟩ := cut_of_pairwise hpair fun b hb => hfront b (List.mem_filter.1 hb).1
      obtain ⟨htake', hdrop'⟩ := cut_of_pairwise hpair' hfront'
      rw [ih, hsorted'] at htake hdrop
      rw [hsplit', ← htake, ← hdrop, htake', hdrop']
    · exact ih

end Stable

/-! ## Sorting by keys -/

/-- Whether the key of one item is not behind that of another. -/
def notBehind (key : α → String) (a b : α) : Bool := !(key b < key a)

variable (key : α → String)

theorem notBehind_iff {a b : α} : notBehind key a b = true ↔ key a ≤ key b := by
  rw [notBehind, Bool.not_eq_true', decide_eq_false_iff_not, String.not_lt]

theorem notBehind_trans (a b c : α) (hab : notBehind key a b = true) (hbc : notBehind key b c = true) :
    notBehind key a c = true :=
  (notBehind_iff key).2 (String.le_trans ((notBehind_iff key).1 hab) ((notBehind_iff key).1 hbc))

theorem notBehind_total (a b : α) : (notBehind key a b || notBehind key b a) = true := by
  rw [Bool.or_eq_true, notBehind_iff, notBehind_iff]
  exact String.le_total _ _

theorem pairwise_mergeSort (l : List α) : (l.mergeSort (notBehind key)).Pairwise fun a b => ¬ key b < key a :=
  (List.pairwise_mergeSort (notBehind_trans key) (notBehind_total key) l).imp fun h =>
    String.not_lt.2 ((notBehind_iff key).1 h)

theorem mergeSort_eq_of_perm {l sorted : List α} (hperm : l.Perm sorted)
    (hsorted : sorted.Pairwise fun a b => key a < key b) : l.mergeSort (notBehind key) = sorted := by
  have hle : sorted.Pairwise fun a b => notBehind key a b = true :=
    hsorted.imp fun h => (notBehind_iff key).2 (String.not_lt.1 (String.lt_asymm h))
  have hall : (l.mergeSort (notBehind key)).Perm sorted := (List.mergeSort_perm _ _).trans hperm
  have : Std.Symm fun a b => key a ≠ key b := ⟨fun _ _ => Ne.symm⟩
  have hapart := (hsorted.imp String.ne_of_lt).forall
  refine hall.eq_of_pairwise (fun a b ha hb hab hba => ?_)
    (List.pairwise_mergeSort (notBehind_trans key) (notBehind_total key) l) hle
  by_contra hne
  exact hapart (hall.mem_iff.1 ha) hb hne (String.le_antisymm ((notBehind_iff key).1 hab) ((notBehind_iff key).1 hba))

theorem filter_mergeSort_notBehind (p : α → Bool) (l : List α) :
    (l.mergeSort (notBehind key)).filter p = (l.filter p).mergeSort (notBehind key) :=
  filter_mergeSort (notBehind_trans key) (notBehind_total key) p l

theorem filter_key_mergeSort (k : String) (l : List α) :
    (l.mergeSort (notBehind key)).filter (fun a => key a == k) = l.filter fun a => key a == k := by
  rw [filter_mergeSort_notBehind]
  refine List.mergeSort_of_pairwise (List.pairwise_of_forall_mem_list fun a ha b hb => ?_)
  have hk : ∀ {c}, c ∈ l.filter (fun a => key a == k) → key c = k := fun hc => by simpa using (List.mem_filter.1 hc).2
  exact (notBehind_iff key).2 (hk ha ▸ hk hb ▸ String.le_refl _)

end TreeRepair.KeyOrder
