import TreeRepair.SortedMap
import Mathlib.Data.List.Induction

/-! Maps in the order of keys. Putting keeps the order and each key is there once; what is found under a
key is what was put there last. The map of pairs with one value for each key holds just these pairs. -/

set_option autoImplicit false

namespace TreeRepair.SortedMap

variable {α : Type}

/-- The keys strictly increase. -/
def Sorted (m : SortedMap α) : Prop := m.Pairwise fun a b => a.1 < b.1

theorem lt_of_not_lt {a b : String} (hne : a ≠ b) (h : ¬ a < b) : b < a :=
  String.not_le.1 fun hle => hne (String.le_antisymm hle (String.not_lt.1 h))

/-! ## Putting -/

theorem get?_put (k : String) (v : α) (m : SortedMap α) (x : String) :
    (put k v m).get? x = if x = k then some v else m.get? x := by
  induction m with
  | nil =>
    by_cases hx : x = k
    · subst hx; simp [put, get?]
    · have hxk : (x == k) = false := by simpa using hx
      simp [put, get?, List.lookup_cons, hx, hxk]
  | cons p rest ih =>
    obtain ⟨a, b⟩ := p
    rw [put]
    simp only [get?] at ih ⊢
    by_cases hk : k = a
    · subst hk
      rw [if_pos rfl]
      by_cases hx : x = k
      · subst hx; simp
      · have hxk : (x == k) = false := by simpa using hx
        simp only [List.lookup_cons, hxk, if_neg hx]
    · rw [if_neg hk]
      by_cases hlt : k < a
      · rw [if_pos hlt]
        by_cases hx : x = k
        · subst hx; simp
        · have hxk : (x == k) = false := by simpa using hx
          simp only [List.lookup_cons, hxk, if_neg hx]
      · rw [if_neg hlt, List.lookup_cons, List.lookup_cons]
        by_cases hx : x = a
        · subst hx; simp [Ne.symm hk]
        · have hxa : (x == a) = false := by simpa using hx
          simp only [hxa]
          exact ih

theorem mem_put {k : String} {v : α} {m : SortedMap α} {p : String × α} (h : p ∈ put k v m) :
    p = (k, v) ∨ p ∈ m ∧ p ≠ (k, v) := by
  by_cases hp : p = (k, v)
  · exact .inl hp
  refine .inr ⟨?_, hp⟩
  induction m with
  | nil => exact absurd (List.mem_singleton.1 h) hp
  | cons q rest ih =>
    obtain ⟨a, b⟩ := q
    rw [put] at h
    split at h
    · exact List.mem_cons_of_mem _ ((List.mem_cons.1 h).resolve_left hp)
    · split at h
      · exact (List.mem_cons.1 h).resolve_left hp
      · rcases List.mem_cons.1 h with rfl | h
        · exact List.mem_cons_self ..
        · exact List.mem_cons_of_mem _ (ih h)

theorem mem_keys_put {k x : String} {v : α} {m : SortedMap α} :
    x ∈ (put k v m).keys ↔ x = k ∨ x ∈ m.keys := by
  induction m with
  | nil => simp [put, keys]
  | cons q rest ih =>
    obtain ⟨a, b⟩ := q
    simp only [keys] at ih ⊢
    rw [put]
    split
    · rename_i hk
      subst hk
      simp
    · split
      · simp
      · rw [List.map_cons, List.mem_cons, ih, List.map_cons, List.mem_cons, ← or_assoc, ← or_assoc, or_comm (a := x = a)]

theorem Sorted.put {m : SortedMap α} (h : m.Sorted) (k : String) (v : α) : (put k v m).Sorted := by
  induction m with
  | nil => exact List.pairwise_singleton _ _
  | cons q rest ih =>
    obtain ⟨a, b⟩ := q
    obtain ⟨hhead, htail⟩ := List.pairwise_cons.1 h
    rw [SortedMap.put]
    split
    · rename_i hk
      subst hk
      exact List.pairwise_cons.2 ⟨hhead, htail⟩
    · rename_i hk
      split
      · rename_i hlt
        refine List.pairwise_cons.2 ⟨fun p hp => ?_, h⟩
        rcases List.mem_cons.1 hp with rfl | hp
        · exact hlt
        · exact String.lt_trans hlt (hhead p hp)
      · rename_i hlt
        refine List.pairwise_cons.2 ⟨fun p hp => ?_, ih htail⟩
        rcases mem_put hp with rfl | ⟨hp, -⟩
        · exact lt_of_not_lt hk hlt
        · exact hhead p hp

/-! ## Finding -/

theorem mem_of_get? {m : SortedMap α} {k : String} {v : α} (h : m.get? k = some v) : (k, v) ∈ m := by
  induction m with
  | nil => simp [get?] at h
  | cons q rest ih =>
    obtain ⟨a, b⟩ := q
    rw [get?, List.lookup_cons] at h
    by_cases hk : k = a
    · subst hk
      simp only [beq_self_eq_true, Option.some.injEq] at h
      subst h
      exact List.mem_cons_self ..
    · have hka : (k == a) = false := by simpa using hk
      simp only [hka] at h
      exact List.mem_cons_of_mem _ (ih h)

theorem contains_iff {m : SortedMap α} {k : String} : m.contains k = true ↔ k ∈ m.keys := by
  induction m with
  | nil => simp [contains, get?, keys]
  | cons q rest ih =>
    obtain ⟨a, b⟩ := q
    simp only [contains, get?, keys] at ih ⊢
    rw [List.lookup_cons, List.map_cons, List.mem_cons]
    by_cases hk : k = a
    · simp [hk]
    · have hka : (k == a) = false := by simpa using hk
      simp only [hka, hk, false_or]
      exact ih

theorem Sorted.get?_eq_some {m : SortedMap α} (h : m.Sorted) {k : String} {v : α} :
    m.get? k = some v ↔ (k, v) ∈ m := by
  refine ⟨mem_of_get?, fun hm => ?_⟩
  induction m with
  | nil => simp at hm
  | cons q rest ih =>
    obtain ⟨a, b⟩ := q
    obtain ⟨hhead, htail⟩ := List.pairwise_cons.1 h
    rw [get?, List.lookup_cons]
    rcases List.mem_cons.1 hm with he | hm
    · obtain ⟨rfl, rfl⟩ := Prod.mk.inj he
      simp
    · have hka : (k == a) = false := by simpa using (String.ne_of_lt (hhead _ hm)).symm
      simp only [hka]
      exact ih htail hm

theorem Sorted.mem_of_sublist {m part : SortedMap α} (h : m.Sorted) (hp : part.Sublist m) {k : String} {v : α} :
    (k, v) ∈ part ↔ k ∈ part.keys ∧ (k, v) ∈ m := by
  refine ⟨fun hm => ⟨List.mem_map.2 ⟨_, hm, rfl⟩, hp.subset hm⟩, fun ⟨hk, hm⟩ => ?_⟩
  obtain ⟨⟨k', w⟩, hw, rfl⟩ := List.mem_map.1 hk
  have hsame := h.get?_eq_some.2 hm
  rw [h.get?_eq_some.2 (hp.subset hw)] at hsame
  rwa [← Option.some.inj hsame]

theorem Sorted.keys {m : SortedMap α} (h : m.Sorted) : m.keys.Pairwise (· < ·) := List.pairwise_map.2 h

/-! ## Maps of pairs -/

theorem ofList_concat (pairs : List (String × α)) (k : String) (v : α) :
    ofList (pairs ++ [(k, v)]) = put k v (ofList pairs) := by
  simp [ofList, List.foldl_append]

theorem sorted_ofList (pairs : List (String × α)) : (ofList pairs).Sorted := by
  induction pairs using List.reverseRecOn with
  | nil => exact List.Pairwise.nil
  | append_singleton ps p ih =>
    rw [ofList_concat]
    exact ih.put _ _

theorem mem_keys_ofList {pairs : List (String × α)} {x : String} :
    x ∈ (ofList pairs).keys ↔ x ∈ pairs.map (·.1) := by
  induction pairs using List.reverseRecOn with
  | nil => simp [ofList, keys]
  | append_singleton ps p ih =>
    rw [ofList_concat, mem_keys_put, ih, List.map_append, List.mem_append]
    simp [or_comm]

theorem mem_of_mem_ofList {pairs : List (String × α)} {p : String × α} (h : p ∈ ofList pairs) : p ∈ pairs := by
  induction pairs using List.reverseRecOn with
  | nil => simp [ofList] at h
  | append_singleton ps q ih =>
    rw [ofList_concat] at h
    rcases mem_put h with rfl | ⟨h, -⟩
    · simp
    · exact List.mem_append_left _ (ih h)

theorem mem_ofList {pairs : List (String × α)} (huniq : ∀ k v w, (k, v) ∈ pairs → (k, w) ∈ pairs → v = w)
    {p : String × α} : p ∈ ofList pairs ↔ p ∈ pairs := by
  refine ⟨mem_of_mem_ofList, fun hp => ?_⟩
  obtain ⟨k, v⟩ := p
  have hk : k ∈ (ofList pairs).keys := mem_keys_ofList.2 (List.mem_map_of_mem hp)
  obtain ⟨⟨k', w⟩, hq, rfl⟩ := List.mem_map.1 hk
  rwa [huniq _ v w hp (mem_of_mem_ofList hq)]

theorem ofList_eq_self {m : SortedMap α} (h : m.Sorted) : ofList m = m := by
  induction m using List.reverseRecOn with
  | nil => rfl
  | append_singleton ps p ih =>
    obtain ⟨hps, -, hlt⟩ := List.pairwise_append.1 h
    rw [ofList_concat, ih hps]
    have hend : ∀ qs : SortedMap α, (∀ q ∈ qs, q.1 < p.1) → put p.1 p.2 qs = qs ++ [p] := by
      intro qs hqs
      induction qs with
      | nil => rfl
      | cons q rest ihq =>
        have hq := hqs q (List.mem_cons_self ..)
        rw [put, if_neg (String.ne_of_lt hq).symm, if_neg (String.lt_asymm hq),
          ihq fun r hr => hqs r (List.mem_cons_of_mem q hr), List.cons_append]
    exact hend ps fun q hq => hlt q hq p (List.mem_singleton_self p)

end SortedMap

theorem mem_sortedSet {texts : List String} {x : String} : x ∈ sortedSet texts ↔ x ∈ texts := by
  rw [sortedSet, SortedMap.mem_keys_ofList, List.map_map]
  simp

theorem sortedSet_pairwise (texts : List String) : (sortedSet texts).Pairwise (· < ·) :=
  (SortedMap.sorted_ofList _).keys

end TreeRepair
