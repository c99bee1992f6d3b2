import Mathlib.Data.List.Cycle
import TreeRepair.Graph.Cycle

/-! The depth-first search for cycles. What it records are cycles, each one once, and its bound on the depth cuts nothing
off. What carries the rest is `Sound.settled`: each successor of a node that is done was done before it, or a recorded
cycle goes from the node on to that successor. -/

set_option autoImplicit false

namespace TreeRepair

namespace ImportGraph

/-- The successors of one position include another one. -/
def Leads (next : Nat → List Nat) (i j : Nat) : Prop := j ∈ next i

/-- Positions without repetition, the least one first, each of which leads to the one behind it and the last one to
the first. -/
structure IsCycle (next : Nat → List Nat) (c : List Nat) : Prop where
  ne_nil : c ≠ []
  nodup : c.Nodup
  closed : Cycle.Chain (Leads next) (c : Cycle Nat)
  least : ∀ i ∈ c.head?, ∀ j ∈ c, i ≤ j

/-- A cycle goes from one position on to another one: it can be read from the latter to the former. -/
def Passes (c : List Nat) (i j : Nat) : Prop := ∃ l, l ~r c ∧ l.head? = some j ∧ l.getLast? = some i

/-- The nodes on the way to a node, that one included, the last one first. -/
structure IsPath (next : Nat → List Nat) (size : Nat) (path : List Nat) : Prop where
  nodup : path.Nodup
  lt : ∀ i ∈ path, i < size
  chain : path.IsChain fun j i => Leads next i j

variable {next : Nat → List Nat} {size depth i j : Nat} {c d path : List Nat}

/-! ## Cycles -/

theorem Passes.mem (h : Passes c i j) : i ∈ c ∧ j ∈ c := by
  obtain ⟨l, hrotated, hhead, hlast⟩ := h
  exact ⟨hrotated.mem_iff.1 (List.mem_of_getLast? hlast), hrotated.mem_iff.1 (List.mem_of_mem_head? hhead)⟩

/-- The least position comes first, so that a cycle is no rotation of another one. -/
theorem IsCycle.eq_of_isRotated {a b : List Nat} (h : IsCycle next a) (h' : IsCycle next b) (hrotated : a ~r b) :
    a = b := by
  obtain ⟨n, hn⟩ := hrotated
  have hpos : 0 < a.length := List.length_pos_of_ne_nil h.ne_nil
  have hlt : n % a.length < a.length := Nat.mod_lt _ hpos
  rw [← List.rotate_mod] at hn
  have hfirst : a.head? = some a[0] := by rw [List.head?_eq_getElem?, List.getElem?_eq_getElem hpos]
  have hturned : b.head? = some a[n % a.length] := by
    rw [← hn, List.head?_rotate hlt, List.getElem?_eq_getElem hlt]
  have hmem : ∀ k, k ∈ b ↔ k ∈ a := fun k => by rw [← hn, List.mem_rotate]
  have hle : a[0] ≤ a[n % a.length] := h.least _ hfirst _ (List.getElem_mem hlt)
  have hge : a[n % a.length] ≤ a[0] := h'.least _ hturned _ ((hmem _).2 (List.getElem_mem hpos))
  have hzero : 0 = n % a.length := h.nodup.getElem_inj_iff.1 (Nat.le_antisymm hle hge)
  rw [← hn, ← hzero, List.rotate_zero]

namespace CycleSearch

theorem least_mem (h : c ≠ []) : least c ∈ c := by
  induction c with
  | nil => exact absurd rfl h
  | cons i rest ih =>
    cases rest with
    | nil => exact List.mem_cons_self
    | cons j rest =>
      rw [least]
      · rcases Nat.le_total i (least (j :: rest)) with hle | hle
        · rw [Nat.min_eq_left hle]
          exact List.mem_cons_self
        · rw [Nat.min_eq_right hle]
          exact List.mem_cons_of_mem _ (ih (List.cons_ne_nil _ _))
      · exact fun hnil => absurd hnil (List.cons_ne_nil _ _)

theorem least_le (h : i ∈ c) : least c ≤ i := by
  induction c with
  | nil => cases h
  | cons j rest ih =>
    cases rest with
    | nil => exact Nat.le_of_eq (List.mem_singleton.1 h).symm
    | cons k rest =>
      rw [least]
      · rcases List.mem_cons.1 h with rfl | h
        · exact Nat.min_le_left _ _
        · exact Nat.le_trans (Nat.min_le_right _ _) (ih h)
      · exact fun hnil => absurd hnil (List.cons_ne_nil _ _)

theorem all_bne {front : List Nat} (h : j ∉ front) : ∀ k ∈ front, (k != j) = true := by
  intro k hk
  rw [bne_iff_ne]
  rintro rfl
  exact h hk

theorem rotate_isRotated (c : List Nat) : rotate c ~r c := by
  have happend : c.takeWhile (· != least c) ++ c.dropWhile (· != least c) = c := List.takeWhile_append_dropWhile
  have hrotated : rotate c ~r c.takeWhile (· != least c) ++ c.dropWhile (· != least c) := List.isRotated_append
  rwa [happend] at hrotated

theorem head?_rotate (h : c ≠ []) : (rotate c).head? = some (least c) := by
  obtain ⟨front, rest, hsplit, hnot⟩ := List.eq_append_cons_of_mem (least_mem h)
  have hdrop : c.dropWhile (· != least c) = least c :: rest := by
    have hpos : (front ++ least c :: rest).dropWhile (· != least c) = (least c :: rest).dropWhile (· != least c) :=
      List.dropWhile_append_of_pos (all_bne hnot)
    rwa [← hsplit, List.dropWhile_cons_of_neg (by simp)] at hpos
  rw [rotate, hdrop]
  rfl

theorem isCycle_rotate (hne : c ≠ []) (hnodup : c.Nodup) (hclosed : Cycle.Chain (Leads next) (c : Cycle Nat)) :
    IsCycle next (rotate c) where
  ne_nil := fun hnil => hne (List.isRotated_nil_iff'.1 (hnil ▸ rotate_isRotated c)).symm
  nodup := (rotate_isRotated c).nodup_iff.2 hnodup
  closed := by rwa [Cycle.coe_eq_coe.2 (rotate_isRotated c)]
  least := by
    intro i hi j hj
    rw [head?_rotate hne] at hi
    obtain rfl := Option.some.inj hi
    exact least_le ((rotate_isRotated c).mem_iff.1 hj)

end CycleSearch

/-! ## Paths -/

namespace IsPath

theorem cons (h : IsPath next size (i :: path)) (hj : j ∈ next i) (hnew : j ∉ i :: path) (hlt : j < size) :
    IsPath next size (j :: i :: path) where
  nodup := List.nodup_cons.2 ⟨hnew, h.nodup⟩
  lt := List.forall_mem_cons.2 ⟨hlt, h.lt⟩
  chain := List.isChain_cons_cons.2 ⟨hj, h.chain⟩

theorem length_le (h : IsPath next size path) : path.length ≤ size := by
  have hsub : path ⊆ List.range size := fun i hi => List.mem_range.2 (h.lt i hi)
  simpa using (h.nodup.subperm hsub).length_le

theorem isCycle_closing (h : IsPath next size (i :: path)) (hj : j ∈ next i) (hback : j ∈ i :: path) :
    IsCycle next (CycleSearch.rotate (CycleSearch.closing (i :: path) j)) ∧
      Passes (CycleSearch.rotate (CycleSearch.closing (i :: path) j)) i j := by
  obtain ⟨front, rest, hsplit, hnot⟩ := List.eq_append_cons_of_mem hback
  have hfront : (i :: path).takeWhile (· != j) = front := by
    rw [hsplit, List.takeWhile_append_of_pos (CycleSearch.all_bne hnot), List.takeWhile_cons_of_neg (by simp), List.append_nil]
  -- read from the end, the closing is a piece of the path with its last node in front once more
  have hpiece : front ++ [j] ++ rest = i :: path := by rw [hsplit, List.append_assoc, List.singleton_append]
  have hloop : (j :: (front ++ [j])).IsChain fun b a => Leads next a b := by
    have hchain := List.isChain_cons_cons.2 ⟨hj, h.chain⟩
    rw [← hpiece, ← List.cons_append] at hchain
    exact hchain.left_of_append
  have hclosed : Cycle.Chain (Leads next) ((j :: front.reverse : List Nat) : Cycle Nat) := by
    have hreverse := List.isChain_reverse.2 hloop
    rwa [List.reverse_cons, List.reverse_append, List.reverse_singleton, List.singleton_append, List.cons_append] at hreverse
  have hnodup : (j :: front.reverse).Nodup := by
    have hpart := List.nodup_reverse.2 (hpiece ▸ h.nodup).of_append_left
    rwa [List.reverse_append, List.reverse_singleton, List.singleton_append] at hpart
  have hlast : (j :: front.reverse).getLast? = some i := by
    cases front with
    | nil => rw [(List.cons.inj hsplit).1, List.reverse_nil, List.getLast?_singleton]
    | cons k front => rw [(List.cons.inj hsplit).1, List.reverse_cons, ← List.cons_append, List.getLast?_concat]
  rw [CycleSearch.closing, hfront]
  exact ⟨CycleSearch.isCycle_rotate (List.cons_ne_nil _ _) hnodup hclosed,
    _, (CycleSearch.rotate_isRotated _).symm, rfl, hlast⟩

end IsPath

/-! ## The search -/

namespace CycleSearch

/-- What holds between two steps of a search: it has recorded cycles, each one once; it is done with nodes, each one
once, the last one first; and each successor of a node that is done was done before it, or a recorded cycle goes from
the node on to it. -/
structure Sound (next : Nat → List Nat) (size : Nat) (s : CycleSearch) : Prop where
  cycles : ∀ c ∈ s.found, IsCycle next c
  nodup : s.found.Nodup
  once : s.done.Nodup
  lt : ∀ i ∈ s.done, i < size
  settled : ∀ i rest, i :: rest <:+ s.done → ∀ j ∈ next i, j ∈ rest ∨ ∃ c ∈ s.found, Passes c i j

/-- A search goes on from one state to another below a path: it forgets nothing, and no node on the path is done. -/
structure Extends (path : List Nat) (s s' : CycleSearch) : Prop where
  found : s.found ⊆ s'.found
  done : s.done <:+ s'.done
  spared : ∀ i ∈ s'.done, i ∈ s.done ∨ i ∉ path

variable {s s' s'' : CycleSearch} {rest : List Nat}

theorem Sound.start : Sound next size start where
  cycles := fun _ h => nomatch h
  nodup := List.nodup_nil
  once := List.nodup_nil
  lt := fun _ h => nomatch h
  settled := fun i rest h => absurd (List.suffix_nil.1 h) (List.cons_ne_nil i rest)

theorem Extends.refl : Extends path s s := ⟨List.Subset.refl _, List.suffix_refl _, fun _ h => .inl h⟩

theorem Extends.trans (h : Extends path s s') (h' : Extends path s' s'') : Extends path s s'' := by
  refine ⟨fun _ hc => h'.found (h.found hc), h.done.trans h'.done, fun k hk => ?_⟩
  rcases h'.spared k hk with hk | hk
  · exact h.spared k hk
  · exact .inr hk

theorem record_known (h : rotate (closing path i) ∈ s.found) : s.record path i = s := if_pos (by simpa using h)

theorem record_new (h : rotate (closing path i) ∉ s.found) :
    s.record path i = ⟨s.done, s.found ++ [rotate (closing path i)]⟩ := if_neg (by simpa using h)

/-- An edge back to the path is recorded as a cycle, if it has not been yet. -/
theorem record_spec (h : Sound next size s) (hpath : IsPath next size (i :: path)) (hj : j ∈ next i)
    (hback : j ∈ i :: path) :
    Sound next size (s.record (i :: path) j) ∧ Extends (i :: path) s (s.record (i :: path) j) ∧
      ∃ c ∈ (s.record (i :: path) j).found, Passes c i j := by
  obtain ⟨hcycle, hpasses⟩ := hpath.isCycle_closing hj hback
  by_cases hknown : rotate (closing (i :: path) j) ∈ s.found
  · rw [record_known hknown]
    exact ⟨h, .refl, _, hknown, hpasses⟩
  · rw [record_new hknown]
    refine ⟨⟨?_, ?_, h.once, h.lt, ?_⟩, ⟨List.subset_append_left _ _, List.suffix_refl _, fun _ hk => .inl hk⟩,
      _, by simp, hpasses⟩
    · exact List.forall_mem_append.2 ⟨h.cycles, List.forall_mem_singleton.2 hcycle⟩
    · refine List.nodup_append.2 ⟨h.nodup, List.nodup_singleton _, fun c hc d hd heq => hknown ?_⟩
      rwa [← List.mem_singleton.1 hd, ← heq]
    · intro k rest hsuffix m hm
      exact (h.settled k rest hsuffix m hm).imp_right fun ⟨c, hc, hpasses⟩ => ⟨c, List.mem_append_left _ hc, hpasses⟩

theorem sound_finish (h : Sound next size s) (hlt : i < size) (hnew : i ∉ s.done)
    (hall : ∀ j ∈ next i, j ∈ s.done ∨ ∃ c ∈ s.found, Passes c i j) : Sound next size (s.finish i) where
  cycles := h.cycles
  nodup := h.nodup
  once := List.nodup_cons.2 ⟨hnew, h.once⟩
  lt := List.forall_mem_cons.2 ⟨hlt, h.lt⟩
  settled := by
    intro k rest hsuffix
    rcases List.suffix_cons_iff.1 hsuffix with heq | hsuffix
    · obtain ⟨rfl, rfl⟩ := List.cons.inj heq
      exact hall
    · exact h.settled k rest hsuffix

/-- Goes on to one successor of the last node on a path. -/
def follow (next : Nat → List Nat) (depth : Nat) (here : List Nat) (s : CycleSearch) (j : Nat) : CycleSearch :=
  if here.contains j then s.record here j
  else if s.done.contains j then s
  else visit next depth here s j

theorem visit_succ (next : Nat → List Nat) (depth : Nat) (path : List Nat) (s : CycleSearch) (i : Nat) :
    visit next (depth + 1) path s i = ((next i).foldl (follow next depth (i :: path)) s).finish i := rfl

/-- What a visit at a depth does that is enough for the paths there can be. -/
def Visits (next : Nat → List Nat) (size depth : Nat) : Prop :=
  ∀ ⦃path s i⦄, IsPath next size (i :: path) → size ≤ depth + path.length → Sound next size s → i ∉ s.done →
    Sound next size (visit next depth path s i) ∧ Extends path s (visit next depth path s i) ∧
      i ∈ (visit next depth path s i).done

theorem Visits.followed (h : Visits next size depth) (hlt : ∀ i < size, ∀ j ∈ next i, j < size)
    (hpath : IsPath next size (i :: path)) (hdepth : size ≤ depth + (i :: path).length) (hs : Sound next size s)
    (hj : j ∈ next i) :
    Sound next size (follow next depth (i :: path) s j) ∧ Extends (i :: path) s (follow next depth (i :: path) s j) ∧
      (j ∈ (follow next depth (i :: path) s j).done ∨
        ∃ c ∈ (follow next depth (i :: path) s j).found, Passes c i j) := by
  unfold follow
  split
  · rename_i hback
    obtain ⟨hsound, hext, hcycle⟩ := record_spec hs hpath hj (by simpa using hback)
    exact ⟨hsound, hext, .inr hcycle⟩
  · rename_i hnot
    split
    · rename_i hdone
      exact ⟨hs, .refl, .inl (by simpa using hdone)⟩
    · rename_i hnew
      have hnext := hpath.cons hj (by simpa using hnot) (hlt i (hpath.lt i List.mem_cons_self) j hj)
      obtain ⟨hsound, hext, hdone⟩ := h hnext hdepth hs (by simpa using hnew)
      exact ⟨hsound, hext, .inl hdone⟩

/-- One successor after another. -/
theorem Visits.followed_all (h : Visits next size depth) (hlt : ∀ i < size, ∀ j ∈ next i, j < size)
    (hpath : IsPath next size (i :: path)) (hdepth : size ≤ depth + (i :: path).length) (hs : Sound next size s)
    {js : List Nat} (hjs : ∀ j ∈ js, j ∈ next i) :
    Sound next size (js.foldl (follow next depth (i :: path)) s) ∧
      Extends (i :: path) s (js.foldl (follow next depth (i :: path)) s) ∧
      ∀ j ∈ js, j ∈ (js.foldl (follow next depth (i :: path)) s).done ∨
        ∃ c ∈ (js.foldl (follow next depth (i :: path)) s).found, Passes c i j := by
  induction js generalizing s with
  | nil => exact ⟨hs, .refl, fun _ hj => nomatch hj⟩
  | cons j js ih =>
    obtain ⟨hj, hjs⟩ := List.forall_mem_cons.1 hjs
    obtain ⟨hsound, hext, hmet⟩ := h.followed hlt hpath hdepth hs hj
    obtain ⟨hsound', hext', hall⟩ := ih hsound hjs
    refine ⟨hsound', hext.trans hext', List.forall_mem_cons.2 ⟨?_, hall⟩⟩
    exact hmet.imp (hext'.done.subset ·) fun ⟨c, hc, hpasses⟩ => ⟨c, hext'.found hc, hpasses⟩

/-- The number of nodes is depth enough. -/
theorem visits (hlt : ∀ i < size, ∀ j ∈ next i, j < size) (depth : Nat) : Visits next size depth := by
  induction depth with
  | zero =>
    intro path s i hpath hdepth
    have hlen := hpath.length_le
    rw [List.length_cons] at hlen
    omega
  | succ depth ih =>
    intro path s i hpath hdepth hs hnew
    have hdepth' : size ≤ depth + (i :: path).length := by
      rw [List.length_cons]
      omega
    obtain ⟨hsound, hext, hall⟩ := ih.followed_all hlt hpath hdepth' hs fun _ hj => hj
    have hopen : i ∉ ((next i).foldl (follow next depth (i :: path)) s).done := fun hi =>
      (hext.spared i hi).elim hnew fun hnot => hnot List.mem_cons_self
    rw [visit_succ]
    refine ⟨sound_finish hsound (hpath.lt i List.mem_cons_self) hopen hall,
      ⟨hext.found, hext.done.trans (List.suffix_cons _ _), fun k hk => ?_⟩, List.mem_cons_self⟩
    rcases List.mem_cons.1 hk with rfl | hk
    · exact .inr (List.nodup_cons.1 hpath.nodup).1
    · exact (hext.spared k hk).imp_right fun hnot hmem => hnot (List.mem_cons_of_mem _ hmem)

theorem visit_depth (hlt : ∀ i < size, ∀ j ∈ next i, j < size) {depth' : Nat} (hpath : IsPath next size (i :: path))
    (hdepth : size ≤ depth + path.length) (hdepth' : size ≤ depth' + path.length) :
    visit next depth path s i = visit next depth' path s i := by
  induction depth generalizing depth' path s i with
  | zero =>
    have hlen := hpath.length_le
    rw [List.length_cons] at hlen
    omega
  | succ depth ih =>
    cases depth' with
    | zero =>
      have hlen := hpath.length_le
      rw [List.length_cons] at hlen
      omega
    | succ depth' =>
      rw [visit_succ, visit_succ]
      congr 1
      refine List.foldl_ext _ _ _ fun s j hj => ?_
      unfold follow
      split
      · rfl
      · rename_i hnot
        have hnext := hpath.cons hj (by simpa using hnot) (hlt i (hpath.lt i List.mem_cons_self) j hj)
        split
        · rfl
        · exact ih hnext (by rw [List.length_cons]; omega) (by rw [List.length_cons]; omega)

/-! ## From every node in turn -/

/-- The search from the nodes below a bound in turn. -/
def searchBelow (next : Nat → List Nat) (depth bound : Nat) : CycleSearch :=
  (List.range bound).foldl (visitRoot next depth) start

theorem isPath_singleton (h : i < size) : IsPath next size [i] :=
  ⟨List.nodup_singleton i, List.forall_mem_singleton.2 h, List.isChain_singleton i⟩

theorem searchBelow_succ (next : Nat → List Nat) (depth bound : Nat) :
    searchBelow next depth (bound + 1) = visitRoot next depth (searchBelow next depth bound) bound := by
  rw [searchBelow, List.range_succ, List.foldl_append]
  rfl

theorem searchBelow_spec (hlt : ∀ i < size, ∀ j ∈ next i, j < size) (hdepth : size ≤ depth) {bound : Nat}
    (hbound : bound ≤ size) :
    Sound next size (searchBelow next depth bound) ∧ ∀ i < bound, i ∈ (searchBelow next depth bound).done := by
  induction bound with
  | zero => exact ⟨.start, fun i hi => absurd hi (Nat.not_lt_zero i)⟩
  | succ bound ih =>
    obtain ⟨hsound, hdone⟩ := ih (Nat.le_of_succ_le hbound)
    rw [searchBelow_succ, visitRoot]
    split
    · rename_i hknown
      refine ⟨hsound, fun i hi => ?_⟩
      rcases Nat.lt_succ_iff_lt_or_eq.1 hi with hi | rfl
      · exact hdone i hi
      · simpa using hknown
    · rename_i hnew
      obtain ⟨hsound', hext, hmem⟩ := visits hlt depth (isPath_singleton hbound) (Nat.le_add_right_of_le hdepth) hsound
        (by simpa using hnew)
      refine ⟨hsound', fun i hi => ?_⟩
      rcases Nat.lt_succ_iff_lt_or_eq.1 hi with hi | rfl
      · exact hext.done.subset (hdone i hi)
      · exact hmem

theorem searchBelow_depth (hlt : ∀ i < size, ∀ j ∈ next i, j < size) {depth' : Nat} (hdepth : size ≤ depth)
    (hdepth' : size ≤ depth') {bound : Nat} (hbound : bound ≤ size) :
    searchBelow next depth bound = searchBelow next depth' bound := by
  induction bound with
  | zero => rfl
  | succ bound ih =>
    rw [searchBelow_succ, searchBelow_succ, ih (Nat.le_of_succ_le hbound), visitRoot, visitRoot,
      visit_depth hlt (isPath_singleton hbound) (Nat.le_add_right_of_le hdepth) (Nat.le_add_right_of_le hdepth')]

end CycleSearch

end ImportGraph

end TreeRepair
