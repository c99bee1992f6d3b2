import Mathlib.Data.Fintype.Card
import Mathlib.Data.List.Nodup
import Mathlib.Logic.Relation
import TreeRepair.Graph.CriticalPath
import TreeRepair.Proofs.KeyOrder
import TreeRepair.Proofs.SortedMap

/-! What the breadth-first search of an import graph reaches. A position is met if and only if imports lead to it,
each position is met once, and the number of nodes is fuel enough. Edges and successors are two readings of the same
imports. -/

set_option autoImplicit false

namespace TreeRepair

open Relation (ReflTransGen)

namespace ImportGraph

/-! ## Successors and edges -/

section Successors

variable {g : ImportGraph} {i j : Nat} {key : String}

theorem mem_distinct {l : List Nat} : i ∈ distinct l ↔ i ∈ l := by
  induction l with
  | nil => rfl
  | cons k rest ih =>
    by_cases h : i = k
    · simp [distinct, h]
    · simp [distinct, ih, h]

theorem nodup_distinct (l : List Nat) : (distinct l).Nodup := by
  induction l with
  | nil => exact List.nodup_nil
  | cons k rest ih => exact List.nodup_cons.2 ⟨by simp, ih.filter _⟩

theorem nodup_successors (g : ImportGraph) (staticOnly : Bool) (i : Nat) : (g.successors staticOnly i).Nodup := by
  unfold successors
  split
  · exact List.nodup_nil
  · exact nodup_distinct _

theorem lastPosition?_some {nodes : List SourceNode} (h : lastPosition? key i nodes = some j) :
    i ≤ j ∧ ∃ n, nodes[j - i]? = some n ∧ n.key = key := by
  induction nodes generalizing i with
  | nil => cases h
  | cons n rest ih =>
    rw [lastPosition?] at h
    split at h
    · rename_i k hk
      obtain rfl := Option.some.inj h
      obtain ⟨hle, m, hm, hkey⟩ := ih hk
      refine ⟨by omega, m, ?_, hkey⟩
      rwa [show k - i = (k - (i + 1)) + 1 by omega, List.getElem?_cons_succ]
    · split at h
      · rename_i hkey
        obtain rfl := Option.some.inj h
        exact ⟨Nat.le_refl _, n, by rw [Nat.sub_self, List.getElem?_cons_zero], hkey⟩
      · cases h

theorem position?_some (h : g.position? key = some j) : ∃ n, g.nodes[j]? = some n ∧ n.key = key := by
  obtain ⟨-, n, hn, hkey⟩ := lastPosition?_some h
  exact ⟨n, hn, hkey⟩

theorem node_of_mem_edges {e : ImportEdge} (he : e ∈ g.edges) (hkey : e.target = .file key) :
    ∃ n ∈ g.nodes, n.key = key := by
  have along : ∀ (nodes : List SourceNode) (i : Nat), e ∈ g.edgesFrom i nodes → ∃ r : Resolution, g.target? r = some e.target := by
    intro nodes
    induction nodes with
    | nil => exact fun i hmem => nomatch hmem
    | cons n rest ih =>
      intro i hmem
      rcases List.mem_append.1 hmem with hmem | hmem
      · obtain ⟨r, -, hr⟩ := List.mem_filterMap.1 hmem
        obtain ⟨t, ht, rfl⟩ := Option.map_eq_some_iff.1 hr
        exact ⟨r.resolution, ht⟩
      · exact ih (i + 1) hmem
  obtain ⟨r, hr⟩ := along g.nodes 0 he
  rw [hkey] at hr
  cases r with
  | internal k =>
    obtain ⟨j, hj, hk⟩ := Option.map_eq_some_iff.1 hr
    obtain ⟨n, hn, rfl⟩ := position?_some hj
    exact ⟨n, List.mem_of_getElem? hn, EdgeTarget.file.inj hk⟩
  | external package => cases Option.some.inj hr
  | missing specifier => cases hr

theorem position?_lt (h : g.position? key = some j) : j < g.nodes.length := by
  obtain ⟨n, hn, -⟩ := position?_some h
  exact (List.getElem?_eq_some_iff.1 hn).1

theorem keyAt_of_position? (h : g.position? key = some j) : g.keyAt j = key := by
  obtain ⟨n, hn, hkey⟩ := position?_some h
  rw [keyAt, hn]
  exact hkey

theorem sorted_ofNodes (nodes : List SourceNode) : (ofNodes nodes).nodes.Pairwise fun a b => ¬ b.key < a.key :=
  KeyOrder.pairwise_mergeSort SourceNode.key nodes

theorem mem_edgesFrom {nodes : List SourceNode} {e : ImportEdge} :
    e ∈ g.edgesFrom i nodes ↔ i ≤ e.source ∧ ∃ n, nodes[e.source - i]? = some n ∧ e ∈ g.edgesOf e.source n := by
  induction nodes generalizing i with
  | nil => simp [edgesFrom]
  | cons n rest ih =>
    have hsource : ∀ {m}, e ∈ g.edgesOf i m → e.source = i := by
      intro m hm
      simp only [edgesOf, List.mem_filterMap, Option.map_eq_some_iff] at hm
      obtain ⟨r, -, t, -, rfl⟩ := hm
      rfl
    rw [edgesFrom, List.mem_append, ih]
    constructor
    · rintro (he | ⟨hle, m, hm, he⟩)
      · have hi := hsource he
        exact ⟨by omega, n, by rw [hi, Nat.sub_self, List.getElem?_cons_zero], by rwa [hi]⟩
      · refine ⟨by omega, m, ?_, he⟩
        rwa [show e.source - i = (e.source - (i + 1)) + 1 by omega, List.getElem?_cons_succ]
    · rintro ⟨hle, m, hm, he⟩
      by_cases hi : e.source = i
      · rw [hi, Nat.sub_self, List.getElem?_cons_zero] at hm
        obtain rfl := Option.some.inj hm
        exact .inl (hi ▸ he)
      · rw [show e.source - i = (e.source - (i + 1)) + 1 by omega, List.getElem?_cons_succ] at hm
        exact .inr ⟨by omega, m, hm, he⟩

theorem mem_edges {e : ImportEdge} : e ∈ g.edges ↔
    ∃ n, g.nodes[e.source]? = some n ∧ ∃ r ∈ n.imports, g.target? r.resolution = some e.target ∧
      r.clause.kind = e.kind := by
  rw [edges, mem_edgesFrom]
  simp only [Nat.zero_le, true_and, Nat.sub_zero, edgesOf, List.mem_filterMap, Option.map_eq_some_iff]
  constructor
  · rintro ⟨n, hn, r, hr, t, ht, he⟩
    exact ⟨n, hn, r, hr, by rw [ht, ← he], by rw [← he]⟩
  · rintro ⟨n, hn, r, hr, ht, hk⟩
    exact ⟨n, hn, r, hr, e.target, ht, by rw [hk]⟩

theorem target?_eq_file {r : ImportRecord} :
    g.target? r.resolution = some (.file key) ↔ (g.successor? false r).isSome ∧ r.resolution = .internal key := by
  unfold target? successor?
  cases hr : r.resolution with
  | internal k =>
    simp only [Option.map_eq_some_iff, EdgeTarget.file.injEq, Bool.false_and, Bool.false_eq_true, if_false,
      Resolution.internal.injEq, Option.isSome_iff_exists]
    constructor
    · rintro ⟨j, hj, rfl⟩
      exact ⟨⟨j, hj⟩, rfl⟩
    · rintro ⟨⟨j, hj⟩, rfl⟩
      exact ⟨j, hj, rfl⟩
  | external p => simp
  | missing s => simp

theorem mem_successors : j ∈ g.successors false i ↔
    ∃ e ∈ g.edges, e.source = i ∧ ∃ key, e.target = .file key ∧ g.position? key = some j := by
  unfold successors
  split
  · rename_i hnone
    simp only [List.not_mem_nil, false_iff, not_exists, not_and]
    intro e he hi
    obtain ⟨n, hn, -⟩ := mem_edges.1 he
    rw [hi, hnone] at hn
    cases hn
  · rename_i n hn
    rw [mem_distinct, List.mem_filterMap]
    constructor
    · rintro ⟨r, hr, hj⟩
      cases hres : r.resolution with
      | internal key =>
        have hpos : g.position? key = some j := by simpa [successor?, hres] using hj
        refine ⟨⟨i, .file key, r.clause.kind⟩, mem_edges.2 ⟨n, hn, r, hr, ?_, rfl⟩, rfl, key, rfl, hpos⟩
        exact target?_eq_file.2 ⟨by rw [hj]; rfl, hres⟩
      | external p => simp [successor?, hres] at hj
      | missing s => simp [successor?, hres] at hj
    · rintro ⟨e, he, rfl, key, ht, hpos⟩
      obtain ⟨m, hm, r, hr, htarget, -⟩ := mem_edges.1 he
      obtain rfl := Option.some.inj (hn.symm.trans hm)
      rw [ht] at htarget
      refine ⟨r, hr, ?_⟩
      rw [successor?, (target?_eq_file.1 htarget).2]
      simpa using hpos

theorem lt_of_mem_successors (h : j ∈ g.successors false i) : j < g.nodes.length := by
  obtain ⟨e, -, -, key, -, hpos⟩ := mem_successors.1 h
  exact position?_lt hpos

theorem successorTable_getD (g : ImportGraph) (staticOnly : Bool) (i : Nat) :
    (g.successorTable staticOnly).getD i [] = g.successors staticOnly i := by
  unfold successorTable
  rw [Array.getD_eq_getD_getElem?, List.getElem?_toArray, List.getElem?_map]
  by_cases h : i < g.nodes.length
  · rw [List.getElem?_range h]
    rfl
  · rw [List.getElem?_eq_none (by simpa using h), successors, List.getElem?_eq_none (Nat.not_lt.1 h)]
    rfl

end Successors

/-! ## The search -/

section Search

variable {next : Nat → List Nat} {size fuel : Nat} {popped queue seen : List Nat}

theorem breadthFirst_sound {j : Nat} (h : j ∈ breadthFirst next fuel seen queue) :
    ∃ i ∈ queue, ReflTransGen (fun a b => b ∈ next a) i j := by
  induction fuel generalizing seen queue with
  | zero => cases h
  | succ fuel ih =>
    cases queue with
    | nil => cases h
    | cons i queue =>
      rcases List.mem_cons.1 h with rfl | h
      · exact ⟨j, List.mem_cons_self, .refl⟩
      · obtain ⟨k, hk, hreach⟩ := ih h
        rcases List.mem_append.1 hk with hk | hk
        · exact ⟨k, List.mem_cons_of_mem _ hk, hreach⟩
        · exact ⟨i, List.mem_cons_self, .head (List.mem_filter.1 hk).1 hreach⟩

/-- A search under way: the nodes that have been in the queue are those that are out of it and those that are in it,
each once; the successors of the former have been in the queue. -/
structure Searching (next : Nat → List Nat) (size : Nat) (popped queue : List Nat) : Prop where
  nodup : (popped ++ queue).Nodup
  lt : ∀ i ∈ popped ++ queue, i < size
  followed : ∀ i ∈ popped, ∀ j ∈ next i, j ∈ popped ++ queue

namespace Searching

theorem start {i : Nat} (h : i < size) : Searching next size [] [i] where
  nodup := List.nodup_singleton i
  lt := fun j hj => by rwa [List.mem_singleton.1 hj]
  followed := fun _ hj => by cases hj

/-- The first node leaves the queue and its fresh successors enter it. -/
theorem step {i : Nat} (hnext : ∀ i, (next i).Nodup) (hlt : ∀ i < size, ∀ j ∈ next i, j < size)
    (h : Searching next size popped (i :: queue)) :
    Searching next size (popped ++ [i])
      (queue ++ (next i).filter fun j => !(popped ++ i :: queue).contains j) := by
  have hsame : popped ++ [i] ++ (queue ++ (next i).filter fun j => !(popped ++ i :: queue).contains j) =
      (popped ++ i :: queue) ++ (next i).filter fun j => !(popped ++ i :: queue).contains j := by simp
  refine ⟨?_, ?_, ?_⟩ <;> rw [hsame]
  · refine List.nodup_append.2 ⟨h.nodup, (hnext i).filter _, ?_⟩
    rintro j hj k hk rfl
    have hfresh : j ∉ popped ++ i :: queue := by simpa using (List.mem_filter.1 hk).2
    exact hfresh hj
  · intro j hj
    rcases List.mem_append.1 hj with hj | hj
    · exact h.lt j hj
    · exact hlt i (h.lt i (by simp)) j (List.mem_filter.1 hj).1
  · intro k hk j hj
    rcases List.mem_append.1 hk with hk | hk
    · exact List.mem_append_left _ (h.followed k hk j hj)
    · obtain rfl := List.mem_singleton.1 hk
      by_cases hseen : j ∈ popped ++ k :: queue
      · exact List.mem_append_left _ hseen
      · exact List.mem_append_right _ (List.mem_filter.2 ⟨hj, by simpa using hseen⟩)

theorem queue_eq_nil (h : Searching next size popped queue) (hfull : size ≤ popped.length) : queue = [] := by
  have hsub : popped ++ queue ⊆ List.range size := fun i hi => List.mem_range.2 (h.lt i hi)
  have hlen := (h.nodup.subperm hsub).length_le
  rw [List.length_append, List.length_range] at hlen
  exact List.eq_nil_of_length_eq_zero (by omega)

/-- The search goes on to an empty queue. -/
theorem finish (hnext : ∀ i, (next i).Nodup) (hlt : ∀ i < size, ∀ j ∈ next i, j < size)
    (h : Searching next size popped queue) (hfuel : size ≤ fuel + popped.length) :
    Searching next size (popped ++ breadthFirst next fuel (popped ++ queue) queue) [] ∧
      ∀ i ∈ queue, i ∈ breadthFirst next fuel (popped ++ queue) queue := by
  induction fuel generalizing popped queue with
  | zero =>
    obtain rfl := h.queue_eq_nil (by omega)
    exact ⟨by simpa [breadthFirst] using h, fun _ hi => by cases hi⟩
  | succ fuel ih =>
    cases queue with
    | nil => exact ⟨by simpa [breadthFirst] using h, fun _ hi => by cases hi⟩
    | cons i queue =>
      have hnextStep := ih (h.step hnext hlt) (by rw [List.length_append, List.length_singleton]; omega)
      simp only [List.append_assoc, List.cons_append] at hnextStep
      rw [breadthFirst]
      refine ⟨by simpa using hnextStep.1, fun j hj => ?_⟩
      rcases List.mem_cons.1 hj with rfl | hj
      · exact List.mem_cons_self
      · exact List.mem_cons_of_mem _ (by simpa using hnextStep.2 j (List.mem_append_left _ hj))

end Searching

variable {g : ImportGraph} {i j : Nat}

theorem reachedFrom_spec (h : i < g.nodes.length) :
    (g.reachedFrom (g.successorTable false) i).Nodup ∧
      ∀ j, j ∈ g.reachedFrom (g.successorTable false) i ↔ ReflTransGen (fun a b => b ∈ g.successors false a) i j := by
  have htable : g.reachedFrom (g.successorTable false) i =
      breadthFirst (g.successors false) g.nodes.length ([] ++ [i]) [i] := by
    simp only [reachedFrom, successorTable_getD, List.nil_append]
  have hfuel : g.nodes.length ≤ g.nodes.length + ([] : List Nat).length := Nat.le_add_right _ _
  obtain ⟨hdone, hstart⟩ := (Searching.start h).finish (nodup_successors g false)
    (fun _ _ _ => lt_of_mem_successors) hfuel
  rw [List.nil_append, ← htable] at hdone
  rw [← htable] at hstart
  refine ⟨by simpa using hdone.nodup, fun j => ⟨fun hj => ?_, fun hj => ?_⟩⟩
  · obtain ⟨k, hk, hreach⟩ := breadthFirst_sound (htable ▸ hj)
    rwa [List.mem_singleton.1 hk] at hreach
  · induction hj with
    | refl => exact hstart i List.mem_cons_self
    | tail _ hstep ih => simpa using hdone.followed _ ih _ hstep

end Search

end ImportGraph

end TreeRepair
