import Mathlib.Order.Lattice.Nat
import TreeRepair.Proofs.Graph.Cycles
import TreeRepair.Proofs.Graph.Reachability

/-! How far imports lead. The distance between two positions is the least number of imports on a way from one to the
other. The breadth-first search meets positions in the order of their distance: what waits in its queue differs by one at
most, and all that is nearer than the first in the queue has been met. So a critical path lists the files that matter,
each once and the nearest first, with the foremost reason of each. -/

set_option autoImplicit false

namespace TreeRepair

open Relation (ReflTransGen)

namespace ImportGraph

/-! ## Ways -/

section Ways

/-- A way of some number of steps from a position. -/
inductive Way (step : Nat → Nat → Prop) (i : Nat) : Nat → Nat → Prop
  | here : Way step i 0 i
  | onward {n j k : Nat} (way : Way step i n j) (last : step j k) : Way step i (n + 1) k

/-- The least number of steps on a way from one position to another one that it leads to. -/
noncomputable def distance (step : Nat → Nat → Prop) (i j : Nat) : Nat := sInf {n | Way step i n j}

variable {step : Nat → Nat → Prop} {i j k n : Nat}

theorem exists_way_iff : (∃ n, Way step i n j) ↔ ReflTransGen step i j := by
  constructor
  · rintro ⟨n, hway⟩
    induction hway with
    | here => exact .refl
    | onward _ last ih => exact ih.tail last
  · intro hreach
    induction hreach with
    | refl => exact ⟨0, .here⟩
    | tail _ last ih =>
      obtain ⟨n, hway⟩ := ih
      exact ⟨n + 1, hway.onward last⟩

theorem distance_le (h : Way step i n j) : distance step i j ≤ n := Nat.sInf_le h

/-- What is reached is reached on a way as long as its distance. -/
theorem way_distance (h : ReflTransGen step i j) : Way step i (distance step i j) j := Nat.sInf_mem (exists_way_iff.2 h)

theorem distance_step_le (h : ReflTransGen step i j) (last : step j k) : distance step i k ≤ distance step i j + 1 :=
  distance_le ((way_distance h).onward last)

end Ways

/-! ## The order of the search -/

section Layers

variable {next : Nat → List Nat} {size fuel fuel' i j k n : Nat} {popped queue : List Nat}

/-- A search from a position whose nodes are in the order of their distance, those in the queue at most one step
apart. -/
structure Layered (next : Nat → List Nat) (i : Nat) (popped queue : List Nat) : Prop where
  start : i ∈ popped ++ queue
  reached : ∀ j ∈ popped ++ queue, ReflTransGen (Leads next) i j
  sorted : (popped ++ queue).Pairwise fun j k => distance (Leads next) i j ≤ distance (Leads next) i k
  close : ∀ j ∈ queue, ∀ k ∈ queue, distance (Leads next) i k ≤ distance (Leads next) i j + 1

namespace Layered

theorem initial (next : Nat → List Nat) (i : Nat) : Layered next i [] [i] where
  start := by simp
  reached j hj := by
    obtain rfl := List.mem_singleton.1 hj
    exact .refl
  sorted := List.pairwise_singleton _ _
  close j hj k hk := by
    rw [List.mem_singleton.1 hj, List.mem_singleton.1 hk]
    exact Nat.le_succ _

variable (h : Layered next i popped (k :: queue)) (hs : Searching next size popped (k :: queue))

include h

theorem popped_le (hj : j ∈ popped) : distance (Leads next) i j ≤ distance (Leads next) i k :=
  (List.pairwise_append.1 h.sorted).2.2 j hj k List.mem_cons_self

theorem le_queued (hj : j ∈ k :: queue) : distance (Leads next) i k ≤ distance (Leads next) i j := by
  rcases List.mem_cons.1 hj with rfl | hj
  · exact Nat.le_refl _
  · exact List.rel_of_pairwise_cons (List.pairwise_append.1 h.sorted).2.1 hj

include hs

theorem mem_popped (hway : Way (Leads next) i n j) (hn : n < distance (Leads next) i k) : j ∈ popped := by
  have hout : ∀ m ∈ popped ++ k :: queue, distance (Leads next) i m < distance (Leads next) i k → m ∈ popped := by
    intro m hm hlt
    rcases List.mem_append.1 hm with hm | hm
    · exact hm
    · exact absurd (h.le_queued hm) (Nat.not_le.2 hlt)
  induction hway with
  | here => exact hout i h.start (Nat.lt_of_le_of_lt (distance_le .here) hn)
  | @onward n m j way last ih =>
    have hm : m ∈ popped := ih (by omega)
    exact hout j (hs.followed m hm j last) (Nat.lt_of_le_of_lt (distance_le (way.onward last)) hn)

theorem distance_fresh (hj : j ∈ next k) (hfresh : j ∉ popped ++ k :: queue) :
    distance (Leads next) i j = distance (Leads next) i k + 1 := by
  have hk : ReflTransGen (Leads next) i k := h.reached k (by simp)
  refine Nat.le_antisymm (distance_step_le hk hj) (Nat.succ_le_of_lt (Nat.lt_of_not_le fun hle => hfresh ?_))
  -- otherwise the last step of a shortest way comes from a node whose successors have been met
  have hway := way_distance (hk.tail hj)
  generalize hn : distance (Leads next) i j = n at hway hle
  cases hway with
  | here => exact h.start
  | @onward n m _ way last => exact hs.followed m (h.mem_popped hs way (by omega)) j last

/-- The first node leaves the queue and its fresh successors enter it. -/
theorem advance : Layered next i (popped ++ [k])
    (queue ++ (next k).filter fun j => !(popped ++ k :: queue).contains j) := by
  have hsame : popped ++ [k] ++ (queue ++ (next k).filter fun j => !(popped ++ k :: queue).contains j) =
      (popped ++ k :: queue) ++ (next k).filter fun j => !(popped ++ k :: queue).contains j := by simp
  have hk : ReflTransGen (Leads next) i k := h.reached k (by simp)
  have hfresh : ∀ j ∈ (next k).filter (fun j => !(popped ++ k :: queue).contains j),
      j ∈ next k ∧ distance (Leads next) i j = distance (Leads next) i k + 1 := by
    intro j hj
    obtain ⟨hnext, hnew⟩ := List.mem_filter.1 hj
    exact ⟨hnext, h.distance_fresh hs hnext (by simpa using hnew)⟩
  have hqueued : ∀ j ∈ queue, distance (Leads next) i k ≤ distance (Leads next) i j ∧
      distance (Leads next) i j ≤ distance (Leads next) i k + 1 := fun j hj =>
    ⟨h.le_queued (List.mem_cons_of_mem _ hj), h.close k List.mem_cons_self j (List.mem_cons_of_mem _ hj)⟩
  refine ⟨?_, ?_, ?_, ?_⟩
  · rw [hsame]
    exact List.mem_append_left _ h.start
  · rw [hsame]
    intro j hj
    rcases List.mem_append.1 hj with hj | hj
    · exact h.reached j hj
    · exact hk.tail (hfresh j hj).1
  · rw [hsame]
    refine List.pairwise_append.2 ⟨h.sorted, List.pairwise_of_forall_mem_list fun a ha b hb => ?_, fun a ha b hb => ?_⟩
    · rw [(hfresh a ha).2, (hfresh b hb).2]
    · rw [(hfresh b hb).2]
      rcases List.mem_append.1 ha with ha | ha
      · exact Nat.le_succ_of_le (h.popped_le ha)
      · exact h.close k List.mem_cons_self a ha
  · intro a ha b hb
    rcases List.mem_append.1 ha with ha | ha <;> rcases List.mem_append.1 hb with hb | hb
    · exact h.close a (List.mem_cons_of_mem _ ha) b (List.mem_cons_of_mem _ hb)
    · rw [(hfresh b hb).2]
      exact Nat.succ_le_succ (hqueued a ha).1
    · rw [(hfresh a ha).2]
      exact Nat.le_succ_of_le (hqueued b hb).2
    · rw [(hfresh a ha).2, (hfresh b hb).2]
      exact Nat.le_succ _

end Layered

/-- A search meets nodes in the order of their distance. -/
theorem breadthFirst_sorted (hnext : ∀ i, (next i).Nodup) (hlt : ∀ i < size, ∀ j ∈ next i, j < size)
    (hs : Searching next size popped queue) (h : Layered next i popped queue) :
    (popped ++ breadthFirst next fuel (popped ++ queue) queue).Pairwise fun j k =>
      distance (Leads next) i j ≤ distance (Leads next) i k := by
  induction fuel generalizing popped queue with
  | zero =>
    rw [breadthFirst, List.append_nil]
    exact (List.pairwise_append.1 h.sorted).1
  | succ fuel ih =>
    cases queue with
    | nil =>
      rw [breadthFirst, List.append_nil]
      exact (List.pairwise_append.1 h.sorted).1
    | cons k queue =>
      have hnow := ih (hs.step hnext hlt) (h.advance hs)
      rw [breadthFirst]
      simpa using hnow

/-- More fuel than there are nodes left changes nothing: the search ends because its queue is empty. -/
theorem breadthFirst_fuel (hnext : ∀ i, (next i).Nodup) (hlt : ∀ i < size, ∀ j ∈ next i, j < size)
    (hs : Searching next size popped queue) (hfuel : size ≤ fuel + popped.length) (hmore : fuel ≤ fuel') :
    breadthFirst next fuel' (popped ++ queue) queue = breadthFirst next fuel (popped ++ queue) queue := by
  induction fuel generalizing popped queue fuel' with
  | zero =>
    obtain rfl := hs.queue_eq_nil (by omega)
    cases fuel' <;> rfl
  | succ fuel ih =>
    obtain ⟨more, rfl⟩ := Nat.exists_eq_add_of_le' (Nat.le_trans (Nat.le_add_left 1 fuel) hmore)
    cases queue with
    | nil => rfl
    | cons k queue =>
      have hnow := ih (hs.step hnext hlt) (by rw [List.length_append, List.length_singleton]; omega)
        (Nat.le_of_succ_le_succ hmore)
      rw [breadthFirst, breadthFirst]
      simpa using hnow

end Layers

end ImportGraph

/-! ## Reasons -/

namespace CriticalReason

/-- Whether a file gives a reason. -/
def Holds (n : SourceNode) : CriticalReason → Prop
  | .parseError => n.errors ≠ []
  | .sideEffect => n.sideEffectCalls ≠ []
  | .entry => n.isEntryPoint = true
  | .provider => n.role = .provider
  | .context => n.role = .context

/-- The place of a reason among all, the most important one at zero. -/
def rank : CriticalReason → Nat
  | .parseError => 0
  | .sideEffect => 1
  | .entry => 2
  | .provider => 3
  | .context => 4

/-- A reason that a file gives while it gives none that is more important. -/
def Foremost (n : SourceNode) (r : CriticalReason) : Prop :=
  r.Holds n ∧ ∀ r' : CriticalReason, r'.rank < r.rank → ¬ r'.Holds n

theorem rank_injective : Function.Injective rank := fun r r' h => by cases r <;> cases r' <;> first | rfl | cases h

theorem Foremost.unique {n : SourceNode} {r r' : CriticalReason} (h : r.Foremost n) (h' : r'.Foremost n) : r = r' := by
  rcases Nat.lt_trichotomy r.rank r'.rank with hlt | heq | hlt
  · exact absurd h.1 (h'.2 r hlt)
  · exact rank_injective heq
  · exact absurd h'.1 (h.2 r' hlt)

end CriticalReason

namespace SourceNode

variable {n : SourceNode} {r : CriticalReason}

theorem foremost_of_criticalReason? (h : n.criticalReason? = some r) : r.Foremost n := by
  unfold criticalReason? at h
  -- each branch has seen that none of the reasons before its own is given
  repeat' split at h
  all_goals cases h
  all_goals
    refine ⟨by simp_all [CriticalReason.Holds, hasSideEffects], fun r' hr' => ?_⟩
    cases r' <;> simp_all [CriticalReason.Holds, CriticalReason.rank, hasSideEffects]

theorem criticalReason?_ne_none (h : r.Holds n) : n.criticalReason? ≠ none := by
  intro hnone
  simp only [criticalReason?, ite_eq_iff, reduceCtorEq, and_false, false_or] at hnone
  obtain ⟨herrors, heffects, hentry, hrole⟩ := hnone
  cases r <;> simp_all [CriticalReason.Holds, hasSideEffects]

theorem criticalReason?_eq_some_iff : n.criticalReason? = some r ↔ r.Foremost n := by
  refine ⟨foremost_of_criticalReason?, fun h => ?_⟩
  obtain ⟨r', hr'⟩ := Option.ne_none_iff_exists'.1 (criticalReason?_ne_none h.1)
  rw [hr', h.unique (foremost_of_criticalReason? hr')]

end SourceNode

/-! ## Critical paths -/

namespace ImportGraph

variable {g : ImportGraph} {i j : Nat}

/-- An edge leads from one position to the node at another one. -/
def Connects (g : ImportGraph) (i j : Nat) : Prop :=
  ∃ e ∈ g.edges, e.source = i ∧ ∃ key, e.target = .file key ∧ g.position? key = some j

theorem leads_successors (g : ImportGraph) : Leads (g.successors false) = g.Connects :=
  funext fun _ => funext fun _ => propext mem_successors

/-- What a critical path says of the nodes that are reached from its entry. -/
structure Tells (g : ImportGraph) (i : Nat) (p : CriticalPath) (met : List (Nat × CriticalReason)) : Prop where
  entry : p.entry = g.keyAt i
  files : p.files = met.map fun m => (g.keyAt m.1, m.2)
  nodup : (met.map (·.1)).Nodup
  mem_iff : ∀ j r, (j, r) ∈ met ↔ ReflTransGen g.Connects i j ∧ ∃ n, g.nodes[j]? = some n ∧ r.Foremost n
  nearest : (met.map (·.1)).Pairwise fun j k => distance g.Connects i j ≤ distance g.Connects i k

/-- The position of a node with the reason for which it matters. -/
def criticalAt? (g : ImportGraph) (i : Nat) : Option (Nat × CriticalReason) :=
  (g.nodes[i]?).bind fun n => n.criticalReason?.map (i, ·)

theorem criticalAt?_eq_some_iff {m : Nat × CriticalReason} :
    g.criticalAt? i = some m ↔ m.1 = i ∧ ∃ n, g.nodes[i]? = some n ∧ m.2.Foremost n := by
  simp only [criticalAt?, Option.bind_eq_some_iff, Option.map_eq_some_iff, SourceNode.criticalReason?_eq_some_iff]
  constructor
  · rintro ⟨n, hn, r, hr, rfl⟩
    exact ⟨rfl, n, hn, hr⟩
  · rintro ⟨rfl, n, hn, hr⟩
    exact ⟨n, hn, m.2, hr, rfl⟩

theorem critical?_eq_map (g : ImportGraph) (i : Nat) :
    g.critical? i = (g.criticalAt? i).map fun m => (g.keyAt m.1, m.2) := by
  rw [critical?, criticalAt?]
  cases hn : g.nodes[i]? with
  | none => rfl
  | some n => simp [keyAt, hn, Function.comp_def]

theorem map_criticalAt?_sublist (g : ImportGraph) (l : List Nat) : ((l.filterMap g.criticalAt?).map (·.1)).Sublist l := by
  have hsome : (l.filterMap g.criticalAt?).map (·.1) = l.filter fun j => (g.criticalAt? j).isSome := by
    induction l with
    | nil => rfl
    | cons j l ih =>
      cases hj : g.criticalAt? j with
      | none => simp [hj, ih]
      | some m => simp [hj, ih, (criticalAt?_eq_some_iff.1 hj).1]
  exact hsome ▸ List.filter_sublist

/-- A critical path lists what matters among all that edges to files lead to from its entry, whether or not what lies
between matters: each node once, the nearest first, with its foremost reason. The search for it ends because there is
nothing left to search; more fuel would change nothing. -/
theorem criticalPath_tells (g : ImportGraph) (h : i < g.nodes.length) :
    (∀ fuel, g.nodes.length ≤ fuel →
      breadthFirst (g.successors false) fuel [i] [i] = g.reachedFrom (g.successorTable false) i) ∧
    ∃ met, g.Tells i (g.criticalPath (g.successorTable false) i) met := by
  have htable : g.reachedFrom (g.successorTable false) i =
      breadthFirst (g.successors false) g.nodes.length ([] ++ [i]) [i] := by
    simp only [reachedFrom, successorTable_getD, List.nil_append]
  have hnext := nodup_successors g false
  have hlt : ∀ a < g.nodes.length, ∀ b ∈ g.successors false a, b < g.nodes.length := fun _ _ _ => lt_of_mem_successors
  have hsorted : (g.reachedFrom (g.successorTable false) i).Pairwise fun j k =>
      distance g.Connects i j ≤ distance g.Connects i k := by
    rw [htable, ← leads_successors]
    exact breadthFirst_sorted hnext hlt (.start h) (.initial (g.successors false) i)
  obtain ⟨hnodup, hmem⟩ := reachedFrom_spec h
  refine ⟨fun fuel hfuel => ?_, (g.reachedFrom (g.successorTable false) i).filterMap g.criticalAt?, ?_⟩
  · rw [htable]
    exact breadthFirst_fuel hnext hlt (.start h) (Nat.le_add_right _ _) hfuel
  · have hsub := g.map_criticalAt?_sublist (g.reachedFrom (g.successorTable false) i)
    refine ⟨rfl, ?_, hnodup.sublist hsub, fun j r => ?_, hsorted.sublist hsub⟩
    · rw [criticalPath, List.map_filterMap]
      exact List.filterMap_congr fun j _ => g.critical?_eq_map j
    · rw [List.mem_filterMap, ← leads_successors]
      constructor
      · rintro ⟨k, hk, hm⟩
        obtain ⟨rfl, hn⟩ := criticalAt?_eq_some_iff.1 hm
        exact ⟨(hmem _).1 hk, hn⟩
      · rintro ⟨hreach, hn⟩
        exact ⟨j, (hmem j).2 hreach, criticalAt?_eq_some_iff.2 ⟨rfl, hn⟩⟩

/-- Files in a ring, of which the second one does not matter, and a file that nothing leads to. -/
def ring : ImportGraph := ⟨[
  { importer "context.js" ["index.js"] with role := .context },
  { importer "index.js" ["plain.js", "index.js"] with role := .entry },
  { importer "other.js" ["index.js"] with sideEffectCalls := ["fetch"] },
  { importer "plain.js" ["context.js"] with size := 5 }]⟩

theorem criticalPath_tells_ring :
    1 < ring.nodes.length ∧
      ring.criticalPath (ring.successorTable false) 1 = ⟨"index.js", [("index.js", .entry), ("context.js", .context)]⟩ ∧
      ∃ met, ring.Tells 1 (ring.criticalPath (ring.successorTable false) 1) met := by
  have hlt : 1 < ring.nodes.length := by decide
  exact ⟨hlt, by decide +kernel, (criticalPath_tells ring hlt).2⟩

end ImportGraph

end TreeRepair
