import TreeRepair.Proofs.Graph.DepthFirst
import TreeRepair.Proofs.Graph.Reachability

/-! The import cycles that are reported. Each one is a cycle of static imports, no two are rotations of each other, and
each strongly connected component that holds an import holds one of them. A file on a cycle need not be on a reported
one; but of each cycle some import is one of a reported cycle. -/

set_option autoImplicit false

namespace TreeRepair

open Relation (ReflTransGen TransGen)

namespace ImportGraph

/-- A way leads from either of two positions to the other one. -/
def Linked (next : Nat → List Nat) (i j : Nat) : Prop :=
  ReflTransGen (Leads next) i j ∧ ReflTransGen (Leads next) j i

/-- A strongly connected component: the positions that are linked with one of them. -/
def IsComponent (next : Nat → List Nat) (comp : Set Nat) : Prop := ∃ i, comp = {j | Linked next i j}

/-- No position of a component leads to two positions of it. -/
def Unbranched (next : Nat → List Nat) (comp : Set Nat) : Prop :=
  ∀ i ∈ comp, ∀ j ∈ comp, ∀ k ∈ comp, Leads next i j → Leads next i k → j = k

/-- Successors are given for the positions below a bound, and lie below it. -/
def Bounded (next : Nat → List Nat) (size : Nat) : Prop := ∀ i j, j ∈ next i → i < size ∧ j < size

/-! ## Closed ways -/

section Closed

variable {next : Nat → List Nat} {i j k : Nat} {walk c : List Nat} {comp : Set Nat}

theorem Linked.trans (h : Linked next i j) (h' : Linked next j k) : Linked next i k :=
  ⟨h.1.trans h'.1, h'.2.trans h.2⟩

theorem Linked.symm (h : Linked next i j) : Linked next j i := ⟨h.2, h.1⟩

theorem linked_of_transGen (h : TransGen (Leads next) i j) (h' : TransGen (Leads next) j i) : Linked next i j :=
  ⟨h.to_reflTransGen, h'.to_reflTransGen⟩

theorem transGen_of_closed (h : Cycle.Chain (Leads next) (walk : Cycle Nat)) (hi : i ∈ walk) (hj : j ∈ walk) :
    TransGen (Leads next) i j :=
  Cycle.chain_iff_pairwise.1 (h.imp fun _ _ => TransGen.single) i (Cycle.mem_coe_iff.2 hi) j (Cycle.mem_coe_iff.2 hj)

theorem linked_of_closed (h : Cycle.Chain (Leads next) (walk : Cycle Nat)) (hi : i ∈ walk) (hj : j ∈ walk) :
    Linked next i j :=
  linked_of_transGen (transGen_of_closed h hi hj) (transGen_of_closed h hj hi)

theorem exists_closed (h : TransGen (Leads next) i i) :
    ∃ walk : List Nat, i ∈ walk ∧ Cycle.Chain (Leads next) (walk : Cycle Nat) := by
  obtain ⟨j, hj, hback⟩ := TransGen.head'_iff.1 h
  obtain ⟨l, hchain, hlast⟩ := List.exists_isChain_cons_of_relationReflTransGen hback
  refine ⟨j :: l, hlast ▸ List.getLast_mem _, (Cycle.chain_ne_nil _ (List.cons_ne_nil j l)).2 ?_⟩
  rw [hlast]
  exact List.isChain_cons_cons.2 ⟨hj, hchain⟩

theorem exists_passes (h : Cycle.Chain (Leads next) (walk : Cycle Nat)) (hi : i ∈ walk) :
    ∃ j, j ∈ next i ∧ Passes walk i j := by
  obtain ⟨front, rest, rfl⟩ := List.append_of_mem hi
  have hrotated : rest ++ (front ++ [i]) ~r front ++ i :: rest := by
    have hsplit : front ++ i :: rest = (front ++ [i]) ++ rest := by rw [List.append_assoc, List.singleton_append]
    rw [hsplit]
    exact List.isRotated_append
  have hlast : (rest ++ (front ++ [i])).getLast? = some i := by rw [← List.append_assoc, List.getLast?_concat]
  rw [← Cycle.coe_eq_coe.2 hrotated] at h
  cases hread : rest ++ (front ++ [i]) with
  | nil => simp at hread
  | cons j l =>
    rw [hread] at h hrotated hlast
    have hchain := (Cycle.chain_ne_nil _ (List.cons_ne_nil j l)).1 h
    rw [(List.getLast_eq_iff_getLast?_eq_some _).2 hlast] at hchain
    exact ⟨j, (List.isChain_cons_cons.1 hchain).1, j :: l, hrotated, rfl, hlast⟩

theorem IsComponent.mem_of_linked (h : IsComponent next comp) (hi : i ∈ comp) (hij : Linked next i j) : j ∈ comp := by
  obtain ⟨center, rfl⟩ := h
  exact Linked.trans hi hij

theorem IsComponent.linked (h : IsComponent next comp) (hi : i ∈ comp) (hj : j ∈ comp) : Linked next i j := by
  obtain ⟨center, rfl⟩ := h
  exact Linked.trans (Linked.symm hi) hj

theorem Unbranched.mem_cycle (hnext : Unbranched next comp) (hcomp : IsComponent next comp) (hc : IsCycle next c)
    (hin : ∀ k ∈ c, k ∈ comp) (hj : j ∈ comp) : j ∈ c := by
  obtain ⟨i, hi⟩ := List.exists_mem_of_ne_nil c hc.ne_nil
  obtain ⟨hij, hji⟩ := hcomp.linked (hin i hi) hj
  induction hij with
  | refl => exact hi
  | @tail k j hik hkj ih =>
    have hkcomp : k ∈ comp := hcomp.mem_of_linked hj ⟨hji.trans hik, .single hkj⟩
    have hk : k ∈ c := ih hkcomp (ReflTransGen.head hkj hji)
    obtain ⟨m, hm, hpasses⟩ := exists_passes hc.closed hk
    rw [hnext k hkcomp j hj m (hin m hpasses.mem.2) hkj hm]
    exact hpasses.mem.2

end Closed

/-! ## What the search finds -/

section Search

open CycleSearch

variable {next : Nat → List Nat} {size i j : Nat} {walk c d : List Nat}

/-- The positions in the order in which the search gets through with them. -/
def finishing (size : Nat) (next : Nat → List Nat) : List Nat := (searchBelow next size size).done.reverse

theorem Bounded.search (h : Bounded next size) :
    Sound next size (searchBelow next size size) ∧ ∀ i < size, i ∈ (searchBelow next size size).done :=
  searchBelow_spec (fun i _ j hj => (h i j hj).2) (Nat.le_refl _) (Nat.le_refl _)

theorem isCycle_of_mem_cyclesOf (h : Bounded next size) (hc : c ∈ cyclesOf size next) : IsCycle next c :=
  h.search.1.cycles c hc

theorem cyclesOf_apart (h : Bounded next size) : (cyclesOf size next).Pairwise fun c d => ¬ c ~r d := by
  refine h.search.1.nodup.pairwise_of_forall_ne fun c hc d hd hne hrotated => hne ?_
  exact (isCycle_of_mem_cyclesOf h hc).eq_of_isRotated (isCycle_of_mem_cyclesOf h hd) hrotated

theorem finishing_perm (h : Bounded next size) : (finishing size next).Perm (List.range size) := by
  refine (List.reverse_perm _).trans ((List.perm_ext_iff_of_nodup h.search.1.once List.nodup_range).2 fun i => ?_)
  rw [List.mem_range]
  exact ⟨h.search.1.lt i, h.search.2 i⟩

theorem passes_or_finished (h : Bounded next size) (hj : j ∈ next i) :
    (∃ c ∈ cyclesOf size next, Passes c i j) ∨ [j, i].Sublist (finishing size next) := by
  obtain ⟨front, rest, hsplit⟩ := List.append_of_mem (h.search.2 i (h i j hj).1)
  have hsuffix : i :: rest <:+ (searchBelow next size size).done := ⟨front, hsplit.symm⟩
  refine (h.search.1.settled i rest hsuffix j hj).symm.imp_right fun hdone => ?_
  exact ((List.singleton_sublist.2 hdone).cons_cons i |>.trans hsuffix.sublist).reverse

/-- Some step of each closed way is one of a cycle that is found: the step from the position of the way that the search
gets through with first. -/
theorem exists_shared (h : Bounded next size) (hne : walk ≠ [])
    (hclosed : Cycle.Chain (Leads next) (walk : Cycle Nat)) :
    ∃ c ∈ cyclesOf size next, ∃ i j, Passes walk i j ∧ Passes c i j := by
  have along : ∀ l, l <:+ (searchBelow next size size).done → (∃ i ∈ walk, i ∈ l) →
      ∃ c ∈ cyclesOf size next, ∃ i j, Passes walk i j ∧ Passes c i j := by
    intro l
    induction l with
    | nil => exact fun _ ⟨_, _, hi⟩ => nomatch hi
    | cons i rest ih =>
      intro hsuffix hsome
      by_cases hearlier : ∃ j ∈ walk, j ∈ rest
      · exact ih ((List.suffix_cons i rest).trans hsuffix) hearlier
      · have hi : i ∈ walk := by
          obtain ⟨k, hk, hmem⟩ := hsome
          rcases List.mem_cons.1 hmem with rfl | hmem
          · exact hk
          · exact absurd ⟨k, hk, hmem⟩ hearlier
        obtain ⟨j, hj, hpasses⟩ := exists_passes hclosed hi
        rcases h.search.1.settled i rest hsuffix j hj with hdone | ⟨c, hc, hshared⟩
        · exact absurd ⟨j, hpasses.mem.2, hdone⟩ hearlier
        · exact ⟨c, hc, i, j, hpasses, hshared⟩
  obtain ⟨i, hi⟩ := List.exists_mem_of_ne_nil walk hne
  obtain ⟨j, hj, -⟩ := exists_passes hclosed hi
  exact along _ (List.suffix_refl _) ⟨i, hi, h.search.2 i (h i j hj).1⟩

theorem exists_cycle_linked (h : Bounded next size) (hi : TransGen (Leads next) i i) :
    ∃ c ∈ cyclesOf size next, ∀ j ∈ c, Linked next i j := by
  obtain ⟨walk, hmem, hclosed⟩ := exists_closed hi
  obtain ⟨c, hc, k, m, hwalk, hcycle⟩ := exists_shared h (List.ne_nil_of_mem hmem) hclosed
  refine ⟨c, hc, fun j hj => (linked_of_closed hclosed hmem hwalk.mem.1).trans ?_⟩
  exact linked_of_closed (isCycle_of_mem_cyclesOf h hc).closed hcycle.mem.1 hj

theorem exists_cycle_through (h : Bounded next size) (hi : TransGen (Leads next) i i)
    (hnext : Unbranched next {j | Linked next i j}) : ∃ c ∈ cyclesOf size next, i ∈ c := by
  obtain ⟨c, hc, hlinked⟩ := exists_cycle_linked h hi
  exact ⟨c, hc, hnext.mem_cycle ⟨i, rfl⟩ (isCycle_of_mem_cyclesOf h hc) hlinked ⟨.refl, .refl⟩⟩

theorem exists_cycle_in_component (h : Bounded next size) {comp : Set Nat} (hcomp : IsComponent next comp)
    (hedge : ∃ i ∈ comp, ∃ j ∈ comp, j ∈ next i) : ∃ c ∈ cyclesOf size next, ∀ k ∈ c, k ∈ comp := by
  obtain ⟨center, rfl⟩ := hcomp
  obtain ⟨i, hi, j, hj, hstep⟩ := hedge
  have hback : ReflTransGen (Leads next) j i := hj.symm.1.trans hi.1
  obtain ⟨c, hc, hlinked⟩ := exists_cycle_linked h (TransGen.head' hstep hback)
  exact ⟨c, hc, fun k hk => hi.trans (hlinked k hk)⟩

theorem cyclesOf_eq_nil_iff (h : Bounded next size) :
    cyclesOf size next = [] ↔ ∀ i, ¬ TransGen (Leads next) i i := by
  constructor
  · intro hnil i hi
    obtain ⟨c, hc, -⟩ := exists_cycle_linked h hi
    rw [hnil] at hc
    cases hc
  · intro hnone
    rw [List.eq_nil_iff_forall_not_mem]
    intro c hc
    obtain ⟨i, hi⟩ := List.exists_mem_of_ne_nil c (isCycle_of_mem_cyclesOf h hc).ne_nil
    exact hnone i (transGen_of_closed (isCycle_of_mem_cyclesOf h hc).closed hi hi)

end Search

/-! ## Static imports -/

section Imports

variable {g : ImportGraph} {staticOnly : Bool} {r : ImportRecord} {i j : Nat} {c : List Nat}

/-- The file with one key loads the file with another one: its node has a static import of it, and there is a node
for it. -/
def Loads (g : ImportGraph) (a b : String) : Prop :=
  ∃ n, g.node? a = some n ∧ (∃ r ∈ n.imports, r.resolution = .internal b ∧ r.clause.kind = .static) ∧
    (g.node? b).isSome

theorem successor?_eq_some : g.successor? staticOnly r = some j ↔
    ∃ key, r.resolution = .internal key ∧ (staticOnly = true → r.clause.kind = .static) ∧ g.position? key = some j := by
  unfold successor?
  cases r.resolution with
  | internal key => cases staticOnly <;> simp
  | external package => simp
  | missing specifier => simp

theorem mem_successors_iff : j ∈ g.successors staticOnly i ↔
    ∃ n, g.nodes[i]? = some n ∧ ∃ r ∈ n.imports, g.successor? staticOnly r = some j := by
  unfold successors
  cases hn : g.nodes[i]? with
  | none => simp
  | some n => simp [mem_distinct]

theorem position?_of_mem_successors (h : j ∈ g.successors staticOnly i) : g.position? (g.keyAt j) = some j := by
  obtain ⟨-, -, r, -, hr⟩ := mem_successors_iff.1 h
  obtain ⟨key, -, -, hpos⟩ := successor?_eq_some.1 hr
  rwa [keyAt_of_position? hpos]

theorem bounded_successors (g : ImportGraph) (staticOnly : Bool) : Bounded (g.successors staticOnly) g.nodes.length := by
  intro i j h
  obtain ⟨n, hn, -⟩ := mem_successors_iff.1 h
  exact ⟨(List.getElem?_eq_some_iff.1 hn).1, position?_lt (position?_of_mem_successors h)⟩

theorem node?_of_position? {key : String} (h : g.position? key = some i) : g.node? key = g.nodes[i]? := by
  rw [node?, h, Option.bind_some]

theorem loads_of_mem_successors (howner : g.position? (g.keyAt i) = some i) (h : j ∈ g.successors true i) :
    g.Loads (g.keyAt i) (g.keyAt j) := by
  obtain ⟨n, hn, r, hr, hsucc⟩ := mem_successors_iff.1 h
  obtain ⟨key, hres, hkind, hpos⟩ := successor?_eq_some.1 hsucc
  obtain ⟨m, hm, -⟩ := position?_some hpos
  rw [keyAt_of_position? hpos]
  exact ⟨n, (node?_of_position? howner).trans hn, ⟨r, hr, hres, hkind rfl⟩, by rw [node?_of_position? hpos, hm]; rfl⟩

/-! ## Cycles by positions and by keys -/

theorem cycles_eq (g : ImportGraph) : g.cycles = cyclesOf g.nodes.length (g.successors true) := by
  have htable : (fun i => (g.successorTable true).getD i []) = g.successors true :=
    funext (successorTable_getD g true)
  rw [cycles, htable]

theorem isCycle_of_mem_cycles (h : c ∈ g.cycles) : IsCycle (g.successors true) c :=
  isCycle_of_mem_cyclesOf (bounded_successors g true) (cycles_eq g ▸ h)

/-- On a cycle there are owners only, since an import leads to each of them. -/
theorem IsCycle.position? (h : IsCycle (g.successors true) c) (hi : i ∈ c) : g.position? (g.keyAt i) = some i := by
  obtain ⟨j, -, hstep⟩ := Relation.TransGen.tail'_iff.1 (transGen_of_closed h.closed hi hi)
  exact position?_of_mem_successors hstep

theorem IsCycle.keyAt_injective (h : IsCycle (g.successors true) c) (hi : i ∈ c) (hj : j ∈ c)
    (hkey : g.keyAt i = g.keyAt j) : i = j :=
  Option.some.inj ((h.position? hi).symm.trans (hkey ▸ h.position? hj))

theorem IsCycle.keys (h : IsCycle (g.successors true) c) :
    (c.map g.keyAt).Nodup ∧ Cycle.Chain g.Loads (c.map g.keyAt : Cycle String) := by
  refine ⟨h.nodup.map_on fun i hi j hj => h.keyAt_injective hi hj, ?_⟩
  rw [← Cycle.map_coe, Cycle.chain_map]
  have hclosed := (Cycle.chain_ne_nil _ h.ne_nil).1 h.closed
  refine (Cycle.chain_ne_nil _ h.ne_nil).2 (hclosed.imp_of_mem_imp fun i j hi _ hstep => ?_)
  refine loads_of_mem_successors (h.position? ?_) hstep
  exact (List.mem_cons.1 hi).elim (fun heq => heq ▸ List.getLast_mem h.ne_nil) id

theorem IsCycle.least_key (hsorted : g.nodes.Pairwise fun a b => ¬ b.key < a.key) (h : IsCycle (g.successors true) c) :
    ∀ a ∈ (c.map g.keyAt).head?, ∀ b ∈ c.map g.keyAt, a ≤ b := by
  intro a ha b hb
  rw [List.head?_map] at ha
  obtain ⟨i, hi, rfl⟩ := Option.map_eq_some_iff.1 ha
  obtain ⟨j, hj, rfl⟩ := List.mem_map.1 hb
  obtain ⟨m, hm, hmkey⟩ := position?_some (h.position? (List.mem_of_mem_head? hi))
  obtain ⟨n, hn, hnkey⟩ := position?_some (h.position? hj)
  rw [← hmkey, ← hnkey]
  rcases Nat.lt_or_eq_of_le (h.least i hi j hj) with hlt | rfl
  · obtain ⟨hi', rfl⟩ := List.getElem?_eq_some_iff.1 hm
    obtain ⟨hj', rfl⟩ := List.getElem?_eq_some_iff.1 hn
    exact String.not_lt.1 (List.pairwise_iff_getElem.1 hsorted i j hi' hj' hlt)
  · obtain rfl := Option.some.inj (hm.symm.trans hn)
    exact String.le_refl _

theorem files_importCycles (g : ImportGraph) : g.importCycles.map (·.files) = g.cycles.map (·.map g.keyAt) := by
  have hfst := congrArg (List.map (·.map g.keyAt)) (List.zipIdx_map_fst 0 g.cycles)
  rw [importCycles, List.map_map]
  rwa [List.map_map] at hfst

theorem importCycles_eq_nil_iff (g : ImportGraph) : g.importCycles = [] ↔ g.cycles = [] := by
  rw [← List.map_eq_nil_iff (f := (·.files)), files_importCycles, List.map_eq_nil_iff]

theorem names_importCycles (g : ImportGraph) :
    g.importCycles.map (·.name) = (List.range g.importCycles.length).map fun k => "cycle:" ++ toString (k + 1) := by
  have hsnd := congrArg (List.map ImportCycle.nameAt) (List.zipIdx_map_snd 0 g.cycles)
  have hlen : g.importCycles.length = g.cycles.length := by rw [importCycles, List.length_map, List.length_zipIdx]
  rw [importCycles, List.map_map, ← importCycles, hlen, List.range_eq_range']
  rwa [List.map_map] at hsnd

theorem mem_importCycles {f : ImportCycle} (h : f ∈ g.importCycles) : ∃ c ∈ g.cycles, f.files = c.map g.keyAt := by
  have hmem := List.mem_map_of_mem (f := (·.files)) h
  rw [files_importCycles] at hmem
  obtain ⟨c, hc, heq⟩ := List.mem_map.1 hmem
  exact ⟨c, hc, heq.symm⟩

theorem exists_importCycle (h : c ∈ g.cycles) : ∃ f ∈ g.importCycles, f.files = c.map g.keyAt := by
  have hmem := List.mem_map_of_mem (f := (·.map g.keyAt)) h
  rw [← files_importCycles] at hmem
  exact List.mem_map.1 hmem

theorem importCycles_apart (g : ImportGraph) : g.importCycles.Pairwise fun a b => ¬ a.files ~r b.files := by
  have hback : ∀ {c}, c ∈ g.cycles → (c.map g.keyAt).map (fun key => (g.position? key).getD 0) = c := by
    intro c hc
    rw [List.map_map]
    refine (List.map_congr_left fun i hi => ?_).trans (List.map_id c)
    rw [Function.comp_apply, (isCycle_of_mem_cycles hc).position? hi]
    rfl
  have hapart : g.cycles.Pairwise fun c d => ¬ c ~r d := cycles_eq g ▸ cyclesOf_apart (bounded_successors g true)
  have hfiles : (g.cycles.map (·.map g.keyAt)).Pairwise fun a b => ¬ a ~r b := by
    refine List.pairwise_map.2 (hapart.imp_of_mem fun {c d} hc hd hnot hrotated => hnot ?_)
    rw [← hback hc, ← hback hd]
    exact hrotated.map _
  rw [← files_importCycles] at hfiles
  exact List.pairwise_map.1 hfiles

/-! ## Reported cycles -/

/-- What the reported cycles of a graph are. -/
structure CyclesFound (g : ImportGraph) : Prop where
  /-- The bound on the length of paths cuts nothing off. -/
  deep : ∀ depth, g.nodes.length ≤ depth →
    (CycleSearch.searchBelow (g.successors true) depth g.nodes.length).found = g.cycles
  /-- The search gets through with every node. -/
  exhausted : (finishing g.nodes.length (g.successors true)).Perm (List.range g.nodes.length)
  names : g.importCycles.map (·.name) = (List.range g.importCycles.length).map fun k => "cycle:" ++ toString (k + 1)
  files : g.importCycles.map (·.files) = g.cycles.map (·.map g.keyAt)
  cycles : ∀ c ∈ g.cycles, IsCycle (g.successors true) c
  keys : ∀ f ∈ g.importCycles, f.files ≠ [] ∧ f.files.Nodup ∧ Cycle.Chain g.Loads (f.files : Cycle String) ∧
    ∀ a ∈ f.files.head?, ∀ b ∈ f.files, a ≤ b
  apart : g.importCycles.Pairwise fun a b => ¬ a.files ~r b.files
  covered : ∀ comp, IsComponent (g.successors true) comp → (∃ i ∈ comp, ∃ j ∈ comp, j ∈ g.successors true i) →
    ∃ c ∈ g.cycles, ∀ k ∈ c, k ∈ comp
  nil_iff : g.importCycles = [] ↔ ∀ i, ¬ TransGen (Leads (g.successors true)) i i

/-- The cycles that are reported for any nodes are cycles of static imports, and each component of the static imports
with an import between its members holds one of them. -/
theorem cyclesFound_ofNodes (nodes : List SourceNode) : (ofNodes nodes).CyclesFound where
  deep depth hdepth := by
    rw [cycles_eq, CycleSearch.searchBelow_depth (fun i _ j hj => (bounded_successors _ true i j hj).2) hdepth
      (Nat.le_refl _) (Nat.le_refl _)]
    rfl
  exhausted := finishing_perm (bounded_successors _ true)
  names := names_importCycles _
  files := files_importCycles _
  cycles _ hc := isCycle_of_mem_cycles hc
  keys f hf := by
    obtain ⟨c, hc, hfiles⟩ := mem_importCycles hf
    have hcycle := isCycle_of_mem_cycles hc
    rw [hfiles]
    exact ⟨fun hnil => hcycle.ne_nil (List.map_eq_nil_iff.1 hnil), hcycle.keys.1, hcycle.keys.2,
      hcycle.least_key (sorted_ofNodes nodes)⟩
  apart := importCycles_apart _
  covered comp hcomp hedge := by
    rw [cycles_eq]
    exact exists_cycle_in_component (bounded_successors _ true) hcomp hedge
  nil_iff := by
    rw [importCycles_eq_nil_iff, cycles_eq, cyclesOf_eq_nil_iff (bounded_successors _ true)]

/-- The search for cycles gets through with one position before another one. -/
def FinishesBefore (g : ImportGraph) (i j : Nat) : Prop :=
  [i, j].Sublist (finishing g.nodes.length (g.successors true))

/-- A cycle of positions is reported by its files. -/
def Reports (g : ImportGraph) (c : List Nat) : Prop :=
  IsCycle (g.successors true) c ∧ ∃ f ∈ g.importCycles, f.files = c.map g.keyAt

theorem reports_of_mem_cyclesOf (h : c ∈ cyclesOf g.nodes.length (g.successors true)) : g.Reports c := by
  rw [← cycles_eq] at h
  exact ⟨isCycle_of_mem_cycles h, exists_importCycle h⟩

/-- Of each closed way along static imports, some import is one of a reported cycle. For each file on it there is a
reported cycle in its component. One holds the file itself, if no file of the component imports two files of it; and in
any case, unless the search gets through with all that the file imports before the file and with all that import the
file behind it. -/
theorem closed_way_reported (g : ImportGraph) {walk : List Nat} (hne : walk ≠ [])
    (hclosed : Cycle.Chain (Leads (g.successors true)) (walk : Cycle Nat)) :
    (∃ c, g.Reports c ∧ ∃ i j, Passes walk i j ∧ Passes c i j) ∧
    ∀ i ∈ walk, (∃ c, g.Reports c ∧ ∀ j ∈ c, Linked (g.successors true) i j) ∧
      (Unbranched (g.successors true) {j | Linked (g.successors true) i j} → ∃ c, g.Reports c ∧ i ∈ c) ∧
      ((∃ c, g.Reports c ∧ i ∈ c) ∨
        (∀ j ∈ g.successors true i, g.FinishesBefore j i) ∧ ∀ j, i ∈ g.successors true j → g.FinishesBefore i j) := by
  have hbounded := bounded_successors g true
  refine ⟨?_, fun i hi => ⟨?_, fun hnext => ?_, ?_⟩⟩
  · obtain ⟨c, hc, hshared⟩ := exists_shared hbounded hne hclosed
    exact ⟨c, reports_of_mem_cyclesOf hc, hshared⟩
  · obtain ⟨c, hc, hlinked⟩ := exists_cycle_linked hbounded (transGen_of_closed hclosed hi hi)
    exact ⟨c, reports_of_mem_cyclesOf hc, hlinked⟩
  · obtain ⟨c, hc, hmem⟩ := exists_cycle_through hbounded (transGen_of_closed hclosed hi hi) hnext
    exact ⟨c, reports_of_mem_cyclesOf hc, hmem⟩
  · by_cases hmissed : ∃ c, g.Reports c ∧ i ∈ c
    · exact .inl hmissed
    · refine .inr ⟨fun j hj => ?_, fun j hj => ?_⟩
      · rcases passes_or_finished hbounded hj with ⟨c, hc, hpasses⟩ | hbefore
        · exact absurd ⟨c, reports_of_mem_cyclesOf hc, hpasses.mem.1⟩ hmissed
        · exact hbefore
      · rcases passes_or_finished hbounded hj with ⟨c, hc, hpasses⟩ | hbefore
        · exact absurd ⟨c, reports_of_mem_cyclesOf hc, hpasses.mem.2⟩ hmissed
        · exact hbefore

end Imports

/-! ## A file that is not reported -/

/-- A file with nothing but static imports of files. -/
def importer (key : String) (targets : List String) : SourceNode where
  key := key
  role := .module
  size := 0
  imports := targets.map fun target => ⟨⟨target, [], .sideEffect, .static, 1⟩, .internal target⟩
  exports := []
  hasMarkup := false
  sideEffectCalls := []
  hookCalls := []
  errors := []
  lacksRenderBinding := false

/-- The only way back from the last file goes through one that the search is done with. -/
def detour : List SourceNode :=
  [importer "a.js" ["b.js", "c.js"], importer "b.js" ["a.js"], importer "c.js" ["b.js"]]

theorem ofNodes_detour : ofNodes detour = ⟨detour⟩ :=
  congrArg ImportGraph.mk (List.mergeSort_of_pairwise (by decide))

theorem successors_detour : (⟨detour⟩ : ImportGraph).successors true 0 = [1, 2] ∧
    (⟨detour⟩ : ImportGraph).successors true 1 = [0] ∧ (⟨detour⟩ : ImportGraph).successors true 2 = [1] := by
  decide +kernel

theorem closed_detour : Cycle.Chain (Leads ((ofNodes detour).successors true)) ([0, 2, 1] : List Nat) := by
  obtain ⟨hfirst, hsecond, hthird⟩ := successors_detour
  rw [ofNodes_detour, Cycle.chain_coe_cons]
  simp [Leads, hfirst, hsecond, hthird]

theorem detour_missed : ∀ f ∈ (ofNodes detour).importCycles, (ofNodes detour).keyAt 2 ∉ f.files := by
  rw [ofNodes_detour]
  decide +kernel

/-- The last of three files imports the second one, that the first, and that the last; it is in no reported cycle. -/
theorem detour_unreported :
    let g := ofNodes detour
    Cycle.Chain (Leads (g.successors true)) ([0, 2, 1] : List Nat) ∧ ∀ f ∈ g.importCycles, g.keyAt 2 ∉ f.files :=
  ⟨closed_detour, detour_missed⟩

theorem closed_way_reported_detour :
    let g := ofNodes detour
    ([0, 2, 1] : List Nat) ≠ [] ∧ Cycle.Chain (Leads (g.successors true)) ([0, 2, 1] : List Nat) ∧
      (∃ c, g.Reports c ∧ ∃ i j, Passes [0, 2, 1] i j ∧ Passes c i j) ∧
      ∀ j ∈ g.successors true 2, g.FinishesBefore j 2 := by
  intro g
  obtain ⟨hshared, hall⟩ := closed_way_reported g (List.cons_ne_nil 0 [2, 1]) closed_detour
  refine ⟨List.cons_ne_nil _ _, closed_detour, hshared, ?_⟩
  rcases (hall 2 (by decide)).2.2 with ⟨c, ⟨-, f, hf, hfiles⟩, hmem⟩ | hordered
  · exact absurd (hfiles ▸ List.mem_map_of_mem hmem) (detour_missed f hf)
  · exact hordered.1

end ImportGraph

end TreeRepair
