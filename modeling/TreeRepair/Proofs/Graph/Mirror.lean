import Mathlib.Data.List.Forall2
import Mathlib.Data.Prod.Lex
import TreeRepair.Graph.Digraph
import TreeRepair.Graph.Json
import TreeRepair.Proofs.Graph.Cycles
import TreeRepair.Proofs.KeyOrder

/-! An import graph and its digraph in step. Nodes are sorted and the last one with a key owns it; each import that leads
to an owner or to a package has one edge, in order; and each edge to an owner has one arc, which knows the place of its
edge. What carries the last part is that adding an import keeps arcs and edges together. So the successors that are read
back from the arcs, by place and without repetitions, are what the imports of a node lead to. -/

set_option autoImplicit false

namespace TreeRepair.ImportGraph

variable {g : ImportGraph} {staticOnly : Bool} {i j k : Nat} {key : String}

/-! ## Owners of keys -/

/-- The last of the nodes with a key. -/
def Owns (g : ImportGraph) (key : String) (i : Nat) : Prop :=
  (∃ n, g.nodes[i]? = some n ∧ n.key = key) ∧ ∀ j n, i < j → g.nodes[j]? = some n → n.key ≠ key

theorem Owns.unique (hi : g.Owns key i) (hj : g.Owns key j) : i = j := by
  obtain ⟨⟨n, hn, hkey⟩, hlast⟩ := hi
  obtain ⟨⟨m, hm, hkey'⟩, hlast'⟩ := hj
  apply Nat.le_antisymm
  · exact Nat.not_lt.1 fun hlt => hlast' i n hlt hn hkey
  · exact Nat.not_lt.1 fun hlt => hlast j m hlt hm hkey'

theorem lastPosition?_eq_none {nodes : List SourceNode} :
    lastPosition? key i nodes = none ↔ ∀ n ∈ nodes, n.key ≠ key := by
  induction nodes generalizing i with
  | nil => simp [lastPosition?]
  | cons n rest ih =>
    rw [lastPosition?, List.forall_mem_cons, ← ih (i := i + 1)]
    cases lastPosition? key (i + 1) rest <;> simp

theorem lastPosition?_last {nodes : List SourceNode} (h : lastPosition? key i nodes = some j) {n : SourceNode}
    (hlt : j < k) (hn : nodes[k - i]? = some n) : n.key ≠ key := by
  induction nodes generalizing i with
  | nil => cases h
  | cons m rest ih =>
    have hle := (lastPosition?_some h).1
    rw [show k - i = (k - (i + 1)) + 1 by omega, List.getElem?_cons_succ] at hn
    rw [lastPosition?] at h
    split at h
    · rename_i j' hj'
      obtain rfl := Option.some.inj h
      exact ih hj' hn
    · rename_i hnone
      exact lastPosition?_eq_none.1 hnone n (List.mem_of_getElem? hn)

theorem position?_eq_none_iff : g.position? key = none ↔ ∀ n ∈ g.nodes, n.key ≠ key := lastPosition?_eq_none

theorem owns_of_position? (h : g.position? key = some i) : g.Owns key i :=
  ⟨position?_some h, fun _ _ hlt hn => lastPosition?_last h hlt hn⟩

theorem position?_eq_some_iff : g.position? key = some i ↔ g.Owns key i := by
  refine ⟨owns_of_position?, fun h => ?_⟩
  obtain ⟨n, hn, hkey⟩ := h.1
  cases hpos : g.position? key with
  | none => exact absurd hkey (position?_eq_none_iff.1 hpos n (List.mem_of_getElem? hn))
  | some j => rw [(owns_of_position? hpos).unique h]

theorem node?_eq_getLast? (g : ImportGraph) (key : String) :
    g.node? key = (g.nodes.filter fun n => n.key == key).getLast? := by
  have along : ∀ (nodes : List SourceNode) (i : Nat),
      ((lastPosition? key i nodes).bind fun j => nodes[j - i]?) = (nodes.filter fun n => n.key == key).getLast? := by
    intro nodes
    induction nodes with
    | nil => exact fun _ => rfl
    | cons n rest ih =>
      intro i
      have hrest := ih (i + 1)
      rw [lastPosition?, List.filter_cons]
      cases hlast : lastPosition? key (i + 1) rest with
      | some j =>
        have hle := (lastPosition?_some hlast).1
        rw [hlast, Option.bind_some] at hrest
        obtain ⟨m, hm, -⟩ := (lastPosition?_some hlast).2
        rw [hm] at hrest
        rw [Option.bind_some, show j - i = (j - (i + 1)) + 1 by omega, List.getElem?_cons_succ, hm, hrest]
        split
        · exact (List.getLast?_cons_of_ne_nil (List.getLast?_isSome.1 (hrest ▸ rfl))).symm
        · rfl
      | none =>
        have hempty : (rest.filter fun n => n.key == key) = [] :=
          List.filter_eq_nil_iff.2 fun m hm => by simpa using lastPosition?_eq_none.1 hlast m hm
        rw [hempty]
        by_cases hkey : n.key = key <;> simp [hkey]
  exact along g.nodes 0

/-! ## Imports and their edges -/

/-- An import leads to a node, or to a package. -/
inductive LeadsOn (g : ImportGraph) : Resolution → EdgeTarget → Prop
  | file {n : SourceNode} (h : n ∈ g.nodes) : LeadsOn g (.internal n.key) (.file n.key)
  | package (name : String) : LeadsOn g (.external name) (.package name)

theorem LeadsOn.exists_node {r : Resolution} (h : g.LeadsOn r (.file key)) : ∃ n ∈ g.nodes, n.key = key := by
  cases h with
  | file hn => exact ⟨_, hn, rfl⟩

theorem target?_eq_some_iff {r : Resolution} {t : EdgeTarget} : g.target? r = some t ↔ g.LeadsOn r t := by
  constructor
  · intro h
    cases r with
    | internal key =>
      obtain ⟨i, hi, rfl⟩ := Option.map_eq_some_iff.1 h
      obtain ⟨n, hn, rfl⟩ := position?_some hi
      exact .file (List.mem_of_getElem? hn)
    | external name => exact Option.some.inj h ▸ .package name
    | missing specifier => cases h
  · intro h
    cases h with
    | @file n hn =>
      cases hpos : g.position? n.key with
      | none => exact absurd rfl (position?_eq_none_iff.1 hpos n hn)
      | some i => rw [target?, hpos, Option.map_some]
    | package name => rfl

/-- The edge of an import, if it leads on. -/
def edge? (g : ImportGraph) (i : Nat) (r : ImportRecord) : Option ImportEdge :=
  (g.target? r.resolution).map fun t => ⟨i, t, r.clause.kind⟩

/-- An edge stands for the import that has a place among those of the node at a position. -/
def StandsFor (g : ImportGraph) (e : ImportEdge) (p : Nat × Nat) : Prop :=
  e.source = p.1 ∧ ∃ n r, g.nodes[p.1]? = some n ∧ n.imports[p.2]? = some r ∧ g.LeadsOn r.resolution e.target ∧
    e.kind = r.clause.kind

/-- The imports that lead on, by position of the node and place among its imports, in order. -/
def importPlaces (g : ImportGraph) : List (Nat × Nat) :=
  g.nodes.zipIdx.flatMap fun (n, i) =>
    (n.imports.zipIdx.filter fun (r, _) => (g.edge? i r).isSome).map fun (_, k) => (i, k)

theorem mem_importPlaces : (i, k) ∈ g.importPlaces ↔
    ∃ n r t, g.nodes[i]? = some n ∧ n.imports[k]? = some r ∧ g.LeadsOn r.resolution t := by
  simp only [importPlaces, List.mem_flatMap, List.mem_map, List.mem_filter, Prod.exists, Prod.mk.injEq,
    List.mk_mem_zipIdx_iff_getElem?, edge?, Option.isSome_map, Option.isSome_iff_exists, target?_eq_some_iff]
  constructor
  · rintro ⟨n, _, hn, r, _, ⟨hr, t, ht⟩, rfl, rfl⟩
    exact ⟨n, r, t, hn, hr, ht⟩
  · rintro ⟨n, r, t, hn, hr, ht⟩
    exact ⟨n, i, hn, r, k, ⟨hr, t, ht⟩, rfl, rfl⟩

theorem zipIdx_pairwise {α : Type} (l : List α) : l.zipIdx.Pairwise fun a b => a.2 < b.2 := by
  refine List.pairwise_map.1 ?_
  rw [List.zipIdx_map_snd]
  exact List.pairwise_lt_range'

theorem importPlaces_pairwise (g : ImportGraph) : g.importPlaces.Pairwise (Prod.Lex (· < ·) (· < ·)) := by
  refine List.pairwise_flatMap.2 ⟨fun a _ => ?_, (zipIdx_pairwise g.nodes).imp fun hlt x hx y hy => ?_⟩
  · exact List.pairwise_map.2 (((zipIdx_pairwise a.1.imports).filter _).imp fun hlt => .right _ hlt)
  · obtain ⟨_, -, rfl⟩ := List.mem_map.1 hx
    obtain ⟨_, -, rfl⟩ := List.mem_map.1 hy
    exact .left _ _ hlt

theorem edgesFrom_eq (g : ImportGraph) (i : Nat) (nodes : List SourceNode) :
    g.edgesFrom i nodes = (nodes.zipIdx i).flatMap fun (n, i) => g.edgesOf i n := by
  induction nodes generalizing i with
  | nil => rfl
  | cons n rest ih => rw [edgesFrom, ih, List.zipIdx_cons, List.flatMap_cons]

/-- The edges of some imports of a node, the first of which has the place `k`. -/
theorem standsFor_filterMap {n : SourceNode} (hn : g.nodes[i]? = some n) (rs : List ImportRecord) (k : Nat)
    (hrs : ∀ m r, rs[m]? = some r → n.imports[k + m]? = some r) :
    List.Forall₂ g.StandsFor (rs.filterMap (g.edge? i))
      (((rs.zipIdx k).filter fun (r, _) => (g.edge? i r).isSome).map fun (_, k) => (i, k)) := by
  induction rs generalizing k with
  | nil => exact .nil
  | cons r rs ih =>
    have hrest := ih (k + 1) fun m r' hr' => by
      rw [show k + 1 + m = k + (m + 1) by omega]
      exact hrs (m + 1) r' hr'
    rw [List.zipIdx_cons, List.filter_cons]
    cases hedge : g.edge? i r with
    | none => simpa [hedge] using hrest
    | some e =>
      obtain ⟨t, ht, rfl⟩ := Option.map_eq_some_iff.1 hedge
      have hstands : g.StandsFor ⟨i, t, r.clause.kind⟩ (i, k) :=
        ⟨rfl, n, r, hn, hrs 0 r rfl, target?_eq_some_iff.1 ht, rfl⟩
      simpa [hedge] using List.Forall₂.cons hstands hrest

theorem standsFor_edges (g : ImportGraph) : List.Forall₂ g.StandsFor g.edges g.importPlaces := by
  have along : ∀ (l : List (SourceNode × Nat)), (∀ a ∈ l, g.nodes[a.2]? = some a.1) →
      List.Forall₂ g.StandsFor (l.flatMap fun (n, i) => g.edgesOf i n)
        (l.flatMap fun (n, i) =>
          (n.imports.zipIdx.filter fun (r, _) => (g.edge? i r).isSome).map fun (_, k) => (i, k)) := by
    intro l
    induction l with
    | nil => exact fun _ => .nil
    | cons a l ih =>
      intro hall
      obtain ⟨ha, hrest⟩ := List.forall_mem_cons.1 hall
      rw [List.flatMap_cons, List.flatMap_cons]
      exact List.rel_append (standsFor_filterMap ha a.1.imports 0 fun m r hr => by rwa [Nat.zero_add]) (ih hrest)
  rw [edges, edgesFrom_eq]
  exact along g.nodes.zipIdx fun a ha => List.mk_mem_zipIdx_iff_getElem?.1 ha

/-! ## Edges and arcs filled together -/

/-- The arc of an edge that has a place in the list, if it leads to a file. -/
def arc? (g : ImportGraph) (e : ImportEdge) (place : Nat) : Option Arc :=
  match e.target with
  | .file key => (g.position? key).map fun j => ⟨e.source, j, place⟩
  | .package _ => none

theorem arc?_eq_some_iff {e : ImportEdge} {place : Nat} {a : Arc} : g.arc? e place = some a ↔
    a.place = place ∧ a.source = e.source ∧ ∃ key, e.target = .file key ∧ g.Owns key a.target := by
  unfold arc?
  cases ht : e.target with
  | file key =>
    simp only [Option.map_eq_some_iff, position?_eq_some_iff, EdgeTarget.file.injEq, exists_eq_left']
    constructor
    · rintro ⟨j, hj, rfl⟩
      exact ⟨rfl, rfl, hj⟩
    · rintro ⟨rfl, hsource, hj⟩
      exact ⟨a.target, hj, by rw [← hsource]⟩
  | package name => simp

namespace Links

variable {l : Links} {r : ImportRecord}

/-- The arcs are those of the edges that lead to files, each at the place of its edge. -/
def Mirrors (g : ImportGraph) (l : Links) : Prop := l.arcs = l.edges.zipIdx.filterMap fun (e, place) => g.arc? e place

theorem add_eq (g : ImportGraph) (i : Nat) (l : Links) (r : ImportRecord) :
    l.add g i r = ⟨l.edges ++ (g.edge? i r).toList,
      l.arcs ++ ((g.edge? i r).bind fun e => g.arc? e l.edges.length).toList⟩ := by
  cases hr : r.resolution with
  | internal key => cases hpos : g.position? key <;> simp [add, edge?, target?, arc?, hr, hpos]
  | external name => simp [add, edge?, target?, arc?, hr]
  | missing specifier => simp [add, edge?, target?, hr]

theorem Mirrors.add (h : l.Mirrors g) (i : Nat) (r : ImportRecord) : (l.add g i r).Mirrors g := by
  rw [Mirrors, add_eq, h]
  cases g.edge? i r with
  | none => simp
  | some e => cases harc : g.arc? e l.edges.length <;> simp [List.zipIdx_append, List.filterMap_append, harc]

theorem foldl_add (h : l.Mirrors g) (i : Nat) (rs : List ImportRecord) :
    (rs.foldl (Links.add g i) l).Mirrors g ∧
      (rs.foldl (Links.add g i) l).edges = l.edges ++ rs.filterMap (g.edge? i) := by
  induction rs generalizing l with
  | nil => exact ⟨h, (List.append_nil _).symm⟩
  | cons r rs ih =>
    obtain ⟨hmirrors, hedges⟩ := ih (h.add i r)
    refine ⟨hmirrors, ?_⟩
    rw [List.foldl_cons, hedges, add_eq, List.append_assoc]
    cases hedge : g.edge? i r <;> simp [hedge]

theorem addFrom_spec (h : l.Mirrors g) (i : Nat) (nodes : List SourceNode) :
    (Links.addFrom g i nodes l).Mirrors g ∧ (Links.addFrom g i nodes l).edges = l.edges ++ g.edgesFrom i nodes := by
  induction nodes generalizing l i with
  | nil => exact ⟨h, (List.append_nil _).symm⟩
  | cons n rest ih =>
    obtain ⟨hnode, hedges⟩ := foldl_add h i n.imports
    obtain ⟨hmirrors, hall⟩ := ih hnode (i + 1)
    refine ⟨hmirrors, ?_⟩
    rw [addFrom, hall, hedges, edgesFrom, List.append_assoc]
    rfl

end Links

theorem edges_links (g : ImportGraph) : g.links.edges = g.edges :=
  (Links.addFrom_spec (l := ⟨[], []⟩) rfl 0 g.nodes).2

theorem arcs_links (g : ImportGraph) : g.links.arcs = g.edges.zipIdx.filterMap fun (e, place) => g.arc? e place := by
  rw [← edges_links]
  exact (Links.addFrom_spec (l := ⟨[], []⟩) rfl 0 g.nodes).1

theorem mem_arcs {a : Arc} : a ∈ g.links.arcs ↔ ∃ e key, g.edges[a.place]? = some e ∧ e.source = a.source ∧
    e.target = .file key ∧ g.Owns key a.target := by
  simp only [arcs_links, List.mem_filterMap, Prod.exists, List.mk_mem_zipIdx_iff_getElem?, arc?_eq_some_iff]
  constructor
  · rintro ⟨e, _, he, rfl, hsource, key, hkey, howns⟩
    exact ⟨e, key, he, hsource.symm, hkey, howns⟩
  · rintro ⟨e, key, he, hsource, hkey, howns⟩
    exact ⟨e, a.place, he, rfl, hsource.symm, key, hkey, howns⟩

theorem arcs_pairwise (g : ImportGraph) : g.links.arcs.Pairwise fun a b => a.place < b.place := by
  rw [arcs_links, List.pairwise_filterMap]
  refine (zipIdx_pairwise g.edges).imp fun hlt a ha b hb => ?_
  rw [(arc?_eq_some_iff.1 ha).1, (arc?_eq_some_iff.1 hb).1]
  exact hlt

theorem length_arcs (g : ImportGraph) : g.links.arcs.length = g.internalEdges := by
  have hsome : ∀ a ∈ g.edges.zipIdx, (g.arc? a.1 a.2).isSome = a.1.target.isFile := by
    intro a ha
    obtain ⟨n, -, r, -, htarget, -⟩ := mem_edges.1 (List.fst_mem_of_mem_zipIdx ha)
    unfold arc?
    cases ht : a.1.target with
    | file key =>
      rw [ht] at htarget
      have howner := (target?_eq_file.1 htarget).1
      simpa [successor?, (target?_eq_file.1 htarget).2, EdgeTarget.isFile] using howner
    | package name => rfl
  rw [arcs_links, internalEdges, List.length_filterMap_eq_countP, List.countP_congr fun a ha => by rw [hsome a ha]]
  conv_rhs => rw [← List.zipIdx_map_fst 0 g.edges, List.filter_map, List.length_map]
  exact List.countP_eq_length_filter

/-! ## Successors read back -/

theorem notBehind_trans (a b c : Arc) (hab : a.notBehind b = true) (hbc : b.notBehind c = true) :
    a.notBehind c = true := by
  simp only [Arc.notBehind, Bool.or_eq_true, Bool.and_eq_true, decide_eq_true_eq, beq_iff_eq] at hab hbc ⊢
  omega

theorem notBehind_total (a b : Arc) : (a.notBehind b || b.notBehind a) = true := by
  simp only [Arc.notBehind, Bool.or_eq_true, Bool.and_eq_true, decide_eq_true_eq, beq_iff_eq]
  omega

theorem mergeSort_reverse {arcs : List Arc} (h : arcs.Pairwise fun a b => a.place < b.place) :
    arcs.reverse.mergeSort Arc.notBehind = arcs := by
  have hsorted : arcs.Pairwise fun a b => a.notBehind b = true := h.imp fun hlt => by simp [Arc.notBehind, hlt]
  have hperm := (List.mergeSort_perm arcs.reverse Arc.notBehind).trans (List.reverse_perm arcs)
  refine List.Perm.eq_of_pairwise (fun a b ha hb hab hba => ?_)
    (List.pairwise_mergeSort notBehind_trans notBehind_total _) hsorted hperm
  have hnodup : (arcs.map (·.place)).Nodup := List.pairwise_map.2 (h.imp Nat.ne_of_lt)
  refine List.inj_on_of_nodup_map hnodup (hperm.mem_iff.1 ha) hb ?_
  simp only [Arc.notBehind, Bool.or_eq_true, Bool.and_eq_true, decide_eq_true_eq, beq_iff_eq] at hab hba
  omega

/-- The position that an edge leads to, if it leaves a position and is of a wanted kind. -/
def followed? (g : ImportGraph) (staticOnly : Bool) (i : Nat) (e : ImportEdge) : Option Nat :=
  if e.source == i && (!staticOnly || e.kind == .static) then (g.arc? e 0).map (·.target) else none

theorem arc?_map_target (g : ImportGraph) (e : ImportEdge) (place : Nat) :
    (g.arc? e place).map (·.target) = (g.arc? e 0).map (·.target) := by
  unfold arc?
  cases e.target with
  | file key => simp [Option.map_map, Function.comp_def]
  | package name => rfl

theorem targets_arcs (g : ImportGraph) (staticOnly : Bool) (i : Nat) :
    ((g.links.arcs.filter (·.source == i)).filter (g.links.isWanted staticOnly)).map (·.target) =
      g.edges.filterMap (g.followed? staticOnly i) := by
  have hread : ∀ a ∈ g.edges.zipIdx, ((g.arc? a.1 a.2).filter fun a =>
      g.links.isWanted staticOnly a && a.source == i).map (·.target) = g.followed? staticOnly i a.1 := by
    intro a ha
    have hplace : g.links.edges[a.2]? = some a.1 := edges_links g ▸ List.mk_mem_zipIdx_iff_getElem?.1 ha
    rw [followed?, ← arc?_map_target g a.1 a.2]
    cases harc : g.arc? a.1 a.2 with
    | none => simp
    | some b =>
      obtain ⟨hp, hsource, -⟩ := arc?_eq_some_iff.1 harc
      simp only [Option.filter_some, Links.isWanted, hp, hplace, hsource, Option.any_some, Bool.and_comm]
      split <;> rfl
  conv_rhs => rw [← List.zipIdx_map_fst 0 g.edges, List.filterMap_map]
  rw [arcs_links, List.filter_filter, List.filter_filterMap, List.map_filterMap]
  exact List.filterMap_congr hread

theorem edge?_bind_followed? (g : ImportGraph) (staticOnly : Bool) (i j : Nat) (r : ImportRecord) :
    (g.edge? j r).bind (g.followed? staticOnly i) = if j = i then g.successor? staticOnly r else none := by
  unfold edge? followed? arc? successor? target?
  cases r.resolution with
  | internal key => by_cases hj : j = i <;> cases hpos : g.position? key <;> cases staticOnly <;> simp [hj, hpos]
  | external name => simp
  | missing specifier => simp

theorem filterMap_edgesOf (g : ImportGraph) (staticOnly : Bool) (i j : Nat) (n : SourceNode) :
    (g.edgesOf j n).filterMap (g.followed? staticOnly i) =
      if j = i then n.imports.filterMap (g.successor? staticOnly) else [] := by
  have hread := funext (edge?_bind_followed? g staticOnly i j)
  rw [edgesOf, List.filterMap_filterMap]
  refine (congrArg (n.imports.filterMap ·) hread).trans ?_
  split <;> simp

theorem filterMap_edgesFrom_of_lt (g : ImportGraph) (staticOnly : Bool) (nodes : List SourceNode) (h : i < k) :
    (g.edgesFrom k nodes).filterMap (g.followed? staticOnly i) = [] := by
  induction nodes generalizing k with
  | nil => rfl
  | cons n rest ih =>
    rw [edgesFrom, List.filterMap_append, filterMap_edgesOf, if_neg (Nat.ne_of_gt h), ih (Nat.lt_succ_of_lt h)]
    rfl

theorem filterMap_edgesFrom (g : ImportGraph) (staticOnly : Bool) (nodes : List SourceNode) (h : k ≤ i) :
    (g.edgesFrom k nodes).filterMap (g.followed? staticOnly i) =
      (nodes[i - k]?).elim [] fun n => n.imports.filterMap (g.successor? staticOnly) := by
  induction nodes generalizing k with
  | nil => rfl
  | cons n rest ih =>
    rw [edgesFrom, List.filterMap_append, filterMap_edgesOf]
    rcases Nat.lt_or_eq_of_le h with hlt | rfl
    · rw [if_neg (Nat.ne_of_lt hlt), ih hlt, show i - k = (i - (k + 1)) + 1 by omega, List.getElem?_cons_succ]
      rfl
    · rw [if_pos rfl, filterMap_edgesFrom_of_lt g staticOnly rest (Nat.lt_succ_self k), Nat.sub_self, List.append_nil]
      rfl

theorem successors_links (g : ImportGraph) (staticOnly : Bool) (i : Nat) :
    g.links.successors staticOnly i = g.successors staticOnly i := by
  have hsorted : ((g.links.arcs.filter (·.source == i)).filter (g.links.isWanted staticOnly)).Pairwise
      fun a b => a.place < b.place := (arcs_pairwise g).sublist (List.filter_sublist.trans List.filter_sublist)
  rw [Links.successors, Links.outgoing, List.filter_reverse, mergeSort_reverse hsorted, targets_arcs, edges,
    filterMap_edgesFrom g staticOnly g.nodes (Nat.zero_le i), Nat.sub_zero, successors]
  cases g.nodes[i]? <;> rfl

/-! ## The order of successors -/

theorem distinct_filterMap_pairwise {α : Type} (f : α → Option Nat) (l : List α) :
    (distinct (l.filterMap f)).Pairwise fun j k =>
      ∃ front, front <+: l ∧ (∃ r ∈ front, f r = some j) ∧ ∀ r ∈ front, f r ≠ some k := by
  induction l with
  | nil => exact .nil
  | cons r rest ih =>
    -- what is in order behind the first item is in order behind it still, unless the item leads to it
    have hbehind : ∀ j k, f r ≠ some k → (∃ front, front <+: rest ∧ (∃ r ∈ front, f r = some j) ∧
        ∀ r ∈ front, f r ≠ some k) → ∃ front, front <+: r :: rest ∧ (∃ r ∈ front, f r = some j) ∧
          ∀ r ∈ front, f r ≠ some k := by
      rintro j k hne ⟨front, hprefix, ⟨q, hq, hj⟩, hnone⟩
      exact ⟨r :: front, List.cons_prefix_cons.2 ⟨rfl, hprefix⟩, ⟨q, List.mem_cons_of_mem r hq, hj⟩,
        List.forall_mem_cons.2 ⟨hne, hnone⟩⟩
    cases hr : f r with
    | none =>
      rw [List.filterMap_cons_none hr]
      exact ih.imp fun {j k} h => hbehind j k (hr ▸ nofun) h
    | some i =>
      rw [List.filterMap_cons_some hr, distinct]
      refine List.pairwise_cons.2 ⟨fun k hk => ?_, List.pairwise_filter.2 (ih.imp fun {j k} h _ hk => ?_)⟩
      · have hne : k ≠ i := bne_iff_ne.1 (List.mem_filter.1 hk).2
        exact ⟨[r], ⟨rest, rfl⟩, ⟨r, List.mem_singleton_self r, hr⟩,
          List.forall_mem_singleton.2 fun h => hne (Option.some.inj (h.symm.trans hr))⟩
      · exact hbehind j k (fun h => bne_iff_ne.1 hk (Option.some.inj (h.symm.trans hr))) h

/-- An import leads to a position that owns what it imports, and is static if that is asked. -/
def Toward (g : ImportGraph) (staticOnly : Bool) (r : ImportRecord) (j : Nat) : Prop :=
  ∃ key, r.resolution = .internal key ∧ (staticOnly = true → r.clause.kind = .static) ∧ g.Owns key j

theorem toward_iff {r : ImportRecord} : g.Toward staticOnly r j ↔ g.successor? staticOnly r = some j := by
  simp only [successor?_eq_some, Toward, position?_eq_some_iff]

/-! ## A graph in step -/

/-- The graph of some nodes, its edges and its digraph in step. -/
structure InStep (nodes : List SourceNode) (g : ImportGraph) : Prop where
  perm : g.nodes.Perm nodes
  sorted : g.nodes.Pairwise fun m n => m.key ≤ n.key
  stable : ∀ key, (g.nodes.filter fun n => n.key == key) = nodes.filter fun n => n.key == key
  position : ∀ key i, g.position? key = some i ↔ g.Owns key i
  owner : ∀ key, g.node? key = (nodes.filter fun n => n.key == key).getLast?
  /-- Edges stand for the imports that lead on, by node and then in import order. -/
  edges : ∃ places : List (Nat × Nat), places.Pairwise (Prod.Lex (· < ·) (· < ·)) ∧
    (∀ i k, (i, k) ∈ places ↔
      ∃ n r t, g.nodes[i]? = some n ∧ n.imports[k]? = some r ∧ g.LeadsOn r.resolution t) ∧
    List.Forall₂ g.StandsFor g.edges places
  ends : ∀ e ∈ g.edges, (∃ n ∈ nodes, g.nodes[e.source]? = some n ∧ n.key = g.keyAt e.source) ∧
    ((∃ n ∈ nodes, e.target = .file n.key ∧ e.target.text = n.key) ∨
      ∃ name, e.target = .package name ∧ e.target.text = "npm:" ++ name)
  /-- Both structures are filled with the same edges. -/
  filled : g.links.edges = g.edges
  arcs : ∀ a, a ∈ g.links.arcs ↔
    ∃ e key, g.edges[a.place]? = some e ∧ e.source = a.source ∧ e.target = .file key ∧ g.Owns key a.target
  once : g.links.arcs.Pairwise fun a b => a.place < b.place
  count : g.internalEdges = g.links.arcs.length ∧ g.internalEdges = g.edges.countP (·.target.isFile)
  readBack : ∀ staticOnly i, g.links.successors staticOnly i = g.successors staticOnly i
  nodup : ∀ staticOnly i, (g.successors staticOnly i).Nodup
  successors : ∀ staticOnly i j, j ∈ g.successors staticOnly i ↔
    ∃ n, g.nodes[i]? = some n ∧ ∃ r ∈ n.imports, g.Toward staticOnly r j
  /-- Of two successors, the first one has an import before any import of the other one. -/
  inOrder : ∀ staticOnly i n, g.nodes[i]? = some n → (g.successors staticOnly i).Pairwise fun j k =>
    ∃ front, front <+: n.imports ∧ (∃ r ∈ front, g.Toward staticOnly r j) ∧ ∀ r ∈ front, ¬ g.Toward staticOnly r k
  subset : ∀ i, g.successors true i ⊆ g.successors false i

/-- The graph of any nodes is in step with its digraph, also if keys repeat. -/
theorem inStep_ofNodes (nodes : List SourceNode) : InStep nodes (ofNodes nodes) where
  perm := List.mergeSort_perm nodes SourceNode.keyLe
  sorted := (sorted_ofNodes nodes).imp String.not_lt.1
  stable key := KeyOrder.filter_key_mergeSort SourceNode.key key nodes
  position _ _ := position?_eq_some_iff
  owner key := by
    rw [node?_eq_getLast?]
    exact congrArg List.getLast? (KeyOrder.filter_key_mergeSort SourceNode.key key nodes)
  edges := ⟨_, importPlaces_pairwise _, fun _ _ => mem_importPlaces, standsFor_edges _⟩
  ends e he := by
    have hmem : ∀ {n}, n ∈ (ofNodes nodes).nodes → n ∈ nodes := (List.mergeSort_perm nodes SourceNode.keyLe).mem_iff.1
    obtain ⟨n, hn, r, -, ht, -⟩ := mem_edges.1 he
    refine ⟨⟨n, hmem (List.mem_of_getElem? hn), hn, by rw [keyAt, hn]; rfl⟩, ?_⟩
    cases htarget : e.target with
    | file key =>
      obtain ⟨m, hm, rfl⟩ := (target?_eq_some_iff.1 (htarget ▸ ht)).exists_node
      exact .inl ⟨m, hmem hm, rfl, rfl⟩
    | package name => exact .inr ⟨name, rfl, rfl⟩
  filled := edges_links _
  arcs _ := mem_arcs
  once := arcs_pairwise _
  count := ⟨(length_arcs _).symm, List.countP_eq_length_filter.symm⟩
  readBack := successors_links _
  nodup := nodup_successors _
  successors staticOnly i j := by simp only [mem_successors_iff, toward_iff]
  inOrder staticOnly i n hn := by
    simp only [toward_iff]
    rw [ImportGraph.successors, hn]
    exact distinct_filterMap_pairwise _ n.imports
  subset i j hj := by
    simp only [mem_successors_iff, ← toward_iff] at hj ⊢
    obtain ⟨n, hn, r, hr, key, hres, -, howns⟩ := hj
    exact ⟨n, hn, r, hr, key, hres, fun h => absurd h Bool.false_ne_true, howns⟩

end TreeRepair.ImportGraph
