import Mathlib.Algebra.BigOperators.Group.List.Basic
import Mathlib.Algebra.Order.Ring.Nat
import TreeRepair.Graph.Analysis
import TreeRepair.Proofs.Graph.Reachability
import TreeRepair.Syntax.Table

/-! An analysis agrees with itself. Weak points, factors, plan and counts are derived one by one from the graph; over
files with distinct keys they say the same of it. A parse error is critical if and only if imports of any kind lead to
its file from an entry point. -/

set_option autoImplicit false

namespace TreeRepair

open Relation (ReflTransGen)

/-! ## Imports by keys -/

namespace ImportGraph

/-- The file with one key imports the file with another one, on loading or later. -/
def Imports (g : ImportGraph) (a b : String) : Prop := ∃ e ∈ g.edges, g.keyAt e.source = a ∧ e.target = .file b

/-- The nodes are in the order of their keys, and each key has one node. -/
def Keyed (g : ImportGraph) : Prop := (g.nodes.map (·.key)).Pairwise (· < ·)

theorem keyed_ofNodes {nodes : List SourceNode} (h : (nodes.map (·.key)).Nodup) : (ofNodes nodes).Keyed := by
  have hdistinct : ((ofNodes nodes).nodes.map (·.key)).Nodup :=
    ((List.mergeSort_perm nodes SourceNode.keyLe).map (·.key)).nodup_iff.2 h
  exact List.pairwise_map.2 ((List.pairwise_map.1 hdistinct).imp₂ (fun _ _ hne hle => SortedMap.lt_of_not_lt hne.symm hle)
    (sorted_ofNodes nodes))

variable {g : ImportGraph} {i j : Nat} {a b : String}

theorem Keyed.filter (h : g.Keyed) (p : SourceNode → Bool) : ((g.nodes.filter p).map (·.key)).Pairwise (· < ·) :=
  h.sublist (List.filter_sublist.map _)

theorem keyAt_eq {n : SourceNode} (h : g.nodes[i]? = some n) : g.keyAt i = n.key := by
  rw [keyAt, h]
  rfl

theorem Keyed.index_eq (h : g.Keyed) {n m : SourceNode} (hi : g.nodes[i]? = some n) (hj : g.nodes[j]? = some m)
    (hkey : n.key = m.key) : i = j := by
  have hnodup : (g.nodes.map (·.key)).Nodup := h.imp String.ne_of_lt
  have hlt : i < (g.nodes.map (·.key)).length := by
    rw [List.length_map]
    exact (List.getElem?_eq_some_iff.1 hi).1
  refine (List.getElem?_inj hlt hnodup).1 ?_
  rw [List.getElem?_map, List.getElem?_map, hi, hj, Option.map_some, Option.map_some, hkey]

theorem Keyed.reflTransGen_imports (h : g.Keyed) {n : SourceNode} (hi : g.nodes[i]? = some n) :
    ReflTransGen g.Imports n.key b ↔
      ∃ j m, g.nodes[j]? = some m ∧ m.key = b ∧ ReflTransGen (fun a b => b ∈ g.successors false a) i j := by
  constructor
  · intro hreach
    induction hreach with
    | refl => exact ⟨i, n, hi, rfl, .refl⟩
    | tail _ hstep ih =>
      obtain ⟨j, m, hj, rfl, hreach⟩ := ih
      obtain ⟨e, he, hsource, htarget⟩ := hstep
      obtain ⟨s, hs, r, -, ht, -⟩ := mem_edges.1 he
      rw [keyAt_eq hs] at hsource
      have hindex : e.source = j := h.index_eq hs hj hsource
      rw [htarget] at ht
      obtain ⟨k, hk⟩ := Option.isSome_iff_exists.1 (target?_eq_file.1 ht).1
      rw [successor?, (target?_eq_file.1 ht).2] at hk
      obtain ⟨t, ht, hkey⟩ := position?_some (by simpa using hk)
      refine ⟨k, t, ht, hkey, hreach.tail (mem_successors.2 ⟨e, he, hindex, _, htarget, by simpa using hk⟩)⟩
  · rintro ⟨j, m, hj, rfl, hreach⟩
    have hlift : ReflTransGen g.Imports (g.keyAt i) (g.keyAt j) := hreach.lift g.keyAt fun a b hab => by
      obtain ⟨e, he, rfl, key, htarget, hpos⟩ := mem_successors.1 hab
      exact ⟨e, he, rfl, by rw [htarget, keyAt_of_position? hpos]⟩
    rwa [keyAt_eq hi, keyAt_eq hj] at hlift

theorem mem_entryPositions : i ∈ g.entryPositions ↔ ∃ n, g.nodes[i]? = some n ∧ n.isEntryPoint = true := by
  rw [entryPositions, List.mem_filter, List.mem_range, Option.any_eq_true]
  constructor
  · rintro ⟨-, n, hn, hentry⟩
    exact ⟨n, hn, hentry⟩
  · rintro ⟨n, hn, hentry⟩
    exact ⟨(List.getElem?_eq_some_iff.1 hn).1, n, hn, hentry⟩

theorem mem_entryKeys {key : String} :
    key ∈ g.entryPositions.map g.keyAt ↔ ∃ n ∈ g.nodes, n.isEntryPoint = true ∧ n.key = key := by
  rw [List.mem_map]
  constructor
  · rintro ⟨i, hi, rfl⟩
    obtain ⟨n, hn, hentry⟩ := mem_entryPositions.1 hi
    exact ⟨n, List.mem_of_getElem? hn, hentry, (keyAt_eq hn).symm⟩
  · rintro ⟨n, hn, hentry, rfl⟩
    obtain ⟨i, hi⟩ := List.mem_iff_getElem?.1 hn
    exact ⟨i, mem_entryPositions.2 ⟨n, hi, hentry⟩, keyAt_eq hi⟩

/-- The keys on critical paths. -/
def criticalKeys (g : ImportGraph) : List String := g.criticalPaths.flatMap fun p => p.files.map (·.1)

/-- A file that matters is on a critical path if and only if imports lead to it from an entry point. -/
theorem Keyed.mem_criticalKeys (h : g.Keyed) {n : SourceNode} (hn : n ∈ g.nodes) (hreason : n.criticalReason?.isSome) :
    n.key ∈ g.criticalKeys ↔ ∃ entry ∈ g.entryPositions.map g.keyAt, ReflTransGen g.Imports entry n.key := by
  simp only [criticalKeys, criticalPaths, criticalPath, List.mem_flatMap, List.mem_map, List.mem_filterMap,
    exists_exists_and_eq_and]
  constructor
  · rintro ⟨i, hi, ⟨key, reason⟩, ⟨j, hj, hcritical⟩, rfl⟩
    refine ⟨i, hi, ?_⟩
    obtain ⟨m, hm, -⟩ := mem_entryPositions.1 hi
    obtain ⟨k, hk, hkey⟩ : ∃ k, g.nodes[j]? = some k ∧ k.key = n.key := by
      simp only [critical?, Option.bind_eq_some_iff, Option.map_eq_some_iff] at hcritical
      obtain ⟨k, hk, _, -, heq⟩ := hcritical
      exact ⟨k, hk, congrArg Prod.fst heq⟩
    rw [keyAt_eq hm, h.reflTransGen_imports hm]
    exact ⟨j, k, hk, hkey, ((reachedFrom_spec (List.getElem?_eq_some_iff.1 hm).1).2 j).1 hj⟩
  · rintro ⟨i, hi, hreach⟩
    obtain ⟨m, hm, -⟩ := mem_entryPositions.1 hi
    rw [keyAt_eq hm, h.reflTransGen_imports hm] at hreach
    obtain ⟨j, k, hk, hkey, hreach⟩ := hreach
    obtain ⟨l, hl⟩ := List.mem_iff_getElem?.1 hn
    have hindex : j = l := h.index_eq hk hl hkey
    obtain rfl : k = n := Option.some.inj (hk.symm.trans (hindex ▸ hl))
    obtain ⟨reason, hreason⟩ := Option.isSome_iff_exists.1 hreason
    refine ⟨i, hi, (k.key, reason), ⟨j, ?_, ?_⟩, rfl⟩
    · exact ((reachedFrom_spec (List.getElem?_eq_some_iff.1 hm).1).2 j).2 hreach
    · rw [critical?, hk, Option.bind_some, hreason, Option.map_some]

end ImportGraph

/-! ## Weak points by kind -/

namespace SourceNode

variable {n : SourceNode} {onPath : Bool} {p : WeakPoint}

theorem errorPoint?_some (h : n.errorPoint? onPath = some p) :
    n.errors ≠ [] ∧ p.place = n.key ∧ p.kind = .parseError ∧ p.severity = if onPath then .critical else .high := by
  obtain ⟨first, hfirst, rfl⟩ := Option.map_eq_some_iff.1 h
  exact ⟨by rintro hnil; simp [hnil] at hfirst, rfl, rfl, rfl⟩

theorem sideEffectPoint?_some (h : n.sideEffectPoint? = some p) :
    p.place = n.key ∧ p.kind = .moduleSideEffect := by
  unfold sideEffectPoint? at h
  split at h
  · obtain rfl := Option.some.inj h
    exact ⟨rfl, rfl⟩
  · cases h

theorem mem_missingPoints (h : p ∈ n.missingPoints) : p.place = n.key ∧ p.kind = .missingDependency := by
  obtain ⟨specifier, -, rfl⟩ := List.mem_map.1 h
  exact ⟨rfl, rfl⟩

theorem renderPoint?_some (h : n.renderPoint? = some p) : p.kind = .missingImport := by
  unfold renderPoint? at h
  split at h
  · obtain rfl := Option.some.inj h
    rfl
  · cases h

/-- The weak points of a file that are of one kind. -/
def pointsOf (n : SourceNode) (onPath : Bool) : WeakKind → List WeakPoint
  | .parseError => (n.errorPoint? onPath).toList
  | .moduleSideEffect => n.sideEffectPoint?.toList
  | .missingDependency => n.missingPoints
  | .missingImport => n.renderPoint?.toList
  | .circularDependency => []

theorem filter_weakPoints (n : SourceNode) (onPath : Bool) (kind : WeakKind) :
    (n.weakPoints onPath).filter (·.kind == kind) = n.pointsOf onPath kind := by
  have herror : ∀ p ∈ (n.errorPoint? onPath).toList, p.kind = .parseError :=
    fun p hp => (errorPoint?_some (Option.mem_toList.1 hp)).2.2.1
  have heffect : ∀ p ∈ n.sideEffectPoint?.toList, p.kind = .moduleSideEffect :=
    fun p hp => (sideEffectPoint?_some (Option.mem_toList.1 hp)).2
  have hmissing : ∀ p ∈ n.missingPoints, p.kind = .missingDependency := fun p hp => (mem_missingPoints hp).2
  have hrender : ∀ p ∈ n.renderPoint?.toList, p.kind = .missingImport :=
    fun p hp => renderPoint?_some (Option.mem_toList.1 hp)
  have hall : ∀ (k : WeakKind) (l : List WeakPoint), (∀ p ∈ l, p.kind = k) →
      l.filter (·.kind == kind) = if k = kind then l else [] := by
    intro k l hl
    split
    · rename_i hk
      exact List.filter_eq_self.2 fun p hp => by simp [hl p hp, hk]
    · rename_i hk
      exact List.filter_eq_nil_iff.2 fun p hp => by simp [hl p hp, hk]
  simp only [weakPoints, List.filter_append, hall _ _ herror, hall _ _ heffect, hall _ _ hmissing, hall _ _ hrender]
  cases kind <;> simp [pointsOf]

end SourceNode

namespace Analysis

section Points

variable {g : ImportGraph} {cycles : List ImportCycle} {critical : List String}

theorem filter_weakPointsOf (g : ImportGraph) (cycles : List ImportCycle) (critical : List String) (kind : WeakKind) :
    (weakPointsOf g cycles critical).filter (·.kind == kind) =
      (g.nodes.flatMap fun n => n.pointsOf (critical.contains n.key) kind) ++
        if kind = .circularDependency then cycles.map ImportCycle.weakPoint else [] := by
  rw [weakPointsOf, List.filter_append, List.filter_flatMap]
  simp only [SourceNode.filter_weakPoints]
  congr 1
  split
  · rename_i hkind
    exact List.filter_eq_self.2 fun p hp => by
      obtain ⟨c, -, rfl⟩ := List.mem_map.1 hp
      simp [ImportCycle.weakPoint, hkind]
  · rename_i hkind
    refine List.filter_eq_nil_iff.2 fun p hp => ?_
    obtain ⟨c, -, rfl⟩ := List.mem_map.1 hp
    simpa [ImportCycle.weakPoint] using Ne.symm hkind

theorem places_flatMap {l : List SourceNode} {points : SourceNode → List WeakPoint} {has : SourceNode → Bool}
    (h : ∀ n, (points n).map (·.place) = if has n then [n.key] else []) :
    (l.flatMap points).map (·.place) = (l.filter has).map (·.key) := by
  induction l with
  | nil => rfl
  | cons n rest ih =>
    rw [List.flatMap_cons, List.map_append, h, ih, List.filter_cons]
    split <;> rfl

/-- Whether a weak point is a critical parse error. -/
def isCriticalError (p : WeakPoint) : Bool := p.kind == .parseError && p.severity == .critical

theorem places_criticalErrors (g : ImportGraph) (cycles : List ImportCycle) (critical : List String) :
    ((weakPointsOf g cycles critical).filter isCriticalError).map (·.place) =
      (g.nodes.filter fun n => !n.errors.isEmpty && critical.contains n.key).map (·.key) := by
  have hsplit : (weakPointsOf g cycles critical).filter isCriticalError =
      ((weakPointsOf g cycles critical).filter (·.kind == .parseError)).filter (·.severity == .critical) := by
    rw [List.filter_filter]
    exact List.filter_congr fun p _ => Bool.and_comm _ _
  rw [hsplit, filter_weakPointsOf, if_neg (by decide), List.append_nil, List.filter_flatMap]
  refine places_flatMap fun n => ?_
  cases herrors : n.errors with
  | nil => simp [SourceNode.pointsOf, SourceNode.errorPoint?, herrors]
  | cons first rest =>
    cases hcritical : critical.contains n.key <;>
      simp [SourceNode.pointsOf, SourceNode.errorPoint?, herrors]

theorem places_sideEffects (g : ImportGraph) (cycles : List ImportCycle) (critical : List String) :
    ((weakPointsOf g cycles critical).filter (·.kind == .moduleSideEffect)).map (·.place) =
      (g.nodes.filter fun n => n.hasSideEffects && n.role != .utility).map (·.key) := by
  rw [filter_weakPointsOf, if_neg (by decide), List.append_nil]
  refine places_flatMap fun n => ?_
  rw [SourceNode.pointsOf, SourceNode.sideEffectPoint?]
  split <;> rfl

theorem mem_unresolved {key : String} :
    key ∈ (g.nodes.filter fun n => !n.unresolved.isEmpty).map (·.key) ↔
      ∃ p ∈ weakPointsOf g cycles critical, p.kind = .missingDependency ∧ p.place = key := by
  have hpoints : ∀ p, p ∈ weakPointsOf g cycles critical ∧ p.kind = .missingDependency ↔
      ∃ n ∈ g.nodes, p ∈ n.missingPoints := by
    intro p
    have hmem : p ∈ (weakPointsOf g cycles critical).filter (·.kind == .missingDependency) ↔
        p ∈ weakPointsOf g cycles critical ∧ p.kind = .missingDependency := by
      rw [List.mem_filter, beq_iff_eq]
    rw [← hmem, filter_weakPointsOf, if_neg (by decide), List.append_nil, List.mem_flatMap]
    rfl
  constructor
  · intro hkey
    obtain ⟨n, hn, rfl⟩ := List.mem_map.1 hkey
    obtain ⟨hn, hunresolved⟩ := List.mem_filter.1 hn
    obtain ⟨specifier, hs⟩ := List.exists_mem_of_ne_nil n.unresolved (by simpa using hunresolved)
    have hp := (hpoints _).2 ⟨n, hn, List.mem_map.2 ⟨specifier, hs, rfl⟩⟩
    exact ⟨_, hp.1, hp.2, rfl⟩
  · rintro ⟨p, hp, hkind, rfl⟩
    obtain ⟨n, hn, hmem⟩ := (hpoints p).1 ⟨hp, hkind⟩
    obtain ⟨specifier, hs, rfl⟩ := List.mem_map.1 hmem
    exact List.mem_map.2 ⟨n, List.mem_filter.2 ⟨hn, by simpa using List.ne_nil_of_mem hs⟩, rfl⟩

end Points

/-! ## Sums over a table -/

theorem sum_length_filter {α κ : Type} [DecidableEq κ] (f : α → κ) {all : List κ}
    (hall : ∀ k, (all.map fun j => if k = j then 1 else 0).sum = 1) (l : List α) :
    (all.map fun k => (l.filter (f · == k)).length).sum = l.length := by
  induction l with
  | nil => simp
  | cons a rest ih =>
    have hstep : ∀ k, ((a :: rest).filter (f · == k)).length =
        (if f a = k then 1 else 0) + (rest.filter (f · == k)).length := by
      intro k
      by_cases hk : f a = k
      · rw [List.filter_cons_of_pos (by simpa using hk), if_pos hk, List.length_cons, Nat.add_comm]
      · rw [List.filter_cons_of_neg (by simpa using hk), if_neg hk, Nat.zero_add]
    simp only [hstep, List.sum_map_add, hall, ih, List.length_cons, Nat.add_comm]

theorem sum_filter_ne_zero {κ : Type} (l : List (κ × Nat)) :
    ((l.filter fun (_, n) => n != 0).map (·.2)).sum = (l.map (·.2)).sum := by
  induction l with
  | nil => rfl
  | cons p rest ih =>
    obtain ⟨k, n⟩ := p
    by_cases hn : n = 0
    · simpa [hn] using ih
    · simpa [hn] using ih

variable (a : Analysis)

theorem sum_counts : (a.counts.map (·.2)).sum = a.weakPoints.length := by
  rw [counts, sum_filter_ne_zero, List.map_map]
  exact sum_length_filter _ (fun k => by cases k <;> rfl) _

theorem sum_roles : (a.roles.map (·.2)).sum = a.graph.nodes.length := by
  rw [roles, sum_filter_ne_zero, List.map_map]
  exact sum_length_filter _ (fun k => by cases k <;> rfl) _

/-! ## Agreement -/

/-- Whether imports lead to a file from a file at which the project is entered. -/
def Reaches (a : Analysis) (key : String) : Prop :=
  ∃ entry ∈ a.entryPoints, ReflTransGen a.graph.Imports entry key

/-- A list of files in the order of their keys, each once: those of the weak points that are wanted. -/
structure Targets (keys : List String) (points : List WeakPoint) (wanted : WeakPoint → Prop) : Prop where
  ordered : keys.Pairwise (· < ·)
  mem : ∀ key, key ∈ keys ↔ ∃ p ∈ points, wanted p ∧ p.place = key

/-- The parts of an analysis say the same of the project. -/
structure Consistent (a : Analysis) : Prop where
  entries : ∀ key, key ∈ a.entryPoints ↔ ∃ n ∈ a.graph.nodes, n.isEntryPoint = true ∧ n.key = key
  critical : ∀ p ∈ a.weakPoints, p.kind = .parseError → (p.severity = .critical ↔ a.Reaches p.place)
  high : ∀ p ∈ a.weakPoints, p.kind = .parseError → (p.severity = .high ↔ ¬ a.Reaches p.place)
  criticalParseErrors : a.factors.criticalParseErrors =
    (a.weakPoints.filter fun p => p.kind == .parseError && p.severity == .critical).length
  sideEffects : a.factors.sideEffects = (a.weakPoints.filter (·.kind == .moduleSideEffect)).length
  missingDependencies : a.factors.missingDependencies = (a.weakPoints.filter (·.kind == .missingDependency)).length
  cycles : a.factors.cycles = (a.weakPoints.filter (·.kind == .circularDependency)).length
  plan : ∃ syntaxErrors effects missing, a.plan = .ofTargets syntaxErrors effects missing ∧
    Targets syntaxErrors a.weakPoints (fun p => p.kind = .parseError ∧ p.severity = .critical) ∧
    Targets effects a.weakPoints (fun p => p.kind = .moduleSideEffect) ∧
    Targets missing a.weakPoints (fun p => p.kind = .missingDependency)
  counts : (a.counts.map (·.2)).sum = a.weakPoints.length
  edges : a.graph.internalEdges + a.graph.externalEdges = a.graph.edges.length
  roles : (a.roles.map (·.2)).sum = a.graph.nodes.length

variable {a} {g : ImportGraph}

/-- The places of the points that are picked, if they are in order without repetition. -/
theorem targets_places {points : List WeakPoint} {picked : WeakPoint → Bool} {wanted : WeakPoint → Prop}
    (hpicked : ∀ p, picked p = true ↔ wanted p)
    (h : ((points.filter picked).map (·.place)).Pairwise (· < ·)) :
    Targets ((points.filter picked).map (·.place)) points wanted := by
  refine ⟨h, fun key => ?_⟩
  simp only [List.mem_map, List.mem_filter, hpicked, and_assoc]

/-- The grade of a parse error tells whether its file is on a critical path. -/
theorem severity_of_error {cycles : List ImportCycle} {critical : List String} {p : WeakPoint}
    (hp : p ∈ weakPointsOf g cycles critical) (hkind : p.kind = .parseError) :
    ∃ n ∈ g.nodes, n.errors ≠ [] ∧ p.place = n.key ∧
      p.severity = if critical.contains n.key then .critical else .high := by
  have hmem : p ∈ (weakPointsOf g cycles critical).filter (·.kind == .parseError) :=
    List.mem_filter.2 ⟨hp, by rw [hkind]; rfl⟩
  rw [filter_weakPointsOf, if_neg (by decide), List.append_nil] at hmem
  obtain ⟨n, hn, hpoint⟩ := List.mem_flatMap.1 hmem
  obtain ⟨herrors, hplace, -, hseverity⟩ := SourceNode.errorPoint?_some (Option.mem_toList.1 hpoint)
  exact ⟨n, hn, herrors, hplace, hseverity⟩

/-- A parse error is critical where imports lead to its file from an entry point, and high elsewhere. -/
theorem severity_ofGraph (survey : Survey) (h : g.Keyed) {p : WeakPoint} (hp : p ∈ (ofGraph survey g).weakPoints)
    (hkind : p.kind = .parseError) :
    (p.severity = .critical ↔ (ofGraph survey g).Reaches p.place) ∧
      (p.severity = .high ↔ ¬ (ofGraph survey g).Reaches p.place) := by
  obtain ⟨n, hn, herrors, hplace, hseverity⟩ := severity_of_error hp hkind
  have hreason : n.criticalReason?.isSome := by
    rw [SourceNode.criticalReason?, if_pos (by simpa using herrors)]
    rfl
  have hreach : g.criticalKeys.contains n.key = true ↔ (ofGraph survey g).Reaches n.key := by
    rw [List.contains_iff_mem, h.mem_criticalKeys hn hreason]
    rfl
  have hgrade : p.severity = if g.criticalKeys.contains n.key then .critical else .high := hseverity
  rw [hgrade, hplace, ← hreach]
  split <;> simp_all

theorem filter_cyclePoints (g : ImportGraph) (cycles : List ImportCycle) (critical : List String) :
    (weakPointsOf g cycles critical).filter (·.kind == .circularDependency) = cycles.map ImportCycle.weakPoint := by
  have hnodes : (g.nodes.flatMap fun n => n.pointsOf (critical.contains n.key) .circularDependency) = [] :=
    List.flatMap_eq_nil_iff.2 fun _ _ => rfl
  rw [filter_weakPointsOf, if_pos rfl, hnodes, List.nil_append]

/-- The targets of the plan are the files of the weak points of their kinds. -/
theorem plan_ofGraph (survey : Survey) (h : g.Keyed) :
    ∃ syntaxErrors effects missing, (ofGraph survey g).plan = .ofTargets syntaxErrors effects missing ∧
      Targets syntaxErrors (ofGraph survey g).weakPoints (fun p => p.kind = .parseError ∧ p.severity = .critical) ∧
      Targets effects (ofGraph survey g).weakPoints (fun p => p.kind = .moduleSideEffect) ∧
      Targets missing (ofGraph survey g).weakPoints (fun p => p.kind = .missingDependency) := by
  have herrors := places_criticalErrors g g.importCycles g.criticalKeys
  have heffects := places_sideEffects g g.importCycles g.criticalKeys
  refine ⟨_, _, _, rfl, ?_, ?_, h.filter _, fun key => mem_unresolved⟩
  · have hpicked : ∀ p, isCriticalError p = true ↔ p.kind = .parseError ∧ p.severity = .critical := fun p => by
      simp [isCriticalError]
    have htargets := targets_places hpicked (herrors ▸ h.filter _)
    rw [herrors] at htargets
    exact htargets
  · exact targets_places (fun p => beq_iff_eq) (heffects ▸ h.filter _)

theorem ofGraph_consistent (survey : Survey) (h : g.Keyed) : (ofGraph survey g).Consistent where
  entries _ := ImportGraph.mem_entryKeys
  critical _ hp hkind := (severity_ofGraph survey h hp hkind).1
  high _ hp hkind := (severity_ofGraph survey h hp hkind).2
  criticalParseErrors :=
    (congrArg List.length (places_criticalErrors g g.importCycles g.criticalKeys)).symm.trans (List.length_map _)
  sideEffects := List.length_map _
  missingDependencies := rfl
  cycles := ((congrArg List.length (filter_cyclePoints g g.importCycles g.criticalKeys)).trans (List.length_map _)).symm
  plan := plan_ofGraph survey h
  counts := sum_counts _
  edges := (List.length_eq_length_filter_add _).symm
  roles := sum_roles _

theorem ofNodes_consistent (survey : Survey) {nodes : List SourceNode} (h : (nodes.map (·.key)).Nodup) :
    (ofGraph survey (.ofNodes nodes)).Consistent := ofGraph_consistent survey (ImportGraph.keyed_ofNodes h)

/-! ## A project -/

variable {env : Surroundings} {resolver : Resolver} {root : Location}

theorem keys_read (env : Surroundings) (resolver : Resolver) (root : Location) (fs : List TreeFile) (r : Reading) :
    ∃ keys, ((fs.foldl (Reading.read env resolver root) r).nodes.map (·.key)) = r.nodes.map (·.key) ++ keys ∧
      keys.Sublist (fs.map (·.key)) := by
  induction fs generalizing r with
  | nil => exact ⟨[], (List.append_nil _).symm, List.Sublist.refl _⟩
  | cons f rest ih =>
    obtain ⟨keys, heq, hsub⟩ := ih (r.read env resolver root f)
    rw [List.foldl_cons, heq]
    unfold Reading.read
    split
    · exact ⟨keys, rfl, hsub.cons _⟩
    · refine ⟨f.key :: keys, ?_, hsub.cons_cons _⟩
      rw [List.map_append, List.append_assoc]
      rfl

theorem source_of_mem_nodes {filter : SourceFilter} {host : ParserHost} {files : Listing} {n : SourceNode}
    (h : n ∈ (runWith env filter resolver host files root).1.graph.nodes) :
    ∃ f ∈ filter.walkSources files root, f.key = n.key := by
  obtain ⟨keys, heq, hsub⟩ := keys_read env resolver root
    (filter.walkSources files root) ⟨[], .start (filter.walkSources files root).length, host, files⟩
  have hmem := List.mem_map_of_mem (f := (·.key)) (List.mem_mergeSort.1 h)
  rw [heq] at hmem
  exact List.mem_map.1 (hsub.subset hmem)

/-- An analysis of files with distinct keys agrees with itself, whatever the grammars and the resolver answer. -/
theorem runWith_consistent {filter : SourceFilter} {host : ParserHost} {files : Listing}
    (h : ((filter.walkSources files root).map (·.key)).Nodup) :
    (runWith env filter resolver host files root).1.Consistent := by
  obtain ⟨keys, heq, hsub⟩ := keys_read env resolver root
    (filter.walkSources files root) ⟨[], .start (filter.walkSources files root).length, host, files⟩
  refine ofNodes_consistent _ ?_
  rw [heq]
  exact hsub.nodup h

/-! ## A project of three files -/

/-- The tree of `import './a.js'`; every other text is refused. -/
def importing (text : String) : SyntaxTree :=
  if text = "import './a.js'" then
    .node ⟨"program", true, false, false, false, none, 0, 15⟩
      [.node ⟨"import_statement", true, false, false, false, none, 0, 15⟩
        [.node ⟨"string", true, false, false, false, some "source", 7, 15⟩ []]]
  else .refusal text

def plainly : Surroundings where
  grammars _ text := importing text
  contentHash bytes := Digest.hexText bytes.data.toList
  checksum bytes := Digest.hexText bytes.data.toList
  archives := .json
  process := 1
  clock n := n
  freshId n := toString n

/-- Of two files with errors, one is imported where the project is entered. -/
def threeFiles : Listing :=
  .dir "work" (.file "a.js" "let <".toUTF8 (.file "b.js" "let >".toUTF8
    (.file "main.js" "import './a.js'".toUTF8 .empty))) .empty

def scripts : SourceFilter := ⟨["js"], [], [], fun _ => false⟩

def threeSources : List TreeFile :=
  [⟨["work", "a.js"], "a.js", 5⟩, ⟨["work", "b.js"], "b.js", 5⟩, ⟨["work", "main.js"], "main.js", 15⟩]

theorem walkSources_threeFiles : scripts.walkSources threeFiles ["work"] = threeSources := by
  rw [SourceFilter.walkSources, SourceFilter.walk]
  exact List.mergeSort_of_pairwise (l := threeSources) (by decide)

/-- What the three files are read as. -/
def threeRead : Reading :=
  threeSources.foldl (Reading.read plainly Resolution.inTree ["work"])
    ⟨[], .start 3, .fresh (.fresh none) 100, threeFiles⟩

theorem runWith_threeFiles :
    (runWith plainly scripts Resolution.inTree (.fresh (.fresh none) 100) threeFiles ["work"]).1 =
      ofGraph threeRead.survey ⟨threeRead.nodes⟩ := by
  have hsorted : ImportGraph.ofNodes threeRead.nodes = ⟨threeRead.nodes⟩ :=
    congrArg ImportGraph.mk (List.mergeSort_of_pairwise (by decide))
  rw [← hsorted, runWith, walkSources_threeFiles]
  rfl

theorem threeFiles_consistent :
    ((scripts.walkSources threeFiles ["work"]).map (·.key)).Nodup ∧
      ∃ a, a = (runWith plainly scripts Resolution.inTree (.fresh (.fresh none) 100) threeFiles ["work"]).1 ∧
        (a.weakPoints.map (fun p => (p.place, p.severity)), a.factors) =
          ([("a.js", .critical), ("b.js", .high)], ⟨1, 0, 0, 0⟩) ∧
        a.Consistent := by
  have hnodup : ((scripts.walkSources threeFiles ["work"]).map (·.key)).Nodup := by
    rw [walkSources_threeFiles]
    decide
  refine ⟨hnodup, _, rfl, ?_, runWith_consistent hnodup⟩
  rw [runWith_threeFiles]
  decide +kernel

end Analysis

end TreeRepair
