import TreeRepair.Proofs.Graph.Agreement
import TreeRepair.Proofs.Graph.Cycles

/-! What an analysis owes to the order of imports. The search for cycles follows imports in order, and what it finds can
depend on that order; whether it finds a cycle, and in which components, does not. Where no file has two imports within
its component, it finds the same cycles. All else that the risk is made of is the same in any order. -/

set_option autoImplicit false

namespace TreeRepair

open Relation (ReflTransGen TransGen)

/-- A node that differs at most in the order of its imports. -/
def SourceNode.Reordered (n n' : SourceNode) : Prop :=
  ∃ imports, imports.Perm n.imports ∧ n' = { n with imports := imports }

theorem SourceNode.Reordered.symm {n n' : SourceNode} (h : n.Reordered n') : n'.Reordered n := by
  obtain ⟨imports, hperm, rfl⟩ := h
  exact ⟨n.imports, hperm.symm, rfl⟩

theorem SourceNode.Reordered.unresolved_perm {n n' : SourceNode} (h : n.Reordered n') :
    n.unresolved.Perm n'.unresolved := by
  obtain ⟨imports, hperm, rfl⟩ := h
  exact (hperm.filterMap _).symm

theorem forall₂_mergeSort {α : Type} {R : α → α → Prop} {le : α → α → Bool} {l l' : List α}
    (hle : ∀ a a' b b', R a a' → R b b' → le a b = le a' b') (h : List.Forall₂ R l l') :
    List.Forall₂ R (l.mergeSort le) (l'.mergeSort le) := by
  obtain ⟨hlen, hpairs⟩ := List.forall₂_iff_zip.1 h
  have hfst := List.map_mergeSort (r := fun p q : α × α => le p.1 q.1) (s := le) (f := Prod.fst) (l := l.zip l')
    fun _ _ _ _ => rfl
  have hsnd := List.map_mergeSort (r := fun p q : α × α => le p.1 q.1) (s := le) (f := Prod.snd) (l := l.zip l')
    fun p hp q hq => hle _ _ _ _ (hpairs hp) (hpairs hq)
  rw [List.map_fst_zip hlen.le] at hfst
  rw [List.map_snd_zip hlen.ge] at hsnd
  rw [← hfst, ← hsnd, List.forall₂_map_left_iff, List.forall₂_map_right_iff, List.forall₂_same]
  exact fun p hp => hpairs (List.mem_mergeSort.1 hp)

namespace ImportGraph

/-- A graph whose nodes differ at most in the order of their imports. -/
def Reordered (g g' : ImportGraph) : Prop := List.Forall₂ SourceNode.Reordered g.nodes g'.nodes

theorem reordered_ofNodes {nodes nodes' : List SourceNode} (h : List.Forall₂ SourceNode.Reordered nodes nodes') :
    (ofNodes nodes).Reordered (ofNodes nodes') := by
  refine forall₂_mergeSort ?_ h
  rintro a - b - ⟨-, -, rfl⟩ ⟨-, -, rfl⟩
  rfl

namespace Reordered

variable {g g' : ImportGraph} {staticOnly : Bool} {i j : Nat} {key : String} {α : Type} {f f' : SourceNode → α}

theorem symm (h : g.Reordered g') : g'.Reordered g := (h.imp fun _ _ hn => hn.symm).flip

theorem length_eq (h : g.Reordered g') : g.nodes.length = g'.nodes.length := List.Forall₂.length_eq h

theorem node (h : g.Reordered g') {n : SourceNode} (hn : g.nodes[i]? = some n) :
    ∃ n', g'.nodes[i]? = some n' ∧ n.Reordered n' := by
  obtain ⟨hi, rfl⟩ := List.getElem?_eq_some_iff.1 hn
  have hi' : i < g'.nodes.length := h.length_eq ▸ hi
  exact ⟨g'.nodes[i], List.getElem?_eq_getElem hi', List.Forall₂.get h hi hi'⟩

theorem map_filter (h : g.Reordered g') {p q : SourceNode → Bool} (hp : ∀ {n n'}, n.Reordered n' → p n = q n')
    (hf : ∀ {n n'}, n.Reordered n' → f n = f' n') : (g.nodes.filter p).map f = (g'.nodes.filter q).map f' := by
  have hpicked := List.rel_filter (fun _ _ hn => Bool.eq_iff_iff.1 (hp hn)) h
  rw [← List.forall₂_eq_eq_eq, List.forall₂_map_left_iff, List.forall₂_map_right_iff]
  exact hpicked.imp fun _ _ hn => hf hn

theorem map_getElem? (h : g.Reordered g') (hf : ∀ {n n'}, n.Reordered n' → f n = f n') (i : Nat) :
    (g.nodes[i]?).map f = (g'.nodes[i]?).map f := by
  have hall := h.map_filter (p := fun _ => true) (q := fun _ => true) (fun _ => rfl) hf
  rw [List.filter_true, List.filter_true] at hall
  rw [← List.getElem?_map, ← List.getElem?_map, hall]

theorem keyAt_eq (h : g.Reordered g') (i : Nat) : g.keyAt i = g'.keyAt i := by
  have hkey := h.map_getElem? (f := (·.key)) (by rintro n - ⟨-, -, rfl⟩; rfl) i
  have hread : ∀ g : ImportGraph, g.keyAt i = ((g.nodes[i]?).map (·.key)).getD "" := by
    intro g
    rw [keyAt]
    cases g.nodes[i]? <;> rfl
  rw [hread, hread, hkey]

theorem position?_eq (h : g.Reordered g') (key : String) : g.position? key = g'.position? key := by
  have along : ∀ {l l' : List SourceNode} (i : Nat), List.Forall₂ SourceNode.Reordered l l' →
      lastPosition? key i l = lastPosition? key i l' := by
    intro l l' i hall
    induction hall generalizing i with
    | nil => rfl
    | cons hn _ ih =>
      obtain ⟨-, -, rfl⟩ := hn
      rw [lastPosition?, lastPosition?, ih]
  exact along 0 h

theorem successor?_eq (h : g.Reordered g') (r : ImportRecord) : g.successor? staticOnly r = g'.successor? staticOnly r := by
  unfold successor?
  cases r.resolution with
  | internal key => simp only [h.position?_eq key]
  | external package => rfl
  | missing specifier => rfl

theorem mem_successors (h : g.Reordered g') (hj : j ∈ g.successors staticOnly i) : j ∈ g'.successors staticOnly i := by
  obtain ⟨n, hn, r, hr, hsucc⟩ := mem_successors_iff.1 hj
  obtain ⟨-, hn', imports, hperm, rfl⟩ := h.node hn
  exact mem_successors_iff.2 ⟨_, hn', r, hperm.mem_iff.2 hr, h.successor?_eq r ▸ hsucc⟩

theorem leads_eq (h : g.Reordered g') : Leads (g.successors staticOnly) = Leads (g'.successors staticOnly) :=
  funext fun _ => funext fun _ => propext ⟨h.mem_successors, h.symm.mem_successors⟩

end Reordered

/-! ## Cycles -/

section Cycles

variable {next next' : Nat → List Nat} {i j : Nat} {c d : List Nat} {comp : Set Nat}

theorem isCycle_congr (h : Leads next = Leads next') (hc : IsCycle next c) : IsCycle next' c :=
  ⟨hc.ne_nil, hc.nodup, h ▸ hc.closed, hc.least⟩

theorem isComponent_congr (h : Leads next = Leads next') (hcomp : IsComponent next comp) : IsComponent next' comp := by
  obtain ⟨center, rfl⟩ := hcomp
  exact ⟨center, by unfold Linked; rw [h]⟩

theorem unbranched_congr (h : Leads next = Leads next') (hnext : Unbranched next comp) : Unbranched next' comp := by
  unfold Unbranched
  rwa [← h]

theorem eq_of_isChain {S : Nat → Nat → Prop} (hS : ∀ a b b', S a b → S a b' → b = b') {l l' : List Nat}
    (hlen : l.length = l'.length) (hl : (i :: l).IsChain S) (hl' : (i :: l').IsChain S) : l = l' := by
  induction l generalizing i l' with
  | nil => exact (List.length_eq_zero_iff.1 hlen.symm).symm
  | cons a l ih =>
    cases l' with
    | nil => cases hlen
    | cons b l' =>
      obtain ⟨hstep, hrest⟩ := List.isChain_cons_cons.1 hl
      obtain ⟨hstep', hrest'⟩ := List.isChain_cons_cons.1 hl'
      obtain rfl := hS i a b hstep hstep'
      rw [ih (Nat.succ.inj hlen) hrest hrest']

theorem IsCycle.isChain (h : IsCycle next c) (hin : ∀ k ∈ c, k ∈ comp) :
    c.IsChain fun i j => (i ∈ comp ∧ j ∈ comp) ∧ Leads next i j := by
  have hchain : c.IsChain (Leads next) := ((Cycle.chain_ne_nil _ h.ne_nil).1 h.closed).tail
  exact hchain.imp_of_mem_imp fun i j hi hj hstep => ⟨⟨hin i hi, hin j hj⟩, hstep⟩

theorem Unbranched.eq_cycle (hnext : Unbranched next comp) (hcomp : IsComponent next comp) (hc : IsCycle next c)
    (hd : IsCycle next d) (hinc : ∀ k ∈ c, k ∈ comp) (hind : ∀ k ∈ d, k ∈ comp) : c = d := by
  have hsub : ∀ k ∈ d, k ∈ c := fun k hk => hnext.mem_cycle hcomp hc hinc (hind k hk)
  have hsub' : ∀ k ∈ c, k ∈ d := fun k hk => hnext.mem_cycle hcomp hd hind (hinc k hk)
  have hlen := ((List.perm_ext_iff_of_nodup hc.nodup hd.nodup).2 fun k => ⟨hsub' k, hsub k⟩).length_eq
  obtain ⟨i, l, rfl⟩ := List.exists_cons_of_ne_nil hc.ne_nil
  obtain ⟨j, l', rfl⟩ := List.exists_cons_of_ne_nil hd.ne_nil
  obtain rfl : i = j := Nat.le_antisymm (hc.least i rfl j (hsub j List.mem_cons_self))
    (hd.least j rfl i (hsub' i List.mem_cons_self))
  have hsteps : ∀ a b b', (a ∈ comp ∧ b ∈ comp) ∧ Leads next a b → (a ∈ comp ∧ b' ∈ comp) ∧ Leads next a b' → b = b' :=
    fun a b b' ⟨⟨ha, hb⟩, hab⟩ ⟨⟨_, hb'⟩, hab'⟩ => hnext a ha b hb b' hb' hab hab'
  rw [eq_of_isChain hsteps (Nat.succ.inj hlen) (hc.isChain hinc) (hd.isChain hind)]

namespace Reordered

variable {g g' : ImportGraph}

theorem cycles_nil_iff (h : g.Reordered g') : g.cycles = [] ↔ g'.cycles = [] := by
  rw [cycles_eq, cycles_eq, cyclesOf_eq_nil_iff (bounded_successors g true),
    cyclesOf_eq_nil_iff (bounded_successors g' true), h.leads_eq]

theorem exists_cycle (h : g.Reordered g') (hcomp : IsComponent (g.successors true) comp) (hc : c ∈ g.cycles)
    (hin : ∀ k ∈ c, k ∈ comp) : ∃ d ∈ g'.cycles, ∀ k ∈ d, k ∈ comp := by
  have hcycle := isCycle_of_mem_cycles hc
  obtain ⟨i, hi⟩ := List.exists_mem_of_ne_nil c hcycle.ne_nil
  have hback := h.leads_eq ▸ transGen_of_closed hcycle.closed hi hi
  obtain ⟨d, hd, hlinked⟩ := exists_cycle_linked (bounded_successors g' true) hback
  exact ⟨d, cycles_eq g' ▸ hd, fun k hk =>
    (isComponent_congr h.leads_eq hcomp).mem_of_linked (hin i hi) (hlinked k hk)⟩

theorem mem_cycles (h : g.Reordered g') (hcomp : IsComponent (g.successors true) comp)
    (hnext : Unbranched (g.successors true) comp) (hin : ∀ k ∈ c, k ∈ comp) (hc : c ∈ g.cycles) : c ∈ g'.cycles := by
  obtain ⟨d, hd, hind⟩ := h.exists_cycle hcomp hc hin
  have hcycle : IsCycle (g.successors true) d := isCycle_congr h.symm.leads_eq (isCycle_of_mem_cycles hd)
  rwa [hnext.eq_cycle hcomp (isCycle_of_mem_cycles hc) hcycle hin hind]

theorem mem_cycles_iff (h : g.Reordered g') (hcomp : IsComponent (g.successors true) comp)
    (hnext : Unbranched (g.successors true) comp) (hin : ∀ k ∈ c, k ∈ comp) : c ∈ g.cycles ↔ c ∈ g'.cycles :=
  ⟨h.mem_cycles hcomp hnext hin,
    h.symm.mem_cycles (isComponent_congr h.leads_eq hcomp) (unbranched_congr h.leads_eq hnext) hin⟩

theorem cycles_perm (h : g.Reordered g')
    (hnext : ∀ comp, IsComponent (g.successors true) comp → Unbranched (g.successors true) comp) :
    g.cycles.Perm g'.cycles := by
  have hnodup : ∀ g : ImportGraph, g.cycles.Nodup := fun g =>
    cycles_eq g ▸ (bounded_successors g true).search.1.nodup
  -- each cycle lies in the component of any position on it
  have hmem : ∀ c, IsCycle (g.successors true) c → (c ∈ g.cycles ↔ c ∈ g'.cycles) := by
    intro c hc
    obtain ⟨i, hi⟩ := List.exists_mem_of_ne_nil c hc.ne_nil
    have hcomp : IsComponent (g.successors true) {j | Linked (g.successors true) i j} := ⟨i, rfl⟩
    exact h.mem_cycles_iff hcomp (hnext _ hcomp) fun k hk => linked_of_closed hc.closed hi hk
  refine (List.perm_ext_iff_of_nodup (hnodup g) (hnodup g')).2 fun c => ⟨fun hc => ?_, fun hc => ?_⟩
  · exact (hmem c (isCycle_of_mem_cycles hc)).1 hc
  · exact (hmem c (isCycle_congr h.symm.leads_eq (isCycle_of_mem_cycles hc))).2 hc

theorem files_perm (h : g.Reordered g') (hcycles : g.cycles.Perm g'.cycles) :
    (g.importCycles.map (·.files)).Perm (g'.importCycles.map (·.files)) := by
  rw [files_importCycles, files_importCycles, funext h.keyAt_eq]
  exact hcycles.map _

end Reordered

end Cycles

/-! ## Risk -/

section Risk

open Analysis

variable {g g' : ImportGraph} {key : String}

theorem mem_criticalKeys : key ∈ g.criticalKeys ↔ ∃ i ∈ g.entryPositions, ∃ j,
    ReflTransGen (Leads (g.successors false)) i j ∧ ∃ reason, g.critical? j = some (key, reason) := by
  simp only [criticalKeys, criticalPaths, criticalPath, List.mem_flatMap, List.mem_map, List.mem_filterMap,
    exists_exists_and_eq_and]
  refine exists_congr fun i => and_congr_right fun hi => ?_
  obtain ⟨n, hn, -⟩ := mem_entryPositions.1 hi
  have hreached := (reachedFrom_spec (List.getElem?_eq_some_iff.1 hn).1).2
  constructor
  · rintro ⟨⟨_, reason⟩, ⟨j, hj, hcritical⟩, rfl⟩
    exact ⟨j, (hreached j).1 hj, reason, hcritical⟩
  · rintro ⟨j, hj, reason, hcritical⟩
    exact ⟨(key, reason), ⟨j, (hreached j).2 hj, hcritical⟩, rfl⟩

namespace Reordered

theorem critical?_eq (h : g.Reordered g') (i : Nat) : g.critical? i = g'.critical? i := by
  have hreason := h.map_getElem? (f := fun n => n.criticalReason?.map (n.key, ·)) (by rintro n - ⟨-, -, rfl⟩; rfl) i
  have hread : ∀ g : ImportGraph,
      g.critical? i = ((g.nodes[i]?).map fun n => n.criticalReason?.map (n.key, ·)).join := by
    intro g
    rw [critical?]
    cases g.nodes[i]? <;> rfl
  rw [hread, hread, hreason]

theorem entryPositions_eq (h : g.Reordered g') : g.entryPositions = g'.entryPositions := by
  rw [entryPositions, entryPositions, h.length_eq]
  refine List.filter_congr fun i _ => ?_
  have hentry := h.map_getElem? (f := (·.isEntryPoint)) (by rintro n - ⟨-, -, rfl⟩; rfl) i
  have hread : ∀ g : ImportGraph, (g.nodes[i]?).any (·.isEntryPoint) = ((g.nodes[i]?).map (·.isEntryPoint)).any id := by
    intro g
    cases g.nodes[i]? <;> rfl
  rw [hread, hread, hentry]

theorem contains_criticalKeys (h : g.Reordered g') (key : String) :
    g.criticalKeys.contains key = g'.criticalKeys.contains key := by
  rw [Bool.eq_iff_iff, List.contains_iff_mem, List.contains_iff_mem, mem_criticalKeys, mem_criticalKeys,
    h.entryPositions_eq, h.leads_eq]
  simp only [h.critical?_eq]

theorem criticalErrors_eq (h : g.Reordered g') :
    (g.nodes.filter fun n => !n.errors.isEmpty && g.criticalKeys.contains n.key).map (·.key) =
      (g'.nodes.filter fun n => !n.errors.isEmpty && g'.criticalKeys.contains n.key).map (·.key) := by
  refine h.map_filter ?_ ?_
  · rintro n - ⟨-, -, rfl⟩
    rw [h.contains_criticalKeys]
  · rintro n - ⟨-, -, rfl⟩
    rfl

theorem sideEffects_eq (h : g.Reordered g') :
    ((weakPointsOf g g.importCycles g.criticalKeys).filter (·.kind == .moduleSideEffect)).map (·.place) =
      ((weakPointsOf g' g'.importCycles g'.criticalKeys).filter (·.kind == .moduleSideEffect)).map (·.place) := by
  rw [places_sideEffects, places_sideEffects]
  refine h.map_filter ?_ ?_
  · rintro n - ⟨-, -, rfl⟩
    rfl
  · rintro n - ⟨-, -, rfl⟩
    rfl

theorem unresolved_eq (h : g.Reordered g') :
    (g.nodes.filter fun n => !n.unresolved.isEmpty).map (·.key) =
      (g'.nodes.filter fun n => !n.unresolved.isEmpty).map (·.key) := by
  refine h.map_filter (fun hn => ?_) ?_
  · rw [hn.unresolved_perm.isEmpty_eq]
  · rintro n - ⟨-, -, rfl⟩
    rfl

theorem missing_eq (h : g.Reordered g') :
    countOf .missingDependency (weakPointsOf g g.importCycles g.criticalKeys) =
      countOf .missingDependency (weakPointsOf g' g'.importCycles g'.criticalKeys) := by
  have hcount : ∀ g : ImportGraph, countOf .missingDependency (weakPointsOf g g.importCycles g.criticalKeys) =
      (g.nodes.map fun n => n.unresolved.length).sum := by
    intro g
    rw [countOf, filter_weakPointsOf, if_neg (by decide), List.append_nil, List.length_flatMap]
    exact congrArg List.sum (List.map_congr_left fun n _ => List.length_map _)
  have hall := h.map_filter (p := fun _ => true) (q := fun _ => true) (f := fun n => n.unresolved.length) (fun _ => rfl)
    fun hn => hn.unresolved_perm.length_eq
  rw [List.filter_true, List.filter_true] at hall
  rw [hcount, hcount, hall]

theorem plan_eq (h : g.Reordered g') (survey : Survey) : (ofGraph survey g').plan = (ofGraph survey g).plan := by
  have herrors := h.criticalErrors_eq
  have heffects := h.sideEffects_eq
  have hunresolved := h.unresolved_eq
  unfold criticalKeys at herrors heffects
  simp only [ofGraph, herrors, heffects, hunresolved]

theorem factors_eq (h : g.Reordered g') (survey : Survey) :
    (ofGraph survey g').factors = { (ofGraph survey g).factors with cycles := g'.importCycles.length } := by
  have herrors := congrArg List.length h.criticalErrors_eq
  have heffects := congrArg List.length h.sideEffects_eq
  have hmissing := h.missing_eq
  unfold criticalKeys at herrors heffects hmissing
  simp only [ofGraph, herrors, heffects, hmissing]

theorem score_eq (h : g.Reordered g') (survey : Survey) :
    (ofGraph survey g').factors.score + 2 * g.importCycles.length =
      (ofGraph survey g).factors.score + 2 * g'.importCycles.length := by
  have hcycles : (ofGraph survey g).factors.cycles = g.importCycles.length := rfl
  rw [h.factors_eq survey]
  simp only [RiskFactors.score]
  omega

end Reordered

/-- What does not depend on the order of imports: whether there are cycles and in which components; in a component
without branches, which ones; the plan, and all factors of the risk but the number of cycles. -/
theorem risk_of_reordered {nodes nodes' : List SourceNode} (h : List.Forall₂ SourceNode.Reordered nodes nodes')
    (survey : Survey) :
    let g := ofNodes nodes
    let g' := ofNodes nodes'
    let a := ofGraph survey g
    let a' := ofGraph survey g'
    (g.importCycles = [] ↔ g'.importCycles = []) ∧
    (∀ comp, IsComponent (g.successors true) comp →
      ((∃ c ∈ g.cycles, ∀ k ∈ c, k ∈ comp) ↔ ∃ c ∈ g'.cycles, ∀ k ∈ c, k ∈ comp) ∧
      (Unbranched (g.successors true) comp → ∀ c, (∀ k ∈ c, k ∈ comp) → (c ∈ g.cycles ↔ c ∈ g'.cycles))) ∧
    a'.plan = a.plan ∧
    a'.factors = { a.factors with cycles := g'.importCycles.length } ∧
    a'.factors.score + 2 * g.importCycles.length = a.factors.score + 2 * g'.importCycles.length ∧
    ((∀ comp, IsComponent (g.successors true) comp → Unbranched (g.successors true) comp) →
      (g.importCycles.map (·.files)).Perm (g'.importCycles.map (·.files)) ∧
      a'.factors.score? = a.factors.score? ∧ a'.factors.level = a.factors.level) := by
  intro g g' a a'
  have hg : g.Reordered g' := reordered_ofNodes h
  have hscore : a'.factors.score + 2 * g.importCycles.length = a.factors.score + 2 * g'.importCycles.length :=
    hg.score_eq survey
  refine ⟨?_, fun comp hcomp => ⟨⟨?_, ?_⟩, fun hnext c hin => hg.mem_cycles_iff hcomp hnext hin⟩, hg.plan_eq survey,
    hg.factors_eq survey, hscore, fun hnext => ?_⟩
  · rw [importCycles_eq_nil_iff, importCycles_eq_nil_iff, hg.cycles_nil_iff]
  · rintro ⟨c, hc, hin⟩
    exact hg.exists_cycle hcomp hc hin
  · rintro ⟨c, hc, hin⟩
    exact hg.symm.exists_cycle (isComponent_congr hg.leads_eq hcomp) hc hin
  · have hfiles := hg.files_perm (hg.cycles_perm hnext)
    have hlen : g.importCycles.length = g'.importCycles.length := by simpa using hfiles.length_eq
    have hsame : a'.factors.score = a.factors.score := by omega
    refine ⟨hfiles, ?_, ?_⟩
    · rw [RiskFactors.score?, RiskFactors.score?, hsame]
    · rw [RiskFactors.level, RiskFactors.level, hsame]

end Risk

/-! ## Two orders -/

theorem ofNodes_of_sorted {nodes : List SourceNode} (h : (nodes.map (·.key)).Pairwise fun a b => ¬ b < a) :
    ofNodes nodes = ⟨nodes⟩ :=
  congrArg ImportGraph.mk (List.mergeSort_of_pairwise
    ((List.pairwise_map.1 h).imp fun hle => by simpa [SourceNode.keyLe] using hle))

theorem reordered_importer {key : String} {targets targets' : List String} (h : targets'.Perm targets) :
    (importer key targets).Reordered (importer key targets') := ⟨_, h.map _, rfl⟩

/-- The second and the third file import each other, and the fourth leads from the third back to the second. -/
def forked (targets : List String) : List SourceNode :=
  [importer "a.js" targets, importer "b.js" ["c.js"], importer "c.js" ["b.js", "d.js"], importer "d.js" ["b.js"]]

theorem ofNodes_forked (targets : List String) : ofNodes (forked targets) = ⟨forked targets⟩ := by
  have hkeys : ["a.js", "b.js", "c.js", "d.js"].Pairwise fun a b => ¬ b < a := by decide
  exact ofNodes_of_sorted hkeys

/-- Entered at the second file, the search closes both cycles; entered at the third one, it is done with the second file
before it comes to the fourth. -/
theorem risk_of_forked :
    let g := ofNodes (forked ["b.js", "c.js"])
    let g' := ofNodes (forked ["c.js", "b.js"])
    List.Forall₂ SourceNode.Reordered (forked ["b.js", "c.js"]) (forked ["c.js", "b.js"]) ∧
      g.importCycles.length = 2 ∧ g'.importCycles.length = 1 ∧
      (Analysis.ofGraph (.start 4) g).factors.score? = some 4 ∧ (Analysis.ofGraph (.start 4) g').factors.score? = some 2 ∧
      (Analysis.ofGraph (.start 4) g).factors.level = .high ∧ (Analysis.ofGraph (.start 4) g').factors.level = .medium := by
  intro g g'
  refine ⟨.cons (reordered_importer (.swap _ _ _)) (.cons (reordered_importer (.refl _)) (.cons
    (reordered_importer (.refl _)) (.cons (reordered_importer (.refl _)) .nil))), ?_⟩
  have hg : g = ⟨forked ["b.js", "c.js"]⟩ := ofNodes_forked _
  have hg' : g' = ⟨forked ["c.js", "b.js"]⟩ := ofNodes_forked _
  rw [hg, hg']
  decide +kernel

/-- Two files that import each other, the first of them a third one as well that imports itself. -/
def looped (targets : List String) : List SourceNode :=
  [importer "a.js" targets, importer "b.js" ["a.js"], importer "c.js" ["c.js"]]

theorem reordered_looped : List.Forall₂ SourceNode.Reordered (looped ["b.js", "c.js"]) (looped ["c.js", "b.js"]) :=
  .cons (reordered_importer (.swap _ _ _)) (.cons (reordered_importer (.refl _)) (.cons (reordered_importer (.refl _)) .nil))

theorem leads_looped {i j : Nat} (h : Leads ((ofNodes (looped ["b.js", "c.js"])).successors true) i j) :
    (i = 0 ∧ (j = 1 ∨ j = 2)) ∨ (i = 1 ∧ j = 0) ∨ (i = 2 ∧ j = 2) := by
  have hkeys : ["a.js", "b.js", "c.js"].Pairwise fun a b => ¬ b < a := by decide
  have hg : ofNodes (looped ["b.js", "c.js"]) = ⟨looped ["b.js", "c.js"]⟩ := ofNodes_of_sorted hkeys
  have hall : ∀ i < 3, ∀ j ∈ (⟨looped ["b.js", "c.js"]⟩ : ImportGraph).successors true i,
      (i = 0 ∧ (j = 1 ∨ j = 2)) ∨ (i = 1 ∧ j = 0) ∨ (i = 2 ∧ j = 2) := by decide +kernel
  rw [hg] at h
  exact hall i (bounded_successors _ true i j h).1 j h

theorem unbranched_looped {comp : Set Nat} (hcomp : IsComponent ((ofNodes (looped ["b.js", "c.js"])).successors true) comp) :
    Unbranched ((ofNodes (looped ["b.js", "c.js"])).successors true) comp := by
  -- nothing leads out of the third file
  have hlast : ∀ {k}, ReflTransGen (Leads ((ofNodes (looped ["b.js", "c.js"])).successors true)) 2 k → k = 2 := by
    intro k hk
    induction hk with
    | refl => rfl
    | tail _ hstep ih =>
      have hstep := leads_looped hstep
      omega
  intro i _ j hj k hk hij hik
  have hforth : j = 2 → k = 2 := fun h => hlast (h ▸ (hcomp.linked hj hk).1)
  have hback : k = 2 → j = 2 := fun h => hlast (h ▸ (hcomp.linked hj hk).2)
  have hj := leads_looped hij
  have hk := leads_looped hik
  omega

theorem risk_of_looped :
    let g := ofNodes (looped ["b.js", "c.js"])
    let g' := ofNodes (looped ["c.js", "b.js"])
    List.Forall₂ SourceNode.Reordered (looped ["b.js", "c.js"]) (looped ["c.js", "b.js"]) ∧
      (∀ comp, IsComponent (g.successors true) comp → Unbranched (g.successors true) comp) ∧
      (g.importCycles.map (·.files)).Perm (g'.importCycles.map (·.files)) ∧
      (Analysis.ofGraph (.start 3) g').factors.score? = (Analysis.ofGraph (.start 3) g).factors.score? ∧
      (Analysis.ofGraph (.start 3) g').factors.level = (Analysis.ofGraph (.start 3) g).factors.level :=
  ⟨reordered_looped, fun _ => unbranched_looped,
    (risk_of_reordered reordered_looped (.start 3)).2.2.2.2.2 fun _ => unbranched_looped⟩

end ImportGraph

end TreeRepair
