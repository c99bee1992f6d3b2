import TreeRepair.Proofs.Graph.Agreement
import TreeRepair.Proofs.Workflow.Exclusion

/-! Homes that are never walked. In a session whose home lies in the project, no analysis, no snapshot, no comparison
and no plan names a file of the home, whatever has been called before. -/

set_option autoImplicit false

namespace TreeRepair

open Location Listing

/-- All keys that a comparison lists. -/
def SnapshotDiff.keys (d : SnapshotDiff) : List String := d.deleted ++ d.added ++ d.modified

/-- All keys that a plan restores or deletes. -/
def RollbackPlan.keys (p : RollbackPlan) : List String := p.restores ++ p.deletes

namespace Site

open Registry (Bench Housed)

variable {s : Site} {env : Surroundings} {facts : HostFacts} {home : Home} {b : Bench}

/-! ## What is named on a bench -/

section Apart

variable (hf : s.Fitted home) (h : s.Apart home b)

include hf h

theorem Apart.source_spares {f : TreeFile} (hmem : f ∈ s.filter.walkSources b.world.files s.root) :
    home.Spares s.root f.key := by
  obtain ⟨names, c, hw, rfl, -⟩ := (SourceFilter.mem_walkSources h.files.wellFormed).1 hmem
  exact (hf.spares h.files hw).2

theorem Apart.node_spares : ∀ n ∈ (s.analyze env b).1.graph.nodes, home.Spares s.root n.key := by
  intro n hn
  obtain ⟨f, hmem, hkey⟩ := Analysis.source_of_mem_nodes hn
  exact hkey ▸ h.source_spares hf hmem

theorem Apart.edge_spares : ∀ e ∈ (s.analyze env b).1.graph.edges, ∀ key, e.target = .file key →
    home.Spares s.root key := by
  intro e he key hkey
  obtain ⟨n, hn, rfl⟩ := ImportGraph.node_of_mem_edges he hkey
  exact h.node_spares hf n hn

theorem Apart.candidate_spares : ∀ c ∈ (s.candidates env b).1, home.Spares s.root c.file := by
  intro c hc
  obtain ⟨f, hmem, hfile, -⟩ := of_mem_candidatesAmong c hc
  exact hfile ▸ h.source_spares hf hmem

theorem Apart.diff_spares {id : String} {S : Snapshot} (hload : s.store.load b.world.files id = .ok S)
    (limit : Option Nat) : ∀ k ∈ (s.store.diff env.checksum b.world.files S s.root limit).keys, home.Spares s.root k := by
  obtain ⟨hdeleted, hadded, hmodified⟩ :=
    hf.governed.diff h.files (hf.governed.load h.files hload) env.checksum limit
  exact List.forall_mem_append.2 ⟨List.forall_mem_append.2 ⟨hdeleted, hadded⟩, hmodified⟩

theorem Apart.plan_spares {id : String} {S : Snapshot} (hload : s.store.load b.world.files id = .ok S)
    (limit : Option Nat) : ∀ k ∈ (RollbackPlan.ofDiff S
      (s.store.diff env.checksum b.world.files S s.root limit)).keys, home.Spares s.root k :=
  hf.governed.plan h.files (hf.governed.load h.files hload) env.checksum limit

end Apart

/-! ## What reports name -/

theorem written_fixFile (f : Fixed) (key : String) :
    ∀ k ∈ (s.fixFile env f key).2.written, k ∈ f.written ∨ k = key := by
  intro k hk
  unfold Site.fixFile at hk
  simp only at hk
  split at hk
  · exact .inl hk
  · split at hk
    · exact .inl hk
    · split at hk
      · exact .inl hk
      · exact (List.mem_append.1 hk).imp_right List.mem_singleton.1

theorem written_fixAll (keys : List String) (f : Fixed) :
    ∀ k ∈ (s.fixAll env keys f).2.written, k ∈ f.written ∨ k ∈ keys := by
  induction keys generalizing f with
  | nil => exact fun k hk => .inl hk
  | cons key rest ih =>
    intro k hk
    have hfirst : ∀ k ∈ (s.fixFile env f key).2.written, k ∈ f.written ∨ k = key := written_fixFile f key
    rw [Site.fixAll] at hk
    split at hk
    · rename_i hstep
      rw [hstep] at hfirst
      exact (hfirst k hk).imp_right fun heq => List.mem_cons.2 (.inl heq)
    · rename_i hstep
      rw [hstep] at hfirst
      rcases ih _ k hk with hk | hk
      · exact (hfirst k hk).imp_right fun heq => List.mem_cons.2 (.inl heq)
      · exact .inr (List.mem_cons_of_mem key hk)

theorem written_fixCandidates {report : PreflightReport} {before : Analysis.Summary} {candidates : List Candidate}
    {r : FixReport} (h : (s.fixCandidates env report before candidates b).1 = .ok r) :
    r.candidates = candidates ∧ ∀ k ∈ r.filesWritten, ∃ c ∈ candidates, c.file = k := by
  unfold fixCandidates at h
  split at h
  · cases h
  · rename_i snapshot w _
    split at h
    · cases h
    · rename_i fixed hrun
      obtain rfl := Except.ok.inj h
      refine ⟨rfl, fun k hk => ?_⟩
      have hmem : k ∈ (s.fixAll env (keysOf candidates) ⟨[], [], { b with world := w }⟩).2.written := by
        rwa [keysOf, hrun]
      have hkey := (written_fixAll _ _ k hmem).resolve_left List.not_mem_nil
      exact List.mem_map.1 (mem_of_mem_dropRepeats hkey)

/-- What comes out of the calls on a bench names no file of the home. -/
structure Secluded (s : Site) (home : Home) (env : Surroundings) (b : Bench) : Prop where
  /-- The files of an analysis, and those that their imports lead to. -/
  analysis : ∀ facts dryRun force r, (s.scan env facts b dryRun force).1 = .ok r →
    (∀ n ∈ r.analysis.graph.nodes, home.Spares s.root n.key) ∧
      ∀ e ∈ r.analysis.graph.edges, ∀ key, e.target = .file key → home.Spares s.root key
  /-- The files of a snapshot that is made. -/
  created : ∀ tag description S, (s.store.create env b.world s.root tag description).1 = .ok S →
    ∀ k ∈ S.files ++ S.skippedOversize, home.Spares s.root k
  /-- The files of the snapshots that there are. -/
  stored : ∀ id S, s.store.load b.world.files id = .ok S → ∀ k ∈ S.files, home.Spares s.root k
  /-- The files that a comparison with one of them lists, and those that a plan for it restores or deletes. -/
  compared : ∀ id S limit, s.store.load b.world.files id = .ok S →
    (∀ k ∈ (s.store.diff env.checksum b.world.files S s.root limit).keys, home.Spares s.root k) ∧
      ∀ k ∈ (RollbackPlan.ofDiff S (s.store.diff env.checksum b.world.files S s.root limit)).keys, home.Spares s.root k
  /-- The files that a repair looks at, and those that it writes. -/
  repaired : ∀ facts dryRun force r, (s.fix env facts b dryRun force).1 = .ok r →
    (∀ c ∈ r.candidates, home.Spares s.root c.file) ∧ ∀ k ∈ r.filesWritten, home.Spares s.root k
  outstanding : ∀ c ∈ (s.verify env b).1.outstanding, home.Spares s.root c.file
  /-- The files that a rollback compares, restores and deletes. -/
  rolledBack : ∀ facts id dryRun force r, (s.rollback env facts b id dryRun force).1 = .ok r →
    (∀ k ∈ r.diff.keys, home.Spares s.root k) ∧ ∀ k ∈ r.report.plan.keys, home.Spares s.root k

section Reports

variable (hf : s.Fitted home) (hhex : ∀ n, ∀ c ∈ (env.freshId n).toList, Digest.isHexDigit c = true ∨ c = '-')
  (h : s.Apart home b)

include hf hhex h

theorem Apart.scan_spares {dryRun force : Bool} {r : ScanReport} (hr : (s.scan env facts b dryRun force).1 = .ok r) :
    (∀ n ∈ r.analysis.graph.nodes, home.Spares s.root n.key) ∧
      ∀ e ∈ r.analysis.graph.edges, ∀ key, e.target = .file key → home.Spares s.root key := by
  have hchecked : s.Apart home (s.preflight env facts b dryRun).2 := h.preflight hf hhex dryRun
  unfold Site.scan at hr
  generalize s.preflight env facts b dryRun = checked at hchecked hr
  obtain ⟨report, checked⟩ := checked
  have hsaved : s.Apart home (s.scanSnapshot env checked (!dryRun && (!report.isBlocked || force))).2 :=
    (hf.stable hhex).scanSnapshot hchecked _
  dsimp only at hsaved hr
  split at hr
  · cases hr
  · rename_i hsnapshot
    rw [hsnapshot] at hsaved
    obtain rfl := Except.ok.inj hr
    exact ⟨hsaved.node_spares hf, hsaved.edge_spares hf⟩

theorem Apart.fix_spares {dryRun force : Bool} {r : FixReport} (hr : (s.fix env facts b dryRun force).1 = .ok r) :
    (∀ c ∈ r.candidates, home.Spares s.root c.file) ∧ ∀ k ∈ r.filesWritten, home.Spares s.root k := by
  have hchecked : s.Apart home (s.preflight env facts b dryRun).2 := h.preflight hf hhex dryRun
  unfold Site.fix at hr
  generalize s.preflight env facts b dryRun = checked at hchecked hr
  obtain ⟨report, checked⟩ := checked
  dsimp only at hchecked hr
  have hspares : ∀ c ∈ (s.candidates env (s.analyze env checked).2).1, home.Spares s.root c.file :=
    hchecked.analyze.candidate_spares hf
  split at hr
  · cases hr
  · split at hr
    · obtain rfl := Except.ok.inj hr
      exact ⟨hspares, fun k hk => nomatch hk⟩
    · -- a file is written only as that of a candidate, and those are looked up before anything is written
      obtain ⟨heq, hwritten⟩ := written_fixCandidates hr
      refine ⟨heq ▸ hspares, fun k hk => ?_⟩
      obtain ⟨c, hc, rfl⟩ := hwritten k hk
      exact hspares c hc

theorem Apart.rollback_spares {id : Option String} {dryRun force : Bool} {r : RollbackSummary}
    (hr : (s.rollback env facts b id dryRun force).1 = .ok r) :
    (∀ k ∈ r.diff.keys, home.Spares s.root k) ∧ ∀ k ∈ r.report.plan.keys, home.Spares s.root k := by
  have hchecked : s.Apart home (s.preflight env facts b dryRun).2 := h.preflight hf hhex dryRun
  unfold Site.rollback at hr
  generalize s.preflight env facts b dryRun = checked at hchecked hr
  obtain ⟨report, checked⟩ := checked
  dsimp only at hchecked hr
  split at hr
  · cases hr
  · split at hr
    · cases hr
    · rename_i target htarget
      obtain ⟨i, hload⟩ := load_of_rollbackTarget htarget
      split at hr
      · cases hr
      · rename_i hrun
        obtain rfl := Except.ok.inj hr
        refine ⟨hchecked.diff_spares hf hload none, ?_⟩
        rw [SnapshotStore.executeRollback_plan hrun]
        exact hchecked.plan_spares hf hload none

/-- Where home and project are apart, nothing that comes out of a call names a file of the home. -/
theorem Apart.secluded : s.Secluded home env b where
  analysis _ _ _ _ hr := h.scan_spares hf hhex hr
  created tag description S hS := (hf.governed.create hhex h.files tag description).2 S hS
  stored _ _ hload := hf.governed.load h.files hload
  compared _ _ limit hload := ⟨h.diff_spares hf hload limit, h.plan_spares hf hload limit⟩
  repaired _ _ _ _ hr := h.fix_spares hf hhex hr
  outstanding := h.candidate_spares hf
  rolledBack _ _ _ _ _ hr := h.rollback_spares hf hhex hr

end Reports

/-! ## Sessions -/

/-- The benches of an opened session: any calls, with changes of the world between them that keep a rule for files. -/
inductive Opened.Visited (P : List String → ByteArray → Prop) (env : Surroundings) (o : Opened) : Bench → Prop
  | opened : o.Visited P env o.bench
  | behind {b : Bench} : o.Visited P env b → ∀ c : Call, o.Visited P env (c.behind o.site env b)
  | elsewhere {b : Bench} : o.Visited P env b → ∀ w : World, w.files.EachFile P → o.Visited P env { b with world := w }

/-- Home and project stay apart in a session, whatever is called. -/
theorem Opened.Visited.apart {o : Opened} (hf : o.site.Fitted home)
    (hhex : ∀ n, ∀ c ∈ (env.freshId n).toList, Digest.isHexDigit c = true ∨ c = '-')
    (hstart : o.site.Apart home o.bench) (hb : o.Visited (home.Admits o.site.root) env b) : o.site.Apart home b := by
  induction hb with
  | opened => exact hstart
  | behind _ c ih => exact (hf.stable hhex).call ih c
  | elsewhere _ w hw ih => exact ih.of_files hw

/-- A session never walks its home, if that lies below the root and the place of the root is known when the session is
opened: in a project with plain names and no foreign snapshots, nothing that any call gives out names a file of the
home. -/
theorem Opened.home_unwalked {w w' : World} {here : Location} {root home : String} {o : Opened} (hcut : here.IsCut)
    (hopen : openSite w here root home = (.ok o, w')) (hne : home ≠ "") (hroot : Traceable w.files here root)
    {n : String} {ns : List String} (hbelow : (here.join home).settled = o.site.root.settled ++ n :: ns)
    (hhex : ∀ n, ∀ c ∈ (env.freshId n).toList, Digest.isHexDigit c = true ∨ c = '-')
    (hw : w.files.EachFile (Home.Admits ⟨here.join home⟩ o.site.root))
    (hb : o.Visited (Home.Admits ⟨here.join home⟩ o.site.root) env b) : o.site.Secluded ⟨here.join home⟩ env b := by
  have hfitted := openSite_fitted hcut hopen hne hroot hbelow
  have hstart : o.site.Apart ⟨here.join home⟩ o.bench :=
    ⟨(openSite_housed hcut hopen).1, openSite_eachFile hcut hopen hw⟩
  exact (hb.apart hfitted hhex hstart).secluded hfitted hhex

/-- A home in the project. -/
def nook : Home := ⟨["work", "home"]⟩

theorem hex_refusing (n : Nat) : ∀ c ∈ (refusing.freshId n).toList, Digest.isHexDigit c = true ∨ c = '-' := by
  intro c hc
  refine .inl ?_
  change c ∈ ("0f8fad5" ++ toString n).toList at hc
  rw [String.toList_append, List.mem_append] at hc
  rcases hc with hc | hc
  · have hall : "0f8fad5".toList.all Digest.isHexDigit = true := by decide
    exact List.all_eq_true.1 hall c hc
  · cases hdigit : c.isDigit with
    | false => exact absurd hc (ParseCache.notMem_toString hdigit n)
    | true =>
      rw [Char.isDigit, Bool.and_eq_true, decide_eq_true_eq, decide_eq_true_eq] at hdigit
      rw [Digest.isHexDigit, Bool.or_eq_true, Bool.or_eq_true, Bool.and_eq_true, decide_eq_true_eq, decide_eq_true_eq]
      exact .inl (.inl hdigit)

theorem admits_remark : remark.EachFile (nook.Admits ["work"]) := by
  refine ⟨by decide, fun q c hq => ?_⟩
  obtain ⟨rfl, -⟩ := file_remark hq
  have hout : ¬ nook.Holds (settled ["work"] ++ ["a.js"]) := by
    rintro ⟨n, ns, heq⟩
    have htail : "a.js" = "home" := (List.cons.inj (List.cons.inj heq).2).1
    exact absurd htail (by decide)
  have hplain : Key.IsPlain ["a.js"] := by
    intro n hn
    rw [List.mem_singleton.1 hn]
    decide
  exact Home.admits_of_outside hout hplain

/-- What a session sees behind a scan: its root, the places of all files, the files of the snapshot and what a
comparison with it lists as new. -/
def Opened.tour (o : Opened) : Location × List (List String) × Option (List String × List String) :=
  let b := (Call.scan unknown false false).behind o.site refusing o.bench
  (o.site.root, b.world.files.files.map (·.1),
    (o.site.store.load b.world.files "1700000000001-0f8fad51").toOption.map fun S =>
      (S.files, (o.site.store.diff refusing.checksum b.world.files S o.site.root none).added))

theorem tour_nook : (openSite ⟨remark, 0, 0⟩ [] "work" "work/home").1.toOption.map Opened.tour =
    some (["work"], [["work", "a.js"], ["work", "home", "cache", "446f2069.rkyv"],
      ["work", "home", "backups", "1700000000001-0f8fad51", "files", "a.js"],
      ["work", "home", "backups", "1700000000001-0f8fad51", "manifest.json"]], some (["a.js"], [])) := by decide +kernel

theorem home_unwalked_nook : ∃ o w' b S, openSite ⟨remark, 0, 0⟩ [] "work" "work/home" = (.ok o, w') ∧
    o.Visited (nook.Admits ["work"]) refusing b ∧ o.site.Secluded nook refusing b ∧
    ["work", "home", "backups", "1700000000001-0f8fad51", "files", "a.js"] ∈ b.world.files.files.map (·.1) ∧
    o.site.store.load b.world.files "1700000000001-0f8fad51" = .ok S ∧ S.files = ["a.js"] ∧
    nook.Spares ["work"] "a.js" ∧ (o.site.store.diff refusing.checksum b.world.files S ["work"] none).added = [] := by
  have hsession := tour_nook
  cases hopen : openSite ⟨remark, 0, 0⟩ [] "work" "work/home" with
  | mk result w' =>
    rw [hopen] at hsession
    cases result with
    | error e => cases hsession
    | ok o =>
      have htour := Option.some.inj hsession
      simp only [Opened.tour, Prod.mk.injEq, Option.map_eq_some_iff, toOption_eq_some] at htour
      obtain ⟨hplace, hfiles, S, hS, hkeys, hadded⟩ := htour
      have hhere : IsCut [] := by decide
      have hbelow : settled (join [] "work/home") = o.site.root.settled ++ ["home"] := by
        rw [hplace]
        decide
      have hvisited : o.Visited (nook.Admits o.site.root) refusing
          ((Call.scan unknown false false).behind o.site refusing o.bench) := .behind .opened _
      have hsecluded : o.site.Secluded nook refusing ((Call.scan unknown false false).behind o.site refusing o.bench) :=
        Opened.home_unwalked hhere hopen (by decide) (.inl ⟨["work"], rfl⟩) hbelow hex_refusing
          (by rw [hplace]; exact admits_remark) hvisited
      have hspares := hsecluded.stored _ S hS "a.js" (by rw [hkeys]; exact List.mem_cons_self ..)
      rw [hplace] at hvisited hspares hadded
      refine ⟨o, w', _, S, rfl, hvisited, hsecluded, ?_, hS, hkeys, hspares, hadded⟩
      rw [hfiles]
      decide

end Site

end TreeRepair
