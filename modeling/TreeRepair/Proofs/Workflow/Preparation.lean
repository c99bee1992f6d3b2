import TreeRepair.Proofs.Repair.Attempt
import TreeRepair.Proofs.Workflow.Order
import TreeRepair.Proofs.Workflow.Refusal

/-! What a run does before it repairs: the checks, the analysis and the search for candidates. The checks may remove
snapshots, the others store units; no file of the project changes. -/

set_option autoImplicit false

namespace TreeRepair

open Location Listing

/-! ## Checks -/

namespace Preflight

variable (env : Surroundings) (config : Config) (store : SnapshotStore) (facts : HostFacts) (w : World)
  (root : Location)

theorem checkWrite_draws : (checkWrite env w root false).2.draws = w.draws + 1 := by
  unfold checkWrite
  simp only [Bool.false_eq_true, if_false]
  split <;> rfl

theorem run_draws : (run env config store facts w root false).2.draws = w.draws + 1 := by
  obtain ⟨-, hdraws⟩ := checkChanges_world config facts w false
  rw [run_world, checkWrite_draws]
  rcases checkDisk_world config store facts (checkChanges config facts w false).2 root with ⟨-, hsame⟩ | ⟨-, hevicted⟩
  · rw [hsame, hdraws]
  · rw [hevicted, ← hdraws]
    rfl

end Preflight

namespace Site

open Registry (Bench Housed Perused)
open SnapshotStore (timestampBound)

variable {s : Site} {env : Surroundings} {home : Home} {b b' : Bench}

/-- A bench behind the checks: snapshots may have been removed. -/
structure Checked (s : Site) (b b' : Bench) : Prop where
  registry : b'.registry = b.registry
  host : b'.host = b.host
  draws : b'.world.draws = b.world.draws + 1
  aside : s.store.Aside b.world.files b'.world.files
  nothing : ∀ q, b.world.files.shapeAt? q = none → b'.world.files.shapeAt? q = none

theorem Checked.housed (h : s.Checked b b') (hb : Housed home b) : Housed home b' :=
  ⟨hb.cut, by rw [h.host, hb.cache], by rw [h.registry, hb.ledger], by rw [h.host]; exact hb.named⟩

theorem preflight_checked (facts : HostFacts) (ho : s.Ordered home env b.world.files)
    (hnew : b.world.files.shapeAt? (s.root.join (Preflight.probeName (b.world.freshId env))).settled = none) :
    s.Checked b (s.preflight env facts b false).2 := by
  have hdraws := Preflight.run_draws env s.config s.store facts b.world s.root
  have hfiles := Preflight.run_files env s.config s.store facts b.world s.root hnew
  unfold preflight
  generalize Preflight.run env s.config s.store facts b.world s.root false = checked at hdraws hfiles
  obtain ⟨report, w⟩ := checked
  rcases hfiles with ⟨-, hsame⟩ | ⟨-, hevicted⟩
  · simp only at hsame
    refine ⟨rfl, rfl, hdraws, ?_, fun q hq => ?_⟩
    · rw [hsame]
      exact .refl ho.tidy ho.storeDir
    · rwa [hsame]
  · simp only at hevicted
    refine ⟨rfl, rfl, hdraws, ?_, fun q hq => ?_⟩
    · rw [hevicted]
      exact ho.tidy.aside_evict ho.storeDir 1
    · rw [hevicted]
      exact SnapshotStore.shapeAt?_evict_none hq

/-! ## Reading sources -/

theorem parseFile_perused (h : Housed home b) {root : Location} {key : String} {parsed : ParserHost.Parsed}
    (hp : b.host.parseFile env b.world.files root key = .ok parsed) :
    Perused home b ⟨b.registry, parsed.host, b.world.withFiles parsed.files⟩ := by
  unfold ParserHost.parseFile at hp
  split at hp
  · cases hp
  · cases hp
  · rw [← Except.ok.inj hp]
    exact (h.parse env key _).2

theorem analyze_perused (h : Housed home b) : Perused home b (s.analyze env b).2 := by
  have hfold : ∀ (fs : List TreeFile) (r : Analysis.Reading),
      Perused home b ⟨b.registry, r.host, b.world.withFiles r.files⟩ →
      Perused home b ⟨b.registry, (fs.foldl (Analysis.Reading.read env Resolution.inTree s.root) r).host,
        b.world.withFiles
          (fs.foldl (Analysis.Reading.read env Resolution.inTree s.root) r).files⟩ := by
    intro fs
    induction fs with
    | nil => exact fun _ hr => hr
    | cons f rest ih =>
      intro r hr
      rw [List.foldl_cons]
      refine ih _ ?_
      unfold Analysis.Reading.read
      split
      · exact hr
      · rename_i parsed hp
        exact hr.trans (parseFile_perused hr.housed hp)
  exact hfold (s.filter.walkSources b.world.files s.root) ⟨[], .start _, b.host, b.world.files⟩ (.refl h)

theorem candidatesOf_perused (h : Housed home b) (f : TreeFile) : Perused home b (s.candidatesOf env b f).2 := by
  unfold candidatesOf
  split
  · exact .refl h
  · rename_i parsed hp
    exact parseFile_perused h hp

theorem of_mem_candidatesOf {f : TreeFile} :
    ∀ c ∈ (s.candidatesOf env b f).1, c.file = f.key ∧ checkPath (s.root.join f.key) = .ok () := by
  intro c hc
  unfold candidatesOf at hc
  split at hc
  · cases hc
  · rename_i parsed hp
    obtain ⟨id, -, rfl⟩ := List.mem_map.1 hc
    refine ⟨rfl, ?_⟩
    unfold ParserHost.parseFile at hp
    split at hp
    · cases hp
    · cases hp
    · rename_i bytes hentry
      exact (entryAt_eq_ok.1 hentry).1.1

theorem candidatesAmong_perused (h : Housed home b) (fs : List TreeFile) :
    Perused home b (s.candidatesAmong env fs b).2 := by
  induction fs generalizing b with
  | nil => exact .refl h
  | cons f rest ih =>
    have hfirst : Perused home b (s.candidatesOf env b f).2 := candidatesOf_perused h f
    exact hfirst.trans (ih hfirst.housed)

theorem of_mem_candidatesAmong {fs : List TreeFile} : ∀ c ∈ (s.candidatesAmong env fs b).1,
    ∃ f ∈ fs, c.file = f.key ∧ checkPath (s.root.join f.key) = .ok () := by
  induction fs generalizing b with
  | nil => exact fun _ hc => nomatch hc
  | cons f rest ih =>
    intro c hc
    rw [candidatesAmong] at hc
    rcases List.mem_append.1 hc with hc | hc
    · exact ⟨f, List.mem_cons_self .., of_mem_candidatesOf c hc⟩
    · obtain ⟨g, hg, hread⟩ := ih c hc
      exact ⟨g, List.mem_cons_of_mem f hg, hread⟩

theorem candidatesAmong_pairwise {fs : List TreeFile} (h : fs.Pairwise fun f g => ¬ g.key < f.key) :
    ((s.candidatesAmong env fs b).1.map (·.file)).Pairwise fun a c => ¬ c < a := by
  induction fs generalizing b with
  | nil => exact List.Pairwise.nil
  | cons f rest ih =>
    obtain ⟨hfirst, hrest⟩ := List.pairwise_cons.1 h
    rw [candidatesAmong, List.map_append]
    refine List.pairwise_append.2 ⟨?_, ih hrest, fun a ha c hc => ?_⟩
    · refine List.pairwise_of_forall_mem_list fun a ha c hc => ?_
      obtain ⟨c₁, hc₁, rfl⟩ := List.mem_map.1 ha
      obtain ⟨c₂, hc₂, rfl⟩ := List.mem_map.1 hc
      rw [(of_mem_candidatesOf c₁ hc₁).1, (of_mem_candidatesOf c₂ hc₂).1]
      exact String.lt_irrefl _
    · obtain ⟨c₁, hc₁, rfl⟩ := List.mem_map.1 ha
      obtain ⟨c₂, hc₂, rfl⟩ := List.mem_map.1 hc
      obtain ⟨g, hg, hfile, -⟩ := of_mem_candidatesAmong c₂ hc₂
      rw [(of_mem_candidatesOf c₁ hc₁).1, hfile]
      exact hfirst g hg

/-! ## The files of candidates -/

theorem mem_of_mem_dropRepeats {l : List String} {a : String} (h : a ∈ dropRepeats l) : a ∈ l := by
  fun_induction dropRepeats l with
  | case1 => exact h
  | case2 key => exact h
  | case3 b rest ih => exact List.mem_cons_of_mem _ (ih h)
  | case4 a b rest hne ih =>
    rcases List.mem_cons.1 h with rfl | h
    · exact List.mem_cons_self ..
    · exact List.mem_cons_of_mem _ (ih h)

theorem nodup_dropRepeats {l : List String} (h : l.Pairwise fun a b => ¬ b < a) : (dropRepeats l).Nodup := by
  fun_induction dropRepeats l with
  | case1 => exact List.nodup_nil
  | case2 key => simp
  | case3 b rest ih => exact ih (List.pairwise_cons.1 h).2
  | case4 a b rest hne ih =>
    obtain ⟨ha, hrest⟩ := List.pairwise_cons.1 h
    refine List.nodup_cons.2 ⟨fun hmem => ?_, ih hrest⟩
    -- the first item is smaller than the second, which is not behind any other
    have hlt : a < b := SortedMap.lt_of_not_lt (Ne.symm hne) (ha b (List.mem_cons_self ..))
    rcases List.mem_cons.1 (mem_of_mem_dropRepeats hmem) with rfl | hmem
    · exact hne rfl
    · exact (List.pairwise_cons.1 hrest).1 a hmem hlt

/-- The keys of the files that a run tries to fix. -/
def keysOf (candidates : List Candidate) : List String := dropRepeats (candidates.map (·.file))

theorem candidates_perused (h : Housed home b) : Perused home b (s.candidates env b).2 := candidatesAmong_perused h _

theorem candidates_keys (h : b.world.files.WellFormed) : (keysOf (s.candidates env b).1).Nodup ∧
    ∀ key ∈ keysOf (s.candidates env b).1, checkPath (s.root.join key) = .ok () ∧
      ∃ names c, s.filter.Walks b.world.files s.root names c ∧ key = Key.ofNames names := by
  refine ⟨nodup_dropRepeats (candidatesAmong_pairwise ?_), fun key hkey => ?_⟩
  · rw [SourceFilter.walkSources, SourceFilter.walk]
    split
    · exact List.Pairwise.nil
    · exact SourceFilter.mergeSort_pairwise _
  · obtain ⟨c, hc, rfl⟩ := List.mem_map.1 (mem_of_mem_dropRepeats hkey)
    obtain ⟨f, hf, hfile, hpath⟩ := of_mem_candidatesAmong c hc
    obtain ⟨names, content, hw, rfl, -⟩ := (SourceFilter.mem_walkSources h).1 hf
    rw [hfile]
    exact ⟨hpath, names, content, hw, rfl⟩

/-! ## The snapshot before the repairs -/

/-- What a run of repairs starts from: files in order, and a clock and fresh ids that will do for its snapshot. -/
structure Prepared (s : Site) (home : Home) (env : Surroundings) (b : Bench) : Prop where
  ordered : s.Ordered home env b.world.files
  housed : Housed home b
  probe : b.world.files.shapeAt? (s.root.join (Preflight.probeName (b.world.freshId env))).settled = none
  unused : s.store.Unused env b.world.drawn
  clock : b.world.drawn.now env < timestampBound
  bytes : b.world.files.totalBytes < timestampBound

/-- A bench behind the checks, from which the project looks as before. -/
structure Looked (s : Site) (home : Home) (env : Surroundings) (b b' : Bench) : Prop where
  ordered : s.Ordered home env b'.world.files
  housed : Housed home b'
  registry : b'.registry = b.registry
  draws : b'.world.draws = b.world.draws + 1
  project : SameProject home (fun _ => False) b.world.files b'.world.files
  nothing : ∀ q, s.store.directory.settled <+: q → b.world.files.shapeAt? q = none → b'.world.files.shapeAt? q = none

theorem Prepared.looked (h : s.Prepared home env b) (hf : s.Fitted home) (facts : HostFacts) :
    s.Looked home env b (s.preflight env facts b false).2 := by
  have hchecked := preflight_checked facts h.ordered h.probe
  exact ⟨h.ordered.aside hf hchecked.aside, hchecked.housed h.housed, hchecked.registry, hchecked.draws,
    hf.sameProject hchecked.aside _, fun q _ => hchecked.nothing q⟩

theorem Looked.perused {b'' : Bench} (h : s.Looked home env b b') (hf : s.Fitted home) (hp : Perused home b' b'') :
    s.Looked home env b b'' := by
  have hfiles := hp.worked.files
  refine ⟨h.ordered.sameFiles hf hfiles fun q hq => .inl hq, hp.housed, hp.registry.trans h.registry,
    hp.draws.trans h.draws, h.project.trans (.of_sameFiles hfiles fun _ hq => .inl hq) fun _ hq => hq, fun q hq hnone => ?_⟩
  rw [hp.files.same q fun hcache => hf.store_not_scratch hq (.inl hcache), h.nothing q hq hnone]

/-- A bench behind the snapshot, with which the repairs begin. -/
structure Saved (s : Site) (home : Home) (env : Surroundings) (b saved : Bench) (S : Snapshot) : Prop where
  ordered : s.Ordered home env saved.world.files
  housed : Housed home saved
  registry : saved.registry = b.registry
  project : SameProject home (fun _ => False) b.world.files saved.world.files
  added : ∃ t, s.Ordered home env t ∧ SameProject home (fun _ => False) b.world.files t ∧
    s.store.Added env.checksum t s.root S saved.world.files

theorem Prepared.saved (h : s.Prepared home env b) (hf : s.Fitted home) (hl : s.Looked home env b b') {S : Snapshot}
    {w : World} {tag description : String} (hc : s.store.create env b'.world s.root tag description = (.ok S, w)) :
    S.tag = tag ∧ s.Saved home env b ⟨b'.registry, b'.host, w⟩ S := by
  have hid : b'.world.freshId env = b.world.drawn.freshId env := congrArg env.freshId hl.draws
  have hnow : b'.world.now env = b.world.drawn.now env := congrArg env.clock hl.draws
  have hcut : s.store.directory.IsCut := hf.directory ▸ hf.homeCut.join _
  have hready : s.store.Ready env b'.world s.root := by
    refine ⟨hl.ordered.storeDir, hcut, hl.ordered.rootDir, hl.ordered.plain.safe, ?_, fun ts => ?_⟩
    · rw [hid]
      exact h.unused.hex
    · rw [hid]
      exact hl.nothing _ (List.prefix_append _ _) (h.unused.fresh ts)
  have hsize : ((s.store.filter.walkFiles b'.world.files s.root).map (·.size)).sum < timestampBound := by
    rw [(hl.project.sameWalk hf h.ordered hl.ordered).sum_eq h.ordered.plain.wellFormed hl.ordered.plain.wellFormed]
    exact Nat.lt_of_le_of_lt (SourceFilter.sum_walkFiles_le _ _ _) h.bytes
  obtain ⟨htag, -, hadded⟩ := hl.ordered.tidy.added_of_create hready hl.ordered.plain (hnow ▸ h.clock) hsize hf.keeps hc
  refine ⟨htag, hl.ordered.aside hf hadded.aside, ⟨hl.housed.cut, hl.housed.cache, hl.housed.ledger, hl.housed.named⟩,
    hl.registry, hl.project.trans (hf.sameProject hadded.aside _) fun _ hq => hq, ?_⟩
  exact ⟨b'.world.files, hl.ordered, hl.project, hadded⟩

end Site

end TreeRepair
