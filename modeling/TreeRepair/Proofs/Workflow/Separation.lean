import TreeRepair.Proofs.Snapshot.Rules
import TreeRepair.Proofs.Workflow.DryRun

/-! The home and the project apart. A session whose walks never enter its home names no file of the home, and none of
its calls makes a file by which a later one could. -/

set_option autoImplicit false

namespace TreeRepair

open Location Listing

/-! ## Keys and files that keep off a home -/

namespace Home

/-- A key of no file of the home. -/
structure Spares (home : Home) (root : Location) (k : String) : Prop where
  outside : ¬ home.Holds (root.join k).settled
  plain : '\\' ∉ k.toList

/-- What is asked of a file: outside the home its names below the root hold no backslash, and as a manifest in the store
it names no file of the home. -/
structure Admits (home : Home) (root : Location) (q : List String) (c : ByteArray) : Prop where
  plain : ∀ names, q = root.settled ++ names → ¬ home.Holds q → Key.IsPlain names
  listed : ∀ id S, q = home.backups.settled ++ [id, SnapshotStore.manifestName] → Snapshot.ofBytes? c = some S →
    ∀ k ∈ S.files, home.Spares root k

variable {home : Home} {root : Location} {q : List String} {c : ByteArray}

theorem Spares.not_own {k : String} (h : home.Spares root k) :
    ¬ (home.cache.settled <+: (root.join k).settled ∨ home.backups.settled <+: (root.join k).settled ∨
      home.reports.settled <+: (root.join k).settled ∨ home.ledger.settled <+: (root.join k).settled) :=
  fun hown => h.outside (holds_own hown)

theorem holds_stored {id : String} {names : List String} : home.Holds (home.backups.settled ++ id :: names) :=
  holds_own (.inr (.inl (List.prefix_append _ _)))

theorem admits_of_holds (hq : home.Holds q) (hm : ∀ id, q ≠ home.backups.settled ++ [id, SnapshotStore.manifestName]) :
    home.Admits root q c :=
  ⟨fun _ _ hn => absurd hq hn, fun id _ heq => absurd heq (hm id)⟩

theorem admits_of_scratch (hq : home.Scratch q) : home.Admits root q c :=
  admits_of_holds (holds_of_scratch hq) fun _ heq =>
    not_scratch_of_backups (heq ▸ List.prefix_append _ _) hq

theorem admits_stored {id n : String} {names : List String} (hn : n ≠ SnapshotStore.manifestName) :
    home.Admits root (home.backups.settled ++ id :: n :: names) c := by
  refine admits_of_holds holds_stored fun i heq => hn ?_
  have htail := List.append_cancel_left heq
  rw [List.cons.injEq, List.cons.injEq] at htail
  exact htail.2.1

theorem admits_of_outside {names : List String} (hq : ¬ home.Holds (root.settled ++ names)) (hp : Key.IsPlain names) :
    home.Admits root (root.settled ++ names) c :=
  ⟨fun _ heq _ => List.append_cancel_left heq ▸ hp, fun _ _ heq => absurd (heq ▸ holds_stored) hq⟩

end Home

namespace Site

open Registry (Bench Housed Perused)

variable {s : Site} {env : Surroundings} {home : Home} {b b' : Bench} {t x : Listing} {names : List String}

theorem Fitted.not_holds (hf : s.Fitted home) (he : s.filter.Enters s.root [] names) :
    ¬ home.Holds (s.root.settled ++ names) := by
  rintro ⟨m, ms, heq⟩
  exact hf.hidden names m ms he heq.symm

/-- A file on a way that a walk may take has plain names, and its key is of no file of the home. -/
theorem Fitted.spares (hf : s.Fitted home) (ht : t.EachFile (home.Admits s.root)) {c : ByteArray}
    (hw : s.filter.Walks t s.root names c) : Key.IsPlain names ∧ home.Spares s.root (Key.ofNames names) := by
  have hout := hf.not_holds hw.enters
  have hplain : Key.IsPlain names := (ht.obeys _ c hw.isFile).plain names rfl hout
  have hn := hw.isName ht.wellFormed
  refine ⟨hplain, ?_, Key.noBackslash_ofNames names⟩
  rwa [Key.join_ofNames hw.ne_nil hn hplain, settled_append_names fun n hm => (hn n hm).goesDown]

/-- The store keeps the home and the project apart. -/
theorem Fitted.governed (hf : s.Fitted home) :
    s.store.Governed s.root (home.Admits s.root) (home.Spares s.root) where
  cut := hf.directory ▸ hf.homeCut.join _
  rootCut := hf.cut
  met t k ht hk := by
    obtain ⟨names, c, hw, rfl⟩ := hk
    rw [hf.filter] at hw
    obtain ⟨hplain, hspares⟩ := hf.spares ht hw
    exact ⟨Key.isSafeRelative_ofNames hw.ne_nil (hw.isName ht.wellFormed) hplain, hspares⟩
  copy id names c := by
    rw [SnapshotStore.copiesPlace, hf.directory, List.append_assoc]
    exact Home.admits_stored (by decide)
  manifest id S hS := by
    rw [hf.directory]
    exact ⟨fun _ _ hn => absurd Home.holds_stored hn, fun i S' _ hread k hk =>
      hS k (Snapshot.files_of_ofBytes? hread ▸ hk)⟩
  listed id c S hP hread k hk := hP.listed id S (by rw [hf.directory]) hread k hk
  log id c := by
    rw [hf.directory]
    exact Home.admits_stored (by decide)
  restored k c hsafe hk := by
    have hout := hk.outside
    rw [Key.settled_join_of_safe hsafe] at hout ⊢
    exact Home.admits_of_outside hout (Key.isPlain_steps hk.plain)

/-! ## Benches -/

/-- A bench of a session that stays in its home, with the home and the project apart. -/
structure Apart (s : Site) (home : Home) (b : Bench) : Prop where
  housed : Housed home b
  files : b.world.files.EachFile (home.Admits s.root)

theorem Apart.of_files (h : s.Apart home b) {w : World} (hw : w.files.EachFile (home.Admits s.root)) :
    s.Apart home { b with world := w } :=
  ⟨⟨h.housed.cut, h.housed.cache, h.housed.ledger, h.housed.named⟩, hw⟩

theorem Apart.sameFiles (h : s.Apart home b) (hb : Housed home b')
    (hs : SameFiles home.Scratch b.world.files b'.world.files) : s.Apart home b' :=
  ⟨hb, h.files.sameFiles hs fun _ _ => Home.admits_of_scratch⟩

theorem Apart.perused (h : s.Apart home b) (hp : Perused home b b') : s.Apart home b' :=
  h.sameFiles hp.housed hp.worked.files

/-! ## Checks -/

end Site

namespace Preflight

variable {env : Surroundings} {config : Config} {store : SnapshotStore} {facts : HostFacts} {w : World} {root : Location}
  {P : List String → ByteArray → Prop}

theorem toList_probeName (freshId : String) : (probeName freshId).toList =
    ".warden-write-probe-".toList ++ (String.ofList (freshId.toList.filter (· != '-'))).toList :=
  String.toList_append

theorem notMem_probeName {freshId : String} {c : Char} (hc : c = '/' ∨ c = '\\')
    (hhex : ∀ c ∈ freshId.toList, Digest.isHexDigit c = true ∨ c = '-') : c ∉ (probeName freshId).toList := by
  rw [toList_probeName, List.mem_append]
  rintro (hfront | hback)
  · rcases hc with rfl | rfl <;> exact absurd hfront (by decide)
  · have hid : c ∈ freshId.toList := List.mem_of_mem_filter (String.toList_ofList ▸ hback)
    rcases hc with rfl | rfl <;> exact absurd (hhex _ hid) (by decide)

theorem goesDown_probeName (freshId : String) : GoesDown (probeName freshId) := by
  refine goesDown_of_length (Nat.lt_of_lt_of_le (m := ".warden-write-probe-".toList.length) (by decide) ?_)
  rw [toList_probeName, List.length_append]
  exact Nat.le_add_right _ _

theorem run_eachFile (hcut : root.IsCut) (hhex : ∀ c ∈ (w.freshId env).toList, Digest.isHexDigit c = true ∨ c = '-')
    (hprobe : ∀ c, P (root.settled ++ [probeName (w.freshId env)]) c) (hw : w.files.EachFile P) (dryRun : Bool) :
    (run env config store facts w root dryRun).2.files.EachFile P := by
  cases dryRun with
  | true => rwa [run_dry]
  | false =>
    obtain ⟨hfiles, hdraws⟩ := checkChanges_world config facts w false
    rw [run_world]
    generalize (checkChanges config facts w false).2 = c at hfiles hdraws
    obtain ⟨hid, hdisk⟩ : (checkDisk config store facts c root false).2.freshId env = w.freshId env ∧
        (checkDisk config store facts c root false).2.files.EachFile P := by
      rcases checkDisk_world config store facts c root with ⟨-, hsame⟩ | ⟨-, hevicted⟩
      · rw [hsame, hfiles]
        exact ⟨congrArg env.freshId hdraws, hw⟩
      · rw [hevicted]
        exact ⟨congrArg env.freshId hdraws, SnapshotStore.evict_eachFile (hfiles ▸ hw) 1⟩
    generalize (checkDisk config store facts c root false).2 = d at hid hdisk
    have hname : '/' ∉ (probeName (w.freshId env)).toList := notMem_probeName (.inl rfl) hhex
    unfold checkWrite
    simp only [Bool.false_eq_true, if_false, hid, join_name hname]
    split
    · exact hdisk
    · rename_i written hwr
      -- removing the probe may fail, so that it has to obey the rule itself
      refine EachFile.retract (hdisk.write (hcut.append_name hname) hwr ?_) _
      rw [settled_append_names (by simpa using goesDown_probeName _)]
      exact hprobe _

end Preflight

namespace Site

open Registry (Bench Housed Perused)

variable {s : Site} {env : Surroundings} {facts : HostFacts} {home : Home} {b b' : Bench} {t x : Listing}

theorem Fitted.admits_name (hf : s.Fitted home) {n : String} (hn : '\\' ∉ n.toList) (c : ByteArray) :
    home.Admits s.root (s.root.settled ++ [n]) c := by
  have henters : s.filter.Enters s.root [] [n] := by
    intro p m hp hne
    refine absurd (hp.eq_of_length_le ?_) hne
    simp
  exact Home.admits_of_outside (hf.not_holds henters) (by simpa [Key.IsPlain] using hn)

/-! ## Replacing a file -/

/-- Replacing a file keeps a rule that the file and its draft obey, however it ends. -/
theorem replaceFile_eachFile {P : List String → ByteArray → Prop} {process : Nat} {base : Location} {n : String}
    (hcut : base.IsCut) (hn : IsName n) (hplace : ∀ c, P (base.settled ++ [n]) c)
    (hdraft : ∀ c, P (base.settled ++ [draftName process n]) c) (ht : t.EachFile P) (content : ByteArray) :
    (replaceFile process t (base ++ [n]) content).2.EachFile P := by
  unfold replaceFile
  simp only [draft_eq hn.goesDown]
  split
  · exact ht.retract _
  · rename_i written hwr
    -- from here on the draft is there, until it is retracted or takes the place of the file
    have hwritten : written.EachFile P := ht.write (isCut_draft hcut hn.noSlash process) hwr (by
      rw [settled_draft]
      exact hdraft content)
    split
    · exact hwritten.retract _
    · rename_i moved hren
      refine hwritten.rename (hcut.append_name hn.noSlash) hren fun c => ?_
      rw [settled_append_names (by simpa using hn.goesDown)]
      exact hplace c

/-- Replacing a file of the project keeps the home and the project apart. -/
theorem Fitted.replaceFile (hf : s.Fitted home) {key : String} {names : List String} (hk : s.store.Spells s.root key names)
    (ht : t.EachFile (home.Admits s.root)) (process : Nat) (content : ByteArray) :
    (replaceFile process t (s.root.join key) content).2.EachFile (home.Admits s.root) := by
  have henters := hk.enters
  rw [hf.filter] at henters
  obtain ⟨front, n, rfl, hn, hcut, hfront, hjoin⟩ := front_of_spells hk hf.cut
  have hadmits : ∀ m, '\\' ∉ m.toList → ∀ c, home.Admits s.root (settled (s.root ++ front) ++ [m]) c := by
    intro m hm c
    rw [hfront, List.append_assoc]
    refine Home.admits_of_outside (hf.not_holds (henters.sibling m)) fun p hp => ?_
    rcases List.mem_append.1 hp with hp | hp
    · exact hk.plain p (List.mem_append_left _ hp)
    · rwa [List.mem_singleton.1 hp]
  have hplain : '\\' ∉ n.toList := hk.plain n (by simp)
  rw [hjoin]
  exact replaceFile_eachFile hcut hn (hadmits n hplain)
    (hadmits _ (notMem_draftName (.inr rfl) hplain)) ht content

/-! ## Stages -/

theorem Apart.analyze (h : s.Apart home b) : s.Apart home (s.analyze env b).2 := h.perused (analyze_perused h.housed)

theorem Apart.candidates (h : s.Apart home b) : s.Apart home (s.candidates env b).2 :=
  h.perused (candidates_perused h.housed)

theorem Apart.tick (h : s.Apart home b) : s.Apart home (tick b) := h.of_files h.files

section Stages

variable (hf : s.Fitted home)

include hf

/-- The keys of the files that are tried are those of files that the walk meets. -/
theorem Apart.spells (h : s.Apart home b) :
    ∀ key ∈ keysOf (s.candidates env b).1, ∃ names, s.store.Spells s.root key names := by
  intro key hkey
  obtain ⟨-, names, c, hw, rfl⟩ := (candidates_keys h.files.wellFormed).2 key hkey
  exact ⟨names, rfl, hw.ne_nil, hw.isName h.files.wellFormed, (hf.spares h.files hw).1, hf.filter ▸ hw.enters⟩

theorem Apart.fixFile {f : Fixed} (h : s.Apart home f.bench) {key : String} {names : List String}
    (hk : s.store.Spells s.root key names) : s.Apart home (s.fixFile env f key).2.bench := by
  unfold Site.fixFile
  simp only
  split
  · exact h
  · rename_i source _
    -- the rules put files in the cache only, so that just the replacement meets the project
    obtain ⟨-, hworked⟩ := applyRules_spec env key (f.bench.registry.rules.map (·.id))
      ⟨source, (f.bench.host.parse env f.bench.world.files key source).unit⟩ _ (h.housed.parse env key source).2.housed
    have hleft := (h.perused (h.housed.parse env key source).2).sameFiles hworked.housed hworked.files
    split
    · exact hleft
    · have hreplaced := hf.replaceFile hk hleft.files
      split <;>
      · rename_i hr
        have hfiles := hr ▸ hreplaced _ _
        exact hleft.of_files hfiles

variable (hhex : ∀ n, ∀ c ∈ (env.freshId n).toList, Digest.isHexDigit c = true ∨ c = '-')

include hhex

theorem Apart.preflight (h : s.Apart home b) (dryRun : Bool) : s.Apart home (s.preflight env facts b dryRun).2 := by
  rw [preflight_eq]
  exact h.of_files (Preflight.run_eachFile hf.cut (hhex _)
    (hf.admits_name (Preflight.notMem_probeName (.inr rfl) (hhex _))) h.files dryRun)

theorem Apart.create (h : s.Apart home b) (tag description : String) :
    s.Apart home { b with world := (s.store.create env b.world s.root tag description).2 } :=
  h.of_files (hf.governed.create hhex h.files tag description).1

end Stages

/-! ## Calls -/

theorem load_of_rollbackTarget {id : Option String} {S : Snapshot} (h : s.rollbackTarget t id = .ok S) :
    ∃ i, s.store.load t i = .ok S := by
  cases id with
  | some i =>
    simp only [rollbackTarget] at h
    split at h
    · rename_i hload
      exact ⟨i, Except.ok.inj h ▸ hload⟩
    · cases h
  | none =>
    simp only [rollbackTarget] at h
    split at h
    · rename_i hfind
      exact SnapshotStore.mem_list.1 (List.mem_reverse.1 (List.mem_of_find?_eq_some (Except.ok.inj h ▸ hfind)))
    · cases h

/-- A rollback restores and deletes no file of the home. -/
theorem Apart.rollback (hf : s.Fitted home)
    (hhex : ∀ n, ∀ c ∈ (env.freshId n).toList, Digest.isHexDigit c = true ∨ c = '-') (h : s.Apart home b)
    {id : Option String} {target : Snapshot} (htarget : s.rollbackTarget b.world.files id = .ok target) (dryRun : Bool) :
    s.Apart home { b with world := (s.store.executeRollback env b.world
      (.ofDiff target (s.store.diff env.checksum b.world.files target s.root none)) s.root dryRun).2 } := by
  obtain ⟨i, hload⟩ := load_of_rollbackTarget htarget
  have hnamed := hf.governed.load h.files hload
  exact h.of_files (hf.governed.executeRollback hhex h.files (fun k hk =>
    hf.governed.plan h.files hnamed env.checksum none k (SnapshotStore.Rollback.mem_paths_ofDiff.1 hk)) dryRun)

/-- All stages of a call keep the home and the project apart. -/
theorem Fitted.stable (hf : s.Fitted home)
    (hhex : ∀ n, ∀ c ∈ (env.freshId n).toList, Digest.isHexDigit c = true ∨ c = '-') :
    s.Stable env (s.Apart home) fun key => ∃ names, s.store.Spells s.root key names where
  preflight h _ dryRun := h.preflight hf hhex dryRun
  create h tag description := h.create hf hhex tag description
  analyze h := h.analyze
  candidates h := h.candidates
  keys h := h.spells hf
  fixFile := fun ⟨_, hk⟩ h => h.fixFile hf hk
  rollback h htarget dryRun := h.rollback hf hhex htarget dryRun
  tick h := h.tick

end Site

end TreeRepair
