import TreeRepair.Proofs.FileTree.Rules
import TreeRepair.Proofs.Snapshot.Difference
import TreeRepair.Proofs.Snapshot.Rollback

/-! Rules that a store of snapshots keeps. Where a rule for files lets the store write its own and lets a rollback write
files with accepted keys, no operation breaks it; and where the files that obey it have accepted keys, so have all files
that a snapshot, a comparison or a plan names. -/

set_option autoImplicit false

namespace TreeRepair

open Location Listing

namespace SnapshotStore

variable {s : SnapshotStore} {root : Location} {P : List String → ByteArray → Prop} {Q : String → Prop}
  {env : Surroundings} {w : World} {t x : Listing}

/-- A rule `P` for files and one, `Q`, for keys that go together in a store. -/
structure Governed (s : SnapshotStore) (root : Location) (P : List String → ByteArray → Prop) (Q : String → Prop) :
    Prop where
  cut : s.directory.IsCut
  rootCut : root.IsCut
  /-- Where all files obey the rule, those that a walk meets have accepted keys. -/
  met : ∀ t k, t.EachFile P → s.Meets t root k → isSafeRelative k = true ∧ Q k
  /-- Copies may hold anything. -/
  copy : ∀ id names c, P (s.copiesPlace id ++ names) c
  /-- A manifest that obeys the rule names accepted keys, and it may name any of them. -/
  manifest : ∀ id (S : Snapshot), (∀ k ∈ S.files, Q k) → P (s.directory.settled ++ [id, manifestName]) S.bytes
  listed : ∀ id c S, P (s.directory.settled ++ [id, manifestName]) c → Snapshot.ofBytes? c = some S → ∀ k ∈ S.files, Q k
  log : ∀ id c, P (s.directory.settled ++ [id, logName]) c
  /-- Files with accepted keys may be written. -/
  restored : ∀ k c, isSafeRelative k = true → Q k → P (root.join k).settled c

/-! ## Removal -/

theorem removeAll_eachFile (snapshots : List Snapshot) (e : Eviction) (ht : t.EachFile P) :
    (s.removeAll snapshots e t).2.EachFile P := by
  induction snapshots generalizing e t with
  | nil => exact ht
  | cons S rest ih =>
    have hleft := ht.removeDir (s.snapshotDir S.id)
    rw [removeAll]
    cases hr : t.removeDir (s.snapshotDir S.id) with
    | mk res left =>
      rw [hr] at hleft
      cases res with
      | error fault => exact hleft
      | ok u => exact ih _ hleft

theorem evict_eachFile (ht : t.EachFile P) (keep : Nat) : (s.evict t keep).2.EachFile P := removeAll_eachFile _ _ ht

/-! ## Creation -/

theorem copyAll_keys {checksum : HashFunction} {target : Location} {required : List String} {fs : List TreeFile}
    {snapshot S : Snapshot} (h : copyAll checksum target required fs snapshot t = (.ok S, x)) :
    S.id = snapshot.id ∧ ∀ k ∈ S.files, k ∈ snapshot.files ∨ k ∈ fs.map (·.key) := by
  induction fs generalizing snapshot t with
  | nil =>
    obtain ⟨rfl, -⟩ := by simpa [copyAll] using h
    exact ⟨rfl, fun k hk => .inl hk⟩
  | cons f rest ih =>
    rw [copyAll] at h
    split at h
    · split at h
      · cases h
      · obtain ⟨hid, hkeys⟩ := ih h
        exact ⟨hid, fun k hk => (hkeys k hk).imp_right (List.mem_cons_of_mem _)⟩
    · simp only at h
      split at h
      · cases h
      split at h
      · cases h
      obtain ⟨hid, hkeys⟩ := ih h
      refine ⟨hid, fun k hk => ?_⟩
      rcases hkeys k hk with hnew | hrest
      · rcases List.mem_append.1 hnew with hold | hf
        · exact .inl hold
        · rw [List.mem_singleton.1 hf]
          exact .inr (List.mem_cons_self ..)
      · exact .inr (List.mem_cons_of_mem _ hrest)

namespace Governed

variable (h : s.Governed root P Q)

include h

theorem met_copyList (ht : t.EachFile P) (required : List String) :
    ∀ f ∈ s.copyList t root required, isSafeRelative f.key = true ∧ Q f.key := by
  intro f hf
  refine h.met t f.key ht ?_
  obtain ⟨names, c, hwanted, rfl⟩ := (mem_copyList required (fun _ _ => Iff.rfl) ht.wellFormed).1 hf
  exact ⟨names, c, hwanted.walks, rfl⟩

theorem met_large (ht : t.EachFile P) : ∀ f ∈ (s.eligible t root).2, Q f.key := by
  intro f hf
  rw [eligible, List.partition_eq_filter_filter] at hf
  obtain ⟨names, c, hw, rfl⟩ := (SourceFilter.mem_walkFiles ht.wellFormed).1 (List.mem_filter.1 hf).1
  exact (h.met t _ ht ⟨names, c, hw, rfl⟩).2

/-- Filling the directory of a snapshot keeps the rule, however it ends, and the manifest names accepted keys. -/
theorem fill {id : String} (hs : '/' ∉ id.toList) (hid : GoesDown id) (checksum : HashFunction) (required : List String)
    {snapshot : Snapshot} (hnew : snapshot.files = []) (ht : t.EachFile P) :
    (s.fill checksum t root (s.directory ++ [id]) required snapshot).2.EachFile P ∧
      ∀ S, (s.fill checksum t root (s.directory ++ [id]) required snapshot).1 = .ok S →
        S.id = snapshot.id ∧ ∀ k ∈ S.files ++ S.skippedOversize, Q k := by
  have hdir : (s.directory ++ [id]).IsCut := h.cut.append_name hs
  have htarget : (s.directory ++ [id] ++ [filesName]).IsCut := hdir.append_name (by decide)
  have hmade := ht.createDirs htarget
  rw [SnapshotStore.fill]
  simp only
  cases hcd : t.createDirs (s.directory ++ [id] ++ [filesName]) with
  | mk res made =>
    rw [hcd] at hmade
    cases res with
    | error fault => exact ⟨hmade, fun S hS => by cases hS⟩
    | ok u =>
      have hmet := h.met_copyList hmade required
      have hcopied : (copyAll checksum (s.directory ++ [id] ++ [filesName]) required (s.copyList made root required)
          snapshot made).2.EachFile P := by
        refine copyAll_induct checksum required (fun y hy f _ => hy.createDirs (htarget.join f.key).parent)
          (fun y z c hy f hf hw => hy.write (htarget.join f.key) hw ?_) snapshot hmade
        rw [settled_copyPlace (hmet f hf).1 hid]
        exact h.copy id _ c
      have hlarge := h.met_large hmade
      simp only
      split
      · rename_i fault left hcopy
        rw [copyList, hcopy] at hcopied
        exact ⟨hcopied, fun S hS => by cases hS⟩
      · rename_i filled copied hcopy
        obtain ⟨hfilled, hkeys⟩ := copyAll_keys hcopy
        rw [copyList, hcopy] at hcopied
        have hfiles : ∀ k ∈ filled.files, Q k := by
          intro k hk
          obtain ⟨f, hf, rfl⟩ := List.mem_map.1 ((hkeys k hk).resolve_left (by simp [hnew]))
          exact (hmet f hf).2
        have hskipped : ∀ k ∈ ((s.eligible made root).2.partition fun f => required.contains f.key).2.map (·.key), Q k := by
          intro k hk
          obtain ⟨f, hf, rfl⟩ := List.mem_map.1 hk
          rw [List.partition_eq_filter_filter] at hf
          exact hlarge f (List.mem_filter.1 hf).1
        split
        · exact ⟨hcopied, fun S hS => by cases hS⟩
        · rename_i written hwr
          refine ⟨hcopied.write (hdir.append_name (by decide)) hwr ?_, fun S hS => ?_⟩
          · rw [List.append_assoc, settled_append_names fun n hn => ?_]
            · exact h.manifest id _ hfiles
            · rcases List.mem_cons.1 hn with rfl | hn
              · exact hid
              · exact goesDown_manifestName n hn
          · obtain rfl := Except.ok.inj hS
            exact ⟨hfilled, List.forall_mem_append.2 ⟨hfiles, hskipped⟩⟩

variable (hhex : ∀ n, ∀ c ∈ (env.freshId n).toList, Digest.isHexDigit c = true ∨ c = '-') (hw : w.files.EachFile P)

include hhex hw

/-- A capture keeps the rule, however it ends, and its snapshot names accepted keys. -/
theorem capture (tag description : String) (required : List String) :
    (s.capture env w root tag description required).2.files.EachFile P ∧
      ∀ S, (s.capture env w root tag description required).1 = .ok S →
        isPlainName S.id = true ∧ ∀ k ∈ S.files ++ S.skippedOversize, Q k := by
  have hnew : ∀ c ∈ (w.freshId env).toList, Digest.isHexDigit c = true ∨ c = '-' := hhex w.draws
  rw [SnapshotStore.capture]
  cases s.nextTimestamp? w.files with
  | none => exact ⟨hw, fun S hS => by cases hS⟩
  | some floor =>
    simp only [snapshotDir_eq (noSlash_idOf hnew)]
    have hblank : (⟨idOf (max (w.now env) floor) (w.freshId env), tag, description, max (w.now env) floor, [], [], 0,
        []⟩ : Snapshot).files = [] := rfl
    obtain ⟨hfiles, hkeys⟩ := h.fill (noSlash_idOf hnew) goesDown_idOf env.checksum required hblank hw
    split
    · rename_i S files hfill
      rw [hfill] at hfiles hkeys
      refine ⟨hfiles, fun S' hS' => ?_⟩
      obtain rfl := Except.ok.inj hS'
      obtain ⟨hid, hall⟩ := hkeys S rfl
      exact ⟨hid ▸ isPlainName_idOf hnew, hall⟩
    · rename_i fault files hfill
      rw [hfill] at hfiles
      exact ⟨hfiles.removeDir _, fun S hS => by cases hS⟩

/-- A creation keeps the rule, however it ends, and its snapshot names accepted keys. -/
theorem create (tag description : String) :
    (s.create env w root tag description).2.files.EachFile P ∧
      ∀ S, (s.create env w root tag description).1 = .ok S → ∀ k ∈ S.files ++ S.skippedOversize, Q k := by
  have hcapture := h.capture hhex hw tag description []
  rw [SnapshotStore.create]
  split
  · rename_i e left hcap
    rw [hcap] at hcapture
    exact ⟨hcapture.1, fun S hS => by cases hS⟩
  · rename_i S made hcap
    rw [hcap] at hcapture
    have hevicted : (s.evict made.files s.maxSnapshots).2.EachFile P := evict_eachFile hcapture.1 _
    split
    · rename_i hev
      rw [hev] at hevicted
      exact ⟨hevicted, fun S hS => by cases hS⟩
    · rename_i hev
      rw [hev] at hevicted
      refine ⟨hevicted, fun S' hS' => ?_⟩
      obtain rfl := Except.ok.inj hS'
      exact (hcapture.2 S rfl).2

end Governed

/-! ## Comparison -/

namespace Governed

variable (h : s.Governed root P Q)

include h

/-- A snapshot that can be loaded names accepted keys. -/
theorem load (ht : t.EachFile P) {id : String} {S : Snapshot} (hS : s.load t id = .ok S) : ∀ k ∈ S.files, Q k := by
  obtain ⟨hplain, c, hread, hc⟩ := load_eq_ok_iff.1 hS
  refine h.listed id c S (ht.obeys _ c ?_) hc
  have hfile := (read_eq_ok.1 hread).2
  rwa [List.append_assoc, settled_append_names fun n hn => ?_] at hfile
  rcases List.mem_cons.1 hn with rfl | hn
  · exact goesDown_of_isPlainName hplain
  · exact goesDown_manifestName n hn

/-- A comparison with a snapshot that names accepted keys lists no others. -/
theorem diff (ht : t.EachFile P) {S : Snapshot} (hS : ∀ k ∈ S.files, Q k) (checksum : HashFunction) (limit : Option Nat) :
    (∀ k ∈ (s.diff checksum t S root limit).deleted, Q k) ∧ (∀ k ∈ (s.diff checksum t S root limit).added, Q k) ∧
      ∀ k ∈ (s.diff checksum t S root limit).modified, Q k := by
  refine ⟨fun k hk => hS k ((mem_deleted ht.wellFormed).1 hk).1,
    fun k hk => (h.met t k ht ((mem_added ht.wellFormed).1 hk).1).2, fun k hk => hS k ?_⟩
  obtain ⟨p, hp, rfl⟩ := List.mem_map.1 hk
  have hcompared := List.mem_map_of_mem (f := (·.1)) (List.mem_filter.1 hp).1
  rw [keys_compared] at hcompared
  have hcommon : p.1 ∈ s.common t S root := by
    cases limit with
    | none => exact hcompared
    | some n => exact List.mem_of_mem_take hcompared
  exact ((mem_common ht.wellFormed).1 hcommon).1

/-- A plan for such a comparison restores and deletes nothing else. -/
theorem plan (ht : t.EachFile P) {S : Snapshot} (hS : ∀ k ∈ S.files, Q k) (checksum : HashFunction) (limit : Option Nat) :
    ∀ k ∈ (RollbackPlan.ofDiff S (s.diff checksum t S root limit)).restores ++
      (RollbackPlan.ofDiff S (s.diff checksum t S root limit)).deletes, Q k := by
  obtain ⟨hdeleted, hadded, hmodified⟩ := h.diff ht hS checksum limit
  intro k hk
  rw [RollbackPlan.ofDiff] at hk
  simp only [List.mem_append, List.mem_mergeSort] at hk
  rcases hk with (hk | hk) | hk
  · exact hmodified k hk
  · exact hdeleted k hk
  · exact hadded k hk

end Governed

/-! ## Rollbacks -/

namespace Governed

section Run

variable {r : Rollback} (h : r.store.Governed r.root P Q)

include h

theorem restore (ht : t.EachFile P) (checksum : HashFunction) {k : String} (hk : Q k) :
    (r.restore checksum t k).2.EachFile P := by
  have hjoin := h.rootCut.join k
  have hmade := ht.createDirs hjoin.parent
  rw [Rollback.restore]
  split
  · exact ht
  · rename_i source hsource
    split
    · exact ht
    · simp only
      split
      · rename_i hcd
        rwa [hcd] at hmade
      · rename_i hcd
        rw [hcd] at hmade
        split
        · exact hmade
        · rename_i hwr
          exact hmade.write hjoin hwr (h.restored k _ (storedFile_eq_ok.1 hsource).1 hk)

omit h in
theorem delete (ht : t.EachFile P) {k : String} (hd : r.delete t k = .ok x) : x.EachFile P := by
  rw [Rollback.delete] at hd
  split at hd
  · cases hd
  · split at hd
    · rename_i hrem
      obtain rfl := Except.ok.inj hd
      exact ht.removeFile hrem
    · obtain rfl := Except.ok.inj hd
      exact ht
    · cases hd

/-- A run of steps with accepted keys keeps the rule, wherever it ends. -/
theorem run {steps : List RollbackStep} (hsteps : ∀ k ∈ steps.filterMap (·.path), Q k) {p : Rollback.Progress}
    (hp : p.world.files.EachFile P) : (r.run env steps p).2.world.files.EachFile P := by
  induction steps generalizing p with
  | nil => exact hp
  | cons step rest ih =>
    have hmem : ∀ s ∈ step :: rest, ∀ k, s.path = some k → Q k := fun s hs k hpath =>
      hsteps k (List.mem_filterMap.2 ⟨s, hs, hpath⟩)
    have hstep : (r.step env p step).2.world.files.EachFile P := by
      rcases Rollback.step_files (r := r) env p step with ⟨k, hpath, hfiles⟩ | ⟨k, -, hdel⟩ | hfiles
      · rw [hfiles]
        exact h.restore hp env.checksum (hmem step (List.mem_cons_self ..) k hpath)
      · exact delete hp hdel
      · rwa [hfiles]
    have hrest : ∀ k ∈ rest.filterMap (·.path), Q k := by
      intro k hk
      obtain ⟨s, hs, hpath⟩ := List.mem_filterMap.1 hk
      exact hmem s (List.mem_cons_of_mem step hs) k hpath
    rw [Rollback.run]
    cases hres : r.step env p step with
    | mk res q =>
      rw [hres] at hstep
      cases res with
      | error e => exact hstep
      | ok u => exact ih hrest hstep

/-- Carrying out a plan with accepted keys and writing its log keeps the rule. -/
theorem execute (hid : isPlainName r.emergency.id = true) (hplan : ∀ k ∈ r.plan.steps.filterMap (·.path), Q k)
    (hw : w.files.EachFile P) : (r.execute env w).2.files.EachFile P := by
  have hrun : (r.run env r.plan.steps ⟨w, [], true⟩).2.world.files.EachFile P := h.run hplan hw
  have hcut : ((r.store.snapshotDir r.emergency.id).join logName).IsCut := (h.cut.join _).join _
  have hlog : ∀ log, (r.writeLog (r.run env r.plan.steps ⟨w, [], true⟩).2.world.files log).EachFile P := by
    intro log
    rw [Rollback.writeLog]
    split
    · exact hrun
    · rename_i hwr
      refine hrun.write hcut hwr ?_
      rw [snapshotDir_eq (noSlash_of_isPlainName hid), join_name (by decide), List.append_assoc,
        settled_append_names fun n hn => ?_]
      · exact h.log r.emergency.id _
      · rcases List.mem_cons.1 hn with rfl | hn
        · exact goesDown_of_isPlainName hid
        · rw [List.mem_singleton.1 hn]
          exact ⟨by decide, by decide⟩
  rw [Rollback.execute]
  simp only
  split <;> exact hlog _

end Run

/-- A rollback by a plan with accepted keys keeps the rule, however it ends. -/
theorem executeRollback (h : s.Governed root P Q)
    (hhex : ∀ n, ∀ c ∈ (env.freshId n).toList, Digest.isHexDigit c = true ∨ c = '-') (hw : w.files.EachFile P)
    {plan : RollbackPlan} (hplan : ∀ k ∈ plan.steps.filterMap (·.path), Q k) (dryRun : Bool) :
    (s.executeRollback env w plan root dryRun).2.files.EachFile P := by
  rw [SnapshotStore.executeRollback]
  split
  · exact hw
  split
  · exact hw
  · rename_i target _
    have hcapture := h.capture hhex hw "emergency" s!"state before rollback to {target.id}" (plan.atRisk w.files root)
    simp only
    split
    · rename_i hcap
      rw [hcap] at hcapture
      exact hcapture.1
    · rename_i emergency saved hcap
      rw [hcap] at hcapture
      split
      · exact execute (r := ⟨s, root, plan, target, emergency, plan.atRisk w.files root⟩) h
          (hcapture.2 emergency rfl).1 hplan hcapture.1
      · exact hcapture.1.removeDir _

end Governed

end SnapshotStore

end TreeRepair
