import TreeRepair.Snapshot.Rollback
import TreeRepair.Proofs.Snapshot.Capture

/-! Steps of a rollback. A step changes at most the file that its key leads to; directories are made on
the way to it and none is removed. What holds of one step holds of a run, up to the first step that
fails. -/

set_option autoImplicit false

namespace TreeRepair

open Location Listing Text

namespace SnapshotStore.Rollback

/-- The place that a step with a key changes, if it changes any. -/
structure LeadsTo (root : Location) (key : String) (q : List String) : Prop where
  safe : isSafeRelative key = true
  place_eq : q = root.settled ++ Key.steps key
  path : checkPath (root.join key) = .ok ()
  solid : ∀ p ∈ (splitString '/' key).getLast?, isVoid p = false

/-- A tree that comes from another one by changes at the places of keys, and of directories on the way
to them. -/
structure Kept (root : Location) (keys : List String) (t x : Listing) : Prop where
  dirs : ∀ q, t.shapeAt? q = some .dir → x.shapeAt? q = some .dir
  files : ∀ q c, t.shapeAt? q = some (.file c) → x.shapeAt? q = some (.file c) ∨ ∃ k ∈ keys, LeadsTo root k q
  newFiles : ∀ q c, x.shapeAt? q = some (.file c) → t.shapeAt? q = some (.file c) ∨ ∃ k ∈ keys, LeadsTo root k q
  newDirs : ∀ q, x.shapeAt? q = some .dir → t.shapeAt? q = some .dir ∨
    ∃ k ∈ keys, ∃ ns, ns ≠ [] ∧ q = root.settled ++ ns ∧ ns <+: (Key.steps k).dropLast

variable {root : Location} {keys keys' : List String} {t x y : Listing} {key : String}

theorem Kept.refl (root : Location) (keys : List String) (t : Listing) : Kept root keys t t :=
  ⟨fun _ h => h, fun _ _ h => .inl h, fun _ _ h => .inl h, fun _ h => .inl h⟩

theorem Kept.trans (h : Kept root keys t x) (h' : Kept root keys' x y) : Kept root (keys ++ keys') t y where
  dirs q hq := h'.dirs q (h.dirs q hq)
  files q c hq := by
    rcases h.files q c hq with hx | ⟨k, hk, hl⟩
    · rcases h'.files q c hx with hy | ⟨k, hk, hl⟩
      · exact .inl hy
      · exact .inr ⟨k, List.mem_append_right _ hk, hl⟩
    · exact .inr ⟨k, List.mem_append_left _ hk, hl⟩
  newFiles q c hq := by
    rcases h'.newFiles q c hq with hx | ⟨k, hk, hl⟩
    · rcases h.newFiles q c hx with ht | ⟨k, hk, hl⟩
      · exact .inl ht
      · exact .inr ⟨k, List.mem_append_left _ hk, hl⟩
    · exact .inr ⟨k, List.mem_append_right _ hk, hl⟩
  newDirs q hq := by
    rcases h'.newDirs q hq with hx | ⟨k, hk, hl⟩
    · rcases h.newDirs q hx with ht | ⟨k, hk, hl⟩
      · exact .inl ht
      · exact .inr ⟨k, List.mem_append_left _ hk, hl⟩
    · exact .inr ⟨k, List.mem_append_right _ hk, hl⟩

theorem Kept.mono (h : Kept root keys t x) (hsub : ∀ k ∈ keys, k ∈ keys') : Kept root keys' t x where
  dirs := h.dirs
  files q c hq := (h.files q c hq).imp_right fun ⟨k, hk, hl⟩ => ⟨k, hsub k hk, hl⟩
  newFiles q c hq := (h.newFiles q c hq).imp_right fun ⟨k, hk, hl⟩ => ⟨k, hsub k hk, hl⟩
  newDirs q hq := (h.newDirs q hq).imp_right fun ⟨k, hk, hl⟩ => ⟨k, hsub k hk, hl⟩

theorem Kept.leads (h : Kept root keys t x) {l : Location} (hl : t.Leads l) : x.Leads l := hl.mono h.dirs

theorem Kept.isDir (h : Kept root keys t x) {l : Location} (hl : t.isDir l = true) : x.isDir l = true := by
  obtain ⟨h1, h2⟩ := isDir_eq_true.1 hl
  exact isDir_eq_true.2 ⟨h.leads h1, h.dirs _ h2⟩

/-! ## What a step does -/

theorem Kept.createDirs (hk : isSafeRelative key = true) (hd : t.isDir root = true) :
    Kept root [key] t (t.createDirs (parent (root.join key))).2 := by
  refine ⟨fun q hq => shapeAt?_createDirs_dir hq, fun q c hq => .inl (shapeAt?_createDirs_file.2 hq),
    fun q c hq => .inl (shapeAt?_createDirs_file.1 hq), fun q hq => ?_⟩
  rcases shapeAt?_createDirs t (parent (root.join key)) q with h | ⟨hnone, -, a, ha, rfl⟩
  · exact .inl (h ▸ hq)
  · obtain ⟨hlead, hdir⟩ := isDir_eq_true.1 hd
    rw [Key.parent_join hk] at ha
    have hgo : ∀ n ∈ (Key.steps key).dropLast, GoesDown n := fun n hn =>
      Key.goesDown_steps hk n ((List.dropLast_sublist _).subset hn)
    rcases settled_of_prefix hlead.2.components (by rw [settled_components, hdir]) hgo ha with h | ⟨ns, hne, hns, hset⟩
    · exact .inl h
    · exact .inr ⟨key, by simp, ns, hne, by rw [hset, settled_components], hns⟩

theorem leadsTo_of_leads (hk : isSafeRelative key = true) (hl : t.Leads (root.join key))
    (hd : t.shapeAt? (root.join key).settled ≠ some .dir) : LeadsTo root key (root.join key).settled := by
  refine ⟨hk, Key.settled_join_of_safe hk root, hl.1, fun p hp => ?_⟩
  by_contra hv
  have hvoid : isVoid p = true := by simpa using hv
  -- a path that ends in a void piece leads to a directory
  obtain ⟨front, hfront⟩ : ∃ front, splitString '/' key = front ++ [p] :=
    ⟨_, (List.dropLast_append_getLast? p hp).symm⟩
  have hpass := hl.2
  rw [Key.join_of_safe hk, hfront, ← List.append_assoc, Passable.append] at hpass
  refine hd ?_
  rw [Key.join_of_safe hk, hfront, ← List.append_assoc, settled_of_void_end _ hvoid]
  exact hpass.2.1

theorem Kept.write (hk : isSafeRelative key = true) {c : ByteArray} (h : t.write (root.join key) c = .ok x) :
    Kept root [key] t x := by
  obtain ⟨hlead, -, hnodir, -⟩ := write_eq_ok h
  have hplace := leadsTo_of_leads hk hlead hnodir
  have hshape := shapeAt?_write h
  refine ⟨fun q hq => ?_, fun q c' hq => ?_, fun q c' hq => ?_, fun q hq => ?_⟩
  · rw [hshape, if_neg (by rintro rfl; exact hnodir hq), hq]
  · by_cases he : q = (root.join key).settled
    · exact .inr ⟨key, by simp, he ▸ hplace⟩
    · exact .inl (by rw [hshape, if_neg he, hq])
  · by_cases he : q = (root.join key).settled
    · exact .inr ⟨key, by simp, he ▸ hplace⟩
    · rw [hshape, if_neg he] at hq
      exact .inl hq
  · rw [hshape] at hq
    split at hq
    · simp at hq
    · exact .inl hq

theorem Kept.removeFile (hk : isSafeRelative key = true) (h : t.removeFile (root.join key) = .ok x) :
    Kept root [key] t x := by
  obtain ⟨hlead, ⟨c₀, hfile⟩, -⟩ := removeFile_eq_ok h
  have hplace := leadsTo_of_leads hk hlead (by simp [hfile])
  have hshape := shapeAt?_removeFile h
  refine ⟨fun q hq => ?_, fun q c' hq => ?_, fun q c' hq => ?_, fun q hq => ?_⟩
  · rw [hshape, if_neg (by rintro rfl; simp [hfile] at hq), hq]
  · by_cases he : q = (root.join key).settled
    · exact .inr ⟨key, by simp, he ▸ hplace⟩
    · exact .inl (by rw [hshape, if_neg he, hq])
  · rw [hshape] at hq
    split at hq
    · simp at hq
    · exact .inl hq
  · rw [hshape] at hq
    split at hq
    · simp at hq
    · exact .inl hq

/-! ## Steps -/

variable {r : Rollback} {checksum : HashFunction}

theorem restore_kept (hd : t.isDir r.root = true) (key : String) :
    Kept r.root [key] t (r.restore checksum t key).2 := by
  rw [Rollback.restore]
  cases hs : r.store.storedFile r.target key with
  | error e => exact .refl ..
  | ok source =>
    have hk := (storedFile_eq_ok.1 hs).1
    simp only
    cases hr : t.read source with
    | error fault => exact .refl ..
    | ok content =>
      have hmade := Kept.createDirs hk hd
      simp only
      cases hc : t.createDirs (parent (r.root.join key)) with
      | mk res made =>
        rw [hc] at hmade
        cases res with
        | error fault => exact hmade
        | ok u =>
          simp only
          cases hw : made.write (r.root.join key) content with
          | error fault => exact hmade
          | ok written => exact (hmade.trans (Kept.write hk hw)).mono (by simp)

/-- A restore that succeeds has put the stored bytes at the place of its key. -/
theorem restore_eq_ok {key sum : String} (h : r.restore checksum t key = (.ok sum, x)) :
    ∃ source content, r.store.storedFile r.target key = .ok source ∧ t.read source = .ok content ∧
      sum = checksum content ∧ x.shapeAt? (r.root.settled ++ Key.steps key) = some (.file content) ∧
      x.Leads (r.root.join key) := by
  rw [Rollback.restore] at h
  cases hs : r.store.storedFile r.target key with
  | error e => simp [hs] at h
  | ok source =>
    have hk := (storedFile_eq_ok.1 hs).1
    simp only [hs] at h
    cases hr : t.read source with
    | error fault => simp [hr] at h
    | ok content =>
      simp only [hr] at h
      cases hc : t.createDirs (parent (r.root.join key)) with
      | mk res made =>
        cases res with
        | error fault => simp [hc] at h
        | ok u =>
          simp only [hc] at h
          cases hw : made.write (r.root.join key) content with
          | error fault => simp [hw] at h
          | ok written =>
            simp only [hw, Prod.mk.injEq, Except.ok.injEq] at h
            obtain ⟨rfl, rfl⟩ := h
            have hshape := shapeAt?_write hw
            obtain ⟨hlead, -, hnodir, -⟩ := write_eq_ok hw
            refine ⟨source, content, rfl, hr, rfl, ?_, hlead.mono fun q hq => ?_⟩
            · rw [hshape, if_pos (Key.settled_join_of_safe hk _).symm]
            · rw [hshape, if_neg (by rintro rfl; exact hnodir hq), hq]

theorem delete_kept {key : String} (h : r.delete t key = .ok x) : Kept r.root [key] t x := by
  rw [Rollback.delete] at h
  split at h
  · simp at h
  · rename_i hk
    have hk : isSafeRelative key = true := by simpa using hk
    split at h
    · rename_i left hrem
      obtain rfl := Except.ok.inj h
      exact Kept.removeFile hk hrem
    · obtain rfl := Except.ok.inj h
      exact .refl ..
    · simp at h

/-- The files behind a step are those behind its restore, those behind its delete, or the same. -/
theorem step_files (env : Surroundings) (p : Progress) (s : RollbackStep) :
    (∃ key, s.path = some key ∧
        (r.step env p s).2.world.files = (r.restore env.checksum p.world.files key).2) ∨
      (∃ key, s.path = some key ∧ r.delete p.world.files key = .ok (r.step env p s).2.world.files) ∨
      (r.step env p s).2.world.files = p.world.files := by
  rw [Rollback.step]
  split
  · rename_i key _ hpath
    refine .inl ⟨key, hpath, ?_⟩
    cases hres : r.restore env.checksum p.world.files key with
    | mk res files => cases res <;> rfl
  · rename_i key _ hpath
    refine .inl ⟨key, hpath, ?_⟩
    cases hres : r.restore env.checksum p.world.files key with
    | mk res files => cases res <;> rfl
  · rename_i key _ hpath
    cases hres : r.delete p.world.files key with
    | error e => exact .inr (.inr rfl)
    | ok files => exact .inr (.inl ⟨key, hpath, hres⟩)
  · exact .inr (.inr rfl)
  · exact .inr (.inr rfl)

theorem step_kept (env : Surroundings) (p : Progress) (s : RollbackStep)
    (hd : p.world.files.isDir r.root = true) :
    Kept r.root s.path.toList p.world.files (r.step env p s).2.world.files := by
  rcases step_files (r := r) env p s with ⟨key, hpath, hfiles⟩ | ⟨key, hpath, hdel⟩ | hfiles
  · rw [hfiles, hpath]
    exact restore_kept hd key
  · rw [hpath]
    exact delete_kept hdel
  · rw [hfiles]
    exact .refl ..

theorem run_kept (env : Surroundings) (steps : List RollbackStep) (p : Progress)
    (hd : p.world.files.isDir r.root = true) :
    Kept r.root (steps.filterMap (·.path)) p.world.files (r.run env steps p).2.world.files := by
  induction steps generalizing p with
  | nil => exact .refl ..
  | cons s rest ih =>
    have hstep := step_kept env p s hd
    have hmem : ∀ k ∈ s.path.toList, k ∈ (s :: rest).filterMap (·.path) := fun k hk =>
      List.mem_filterMap.2 ⟨s, List.mem_cons_self .., Option.mem_toList.1 hk⟩
    rw [Rollback.run]
    cases hres : r.step env p s with
    | mk res q =>
      rw [hres] at hstep
      cases res with
      | error e => exact hstep.mono hmem
      | ok u =>
        refine (hstep.trans (ih q (hstep.isDir hd))).mono fun k hk => ?_
        rcases List.mem_append.1 hk with hk | hk
        · exact hmem k hk
        · obtain ⟨s', hs', hp⟩ := List.mem_filterMap.1 hk
          exact List.mem_filterMap.2 ⟨s', List.mem_cons_of_mem s hs', hp⟩

/-! ## Well-formed trees -/

theorem restore_wellFormed (hcut : r.root.IsCut) (hwf : t.WellFormed) (key : String) :
    (r.restore checksum t key).2.WellFormed := by
  have hjoin := hcut.join key
  have hmade := hwf.createDirs hjoin.parent
  rw [Rollback.restore]
  split
  · exact hwf
  · split
    · exact hwf
    · simp only
      cases hc : t.createDirs (parent (r.root.join key)) with
      | mk res made =>
        rw [hc] at hmade
        cases res with
        | error fault => exact hmade
        | ok u =>
          simp only
          split
          · exact hmade
          · rename_i hw
            exact hmade.write hjoin hw

theorem delete_wellFormed (hwf : t.WellFormed) {key : String} (h : r.delete t key = .ok x) : x.WellFormed := by
  rw [Rollback.delete] at h
  split at h
  · simp at h
  · split at h
    · rename_i hrem
      obtain rfl := Except.ok.inj h
      exact hwf.removeFile hrem
    · obtain rfl := Except.ok.inj h
      exact hwf
    · simp at h

theorem run_wellFormed (hcut : r.root.IsCut) (env : Surroundings) (steps : List RollbackStep) (p : Progress)
    (hwf : p.world.files.WellFormed) : (r.run env steps p).2.world.files.WellFormed := by
  induction steps generalizing p with
  | nil => exact hwf
  | cons s rest ih =>
    have hstep : (r.step env p s).2.world.files.WellFormed := by
      rcases step_files (r := r) env p s with ⟨key, -, hfiles⟩ | ⟨key, -, hdel⟩ | hfiles
      · exact hfiles ▸ restore_wellFormed hcut hwf key
      · exact delete_wellFormed hwf hdel
      · exact hfiles ▸ hwf
    rw [Rollback.run]
    cases hres : r.step env p s with
    | mk res q =>
      rw [hres] at hstep
      cases res with
      | error e => exact hstep
      | ok u => exact ih q hstep

/-! ## The log -/

theorem shapeAt?_writeLog (hs : '/' ∉ r.emergency.id.toList) (hgo : GoesDown r.emergency.id)
    (log : TransactionLog) {q : List String} (hq : q ≠ r.store.directory.settled ++ [r.emergency.id, logName]) :
    (r.writeLog t log).shapeAt? q = t.shapeAt? q := by
  have hset : settled ((r.store.snapshotDir r.emergency.id).join logName) =
      r.store.directory.settled ++ [r.emergency.id, logName] := by
    rw [snapshotDir_eq hs, join_name (by decide), List.append_assoc, settled_append_names]
    · rfl
    · intro n hn
      rcases List.mem_cons.1 hn with rfl | hn
      · exact hgo
      · rw [List.mem_singleton.1 hn]
        exact ⟨by decide, by decide⟩
  rw [Rollback.writeLog]
  split
  · rfl
  · rename_i hw
    rw [shapeAt?_write hw, if_neg (by rw [hset]; exact hq)]

theorem shapeAt?_writeLog_dir (log : TransactionLog) {q : List String} (hq : t.shapeAt? q = some .dir) :
    (r.writeLog t log).shapeAt? q = some .dir := by
  rw [Rollback.writeLog]
  split
  · exact hq
  · rename_i hw
    rw [shapeAt?_write hw, if_neg (by rintro rfl; exact (write_eq_ok hw).2.2.1 hq), hq]

theorem writeLog_wellFormed (hcut : r.store.directory.IsCut) (hwf : t.WellFormed) (log : TransactionLog) :
    (r.writeLog t log).WellFormed := by
  rw [Rollback.writeLog]
  split
  · exact hwf
  · rename_i hw
    exact hwf.write ((hcut.join r.emergency.id).join logName) hw

/-! ## Files at risk -/

/-- A file that a step may change is one that the plan's list of files at risk names. -/
theorem LeadsTo.isFile {q : List String} {c : ByteArray} (h : LeadsTo root key q) (hwf : t.WellFormed)
    (hd : t.isDir root = true) (hf : t.shapeAt? q = some (.file c)) : t.isFile (root.join key) = true := by
  obtain ⟨hlead, -⟩ := isDir_eq_true.1 hd
  have hq := h.place_eq
  subst hq
  have hset := Key.settled_join_of_safe h.safe root
  refine isFile_eq_true.2 ⟨⟨h.path, ?_⟩, c, by rw [hset, hf]⟩
  obtain ⟨first, rest, hs, -, hup⟩ := Key.isSafeRelative_iff.1 h.safe
  rw [Key.join_of_safe h.safe, Passable.append]
  refine ⟨hlead.2, ?_⟩
  have hne : t.shapeAt? (root.settled ++ Key.steps key) ≠ none := by simp [hf]
  refine passable_of_components (fun p hp => hup p (hs ▸ hp)) h.solid ?_ hne
  exact fun n hn => (isName_of_shapeAt? hwf hne n (List.mem_append_right _ hn)).short

theorem mem_atRisk {plan : RollbackPlan} {q : List String} {c : ByteArray}
    (hk : key ∈ plan.restores ++ plan.deletes) (h : LeadsTo root key q) (hwf : t.WellFormed)
    (hd : t.isDir root = true) (hf : t.shapeAt? q = some (.file c)) : key ∈ plan.atRisk t root := by
  rw [RollbackPlan.atRisk, mem_sortedSet, List.mem_filter, Bool.and_eq_true]
  exact ⟨hk, h.safe, h.isFile hwf hd hf⟩

theorem mem_paths_ofDiff {snapshot : Snapshot} {d : SnapshotDiff} :
    key ∈ (RollbackPlan.ofDiff snapshot d).steps.filterMap (·.path) ↔
      key ∈ (RollbackPlan.ofDiff snapshot d).restores ++ (RollbackPlan.ofDiff snapshot d).deletes := by
  simp only [RollbackPlan.ofDiff, List.filterMap_append, List.filterMap_map, Function.comp_def, List.filterMap_some,
    List.mem_append, List.mem_mergeSort, List.filterMap_cons, List.filterMap_nil, List.not_mem_nil, false_or, or_false]
  constructor
  · rintro ((h | h) | h)
    · exact .inl (.inl h)
    · exact .inr h
    · exact .inl (.inr h)
  · rintro ((h | h) | h)
    · exact .inl (.inl h)
    · exact .inr h
    · exact .inl (.inr h)

end SnapshotStore.Rollback

end TreeRepair
