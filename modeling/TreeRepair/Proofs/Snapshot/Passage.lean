import TreeRepair.Proofs.Snapshot.Completion
import TreeRepair.Proofs.Snapshot.Restoration

/-! Which rollbacks go through. The steps restore changed files first, then delete, then make files again, so a
deleted file may become a directory; a directory never becomes a file again, and a file that is not deleted
stays in the way. -/

set_option autoImplicit false

namespace TreeRepair

open Location Listing Text

namespace SnapshotStore

variable {s : SnapshotStore} {env : Surroundings} {w w' : World} {root : Location} {S : Snapshot}
  {t₀ t x : Listing}

/-- Nothing of a tree is in the way of the files that a snapshot of another tree holds: none of them is now a
directory, and each file on the way to one of them is to be deleted. -/
structure Unobstructed (s : SnapshotStore) (root : Location) (S : Snapshot) (t₀ t : Listing) : Prop where
  noDir : ∀ names c, s.filter.Walks t₀ root names c → Key.ofNames names ∈ S.files →
    t.shapeAt? (root.settled ++ names) ≠ some .dir
  way : ∀ names c, s.filter.Walks t₀ root names c → Key.ofNames names ∈ S.files → ∀ front c', front <+: names →
    front ≠ names → t.shapeAt? (root.settled ++ front) = some (.file c') → s.IsUnknown root S t (root.settled ++ front)

namespace Rollback

/-! ## Steps that go through -/

section Steps

variable {r : Rollback} {p : Progress} {key : String} {names : List String}

theorem restore_goes {place : Location} {c : ByteArray} (hstored : r.store.storedFile r.target key = .ok place)
    (hread : t.read place = .ok c) (hjoin : r.root.join key = r.root ++ names) (hclear : t.Clear r.root names)
    (checksum : HashFunction) : ∃ sum y, r.restore checksum t key = (.ok sum, y) := by
  obtain ⟨made, y, hcd, hwr⟩ := hclear.write c
  rw [← hjoin] at hcd hwr
  refine ⟨checksum c, y, ?_⟩
  rw [Rollback.restore, hstored]
  simp only [hread, hcd, hwr]

/-- A path that leads to a file or nowhere can be deleted. -/
theorem delete_goes (hsafe : isSafeRelative key = true) (hjoin : r.root.join key = r.root ++ names)
    (hgo : ∀ n ∈ names, GoesDown n) (hshort : ∀ n ∈ names, n.utf8ByteSize ≤ nameLimit)
    (hpath : checkPath (r.root ++ names) = .ok ()) (hd : t.isDir r.root = true)
    (hway : ∀ front c, front <+: names → front ≠ names → t.shapeAt? (r.root.settled ++ front) ≠ some (.file c))
    (hend : t.shapeAt? (r.root.settled ++ names) ≠ some .dir) : ∃ y, r.delete t key = .ok y := by
  have hset : settled (r.root ++ names) = r.root.settled ++ names := settled_append_names hgo r.root
  rw [Rollback.delete, if_neg (by simp [hsafe]), hjoin]
  cases hshape : t.shapeAt? (r.root.settled ++ names) with
  | none =>
    have hmakeable : t.Makeable r.root names := by
      refine ⟨hd, hgo, hshort, hpath, fun front c hfront hfile => ?_⟩
      by_cases heq : front = names
      · rw [heq, hshape] at hfile
        simp at hfile
      · exact hway front c hfront heq hfile
    have hremove : t.removeFile (r.root ++ names) = .error .noEntry := by
      rw [removeFile, hmakeable.entryAt hshape]
    rw [hremove]
    exact ⟨t, rfl⟩
  | some shape =>
    cases shape with
    | dir => exact absurd hshape hend
    | file c =>
      have hlead : t.Leads (r.root ++ names) := by
        refine ⟨hpath, Passable.append.2 ⟨(isDir_eq_true.1 hd).1.2, passable_names hgo hshort ?_⟩⟩
        change t.shapeAt? (r.root.settled ++ names) ≠ none
        simp [hshape]
      rw [removeFile_of_leads hlead (by rw [hset, hshape])]
      exact ⟨_, rfl⟩

/-- A run goes through if each of its steps does wherever some invariant holds, and keeps the invariant. -/
theorem run_goes {P : Listing → Prop} (env : Surroundings) (steps : List RollbackStep)
    (hstep : ∀ step ∈ steps, ∀ p : Progress, P p.world.files →
      ∃ p', r.step env p step = (.ok (), p') ∧ P p'.world.files) (hp : P p.world.files) :
    ∃ p', r.run env steps p = (.ok (), p') ∧ P p'.world.files := by
  induction steps generalizing p with
  | nil => exact ⟨p, rfl, hp⟩
  | cons step rest ih =>
    obtain ⟨q, hq, hpq⟩ := hstep step (List.mem_cons_self ..) p hp
    obtain ⟨p', hrun, hp'⟩ := ih (fun st hst => hstep st (List.mem_cons_of_mem step hst)) hpq
    refine ⟨p', ?_, hp'⟩
    rw [Rollback.run, hq]
    exact hrun

end Steps

section Way

variable {r : Rollback} {id : String} {saved : World}
  (h : r.store.Later env.checksum r.root r.target t₀ t) (hroom : r.store.Room t id)
  (hgrown : r.store.Grown id t saved.files)

include h hroom hgrown

/-! ## The tree under way -/

theorem shapeAt?_saved {names : List String} (he : r.store.filter.Enters r.root [] names) :
    saved.files.shapeAt? (r.root.settled ++ names) = t.shapeAt? (r.root.settled ++ names) := by
  refine hgrown.shapeAt?_eq hroom ?_
  rintro ⟨ms, hms⟩
  rw [List.append_assoc, List.singleton_append] at hms
  exact h.hidden names id ms he hms

theorem dir_of_kept {keys : List String} (hkeys : ∀ k ∈ keys, r.store.Meets t r.root k)
    (hk : Kept r.root keys saved.files x) {names : List String} (he : r.store.filter.Enters r.root [] names)
    (hd : x.shapeAt? (r.root.settled ++ names) = some .dir) : t.shapeAt? (r.root.settled ++ names) = some .dir := by
  rcases hk.newDirs _ hd with hsaved | ⟨k, hmem, ns, -, hplace, hpre⟩
  · rwa [shapeAt?_saved h hroom hgrown he] at hsaved
  · obtain ⟨names', c, hw, rfl⟩ := hkeys k hmem
    obtain rfl := List.append_cancel_left hplace
    rw [(h.plain.spells hw).steps] at hpre
    obtain ⟨rest, hne, rfl⟩ := exists_rest_of_prefix hw.ne_nil hpre
    have hfile := hw.isFile
    rw [← List.append_assoc] at hfile
    exact shapeAt?_of_append (by rw [hfile]; simp) hne

omit h hroom hgrown in
theorem noFile_on_way {u : Listing} (hdirs : ∀ q, u.shapeAt? q = some .dir → x.shapeAt? q = some .dir) {base names front : List String}
    {c c' : ByteArray} (hf : u.shapeAt? (base ++ names) = some (.file c)) (hpre : front <+: names) (hne : front ≠ names) :
    x.shapeAt? (base ++ front) ≠ some (.file c') := by
  obtain ⟨rest, rfl⟩ := hpre
  have hrest : rest ≠ [] := by
    rintro rfl
    simp at hne
  rw [← List.append_assoc] at hf
  rw [hdirs _ (shapeAt?_of_append (by rw [hf]; simp) hrest)]
  simp

/-! ## Restoring and deleting -/

/-- Changed files can be restored and unknown ones deleted, in any order. -/
theorem first_goes (hpaths : ∀ names c, r.store.filter.Walks t r.root names c → checkPath (r.root ++ names) = .ok ())
    {keys : List String} (hkeys : ∀ k ∈ keys, r.store.Meets t r.root k)
    (hread : ∀ k ∈ (r.store.diff env.checksum t r.target r.root none).modified, ∃ place c,
      r.store.storedFile r.target k = .ok place ∧ ∀ y, Kept r.root keys saved.files y → y.read place = .ok c)
    {step : RollbackStep} {k : String} (hpath : step.path = some k) (hmem : k ∈ keys)
    (haction : step.action = .restore ∧ k ∈ (r.store.diff env.checksum t r.target r.root none).modified ∨
      step.action = .delete)
    {p : Progress} (hk : Kept r.root keys saved.files p.world.files) :
    ∃ p', r.step env p step = (.ok (), p') ∧ Kept r.root keys saved.files p'.world.files := by
  obtain ⟨names, c, hw, rfl⟩ := hkeys k hmem
  have hn := h.plain.spells hw
  have hdirs : ∀ q, t.shapeAt? q = some .dir → p.world.files.shapeAt? q = some .dir :=
    fun q hq => hk.dirs q (hgrown.dir_mono hroom hq)
  have hd : p.world.files.isDir r.root = true := hk.isDir (hgrown.isDir hroom h.rootDir)
  have hway : ∀ front c', front <+: names → front ≠ names →
      p.world.files.shapeAt? (r.root.settled ++ front) ≠ some (.file c') :=
    fun front c' hpre hne => noFile_on_way hdirs hw.isFile hpre hne
  have hend : p.world.files.shapeAt? (r.root.settled ++ names) ≠ some .dir := by
    intro hdir
    have ht := dir_of_kept h hroom hgrown hkeys hk hn.enters hdir
    rw [hw.isFile] at ht
    simp at ht
  have hjoin := Key.join_ofNames hn.ne_nil hn.isName hn.plain r.root
  have hkept := step_kept (r := r) env p step hd
  rw [hpath] at hkept
  have hnext : ∀ p', r.step env p step = (.ok (), p') → Kept r.root keys saved.files p'.world.files := by
    intro p' hp'
    rw [hp'] at hkept
    refine (hk.trans hkept).mono fun k hk => ?_
    rcases List.mem_append.1 hk with hk | hk
    · exact hk
    · rw [List.mem_singleton.1 hk]
      exact hmem
  have hgoes : ∃ p', r.step env p step = (.ok (), p') := by
    obtain ⟨action, path, critical⟩ := step
    simp only at hpath haction
    subst hpath
    rcases haction with ⟨rfl, hmod⟩ | rfl
    · obtain ⟨place, c', hstored, hcopy⟩ := hread _ hmod
      have hclear : p.world.files.Clear r.root names :=
        ⟨hd, hn.ne_nil, hn.goesDown, fun n hm => (hn.isName n hm).short, hpaths names c hw, hway, hend⟩
      obtain ⟨sum, y, hrestore⟩ := restore_goes hstored (hcopy _ hk) hjoin hclear env.checksum
      rw [Rollback.step]
      simp only [hrestore]
      exact ⟨_, rfl⟩
    · obtain ⟨y, hdelete⟩ := delete_goes (Key.isSafeRelative_ofNames hn.ne_nil hn.isName hn.plain) hjoin hn.goesDown
        (fun n hm => (hn.isName n hm).short) (hpaths names c hw) hd hway hend
      rw [Rollback.step]
      simp only [hdelete]
      exact ⟨_, rfl⟩
  obtain ⟨p', hp'⟩ := hgoes
  exact ⟨p', hp', hnext p' hp'⟩

omit hroom hgrown in
/-- What a step's key spells is a file that the snapshot holds, or one that is to be deleted. -/
theorem mem_changes_source {k : String}
    (hk : k ∈ (RollbackPlan.changes (r.store.diff env.checksum t r.target r.root none)).filterMap (·.path)) :
    (∃ c, r.store.filter.Walks t₀ r.root (Key.steps k) c) ∨
      ∃ c, r.store.filter.Walks t r.root (Key.steps k) c ∧
        r.store.IsUnknown r.root r.target t (r.root.settled ++ Key.steps k) := by
  obtain ⟨step, hstep, hpath⟩ := List.mem_filterMap.1 hk
  rcases h.mem_changes hstep hpath with ⟨hfiles, -⟩ | ⟨⟨ns, c, hw, rfl⟩, h1, h2, -⟩
  · obtain ⟨ns, c, hw, -, rfl, -⟩ := h.mem_files.1 hfiles
    rw [(h.plain₀.spells hw).steps]
    exact .inl ⟨c, hw⟩
  · rw [(h.plain.spells hw).steps]
    exact .inr ⟨c, hw, ns, c, hw, h1, h2, rfl⟩

section Again

variable (hun : r.store.Unobstructed r.root r.target t₀ t)
  (hk : Kept r.root ((RollbackPlan.changes (r.store.diff env.checksum t r.target r.root none)).filterMap (·.path))
    saved.files x)
  {names : List String} {c : ByteArray} (hw : r.store.filter.Walks t₀ r.root names c)
  (hfiles : Key.ofNames names ∈ r.target.files)

include hun hk hw hfiles

theorem way_clear (hgone : ∀ q c, r.store.IsUnknown r.root r.target t q → x.shapeAt? q ≠ some (.file c))
    (front : List String) (c' : ByteArray) (hpre : front <+: names) (hne : front ≠ names) :
    x.shapeAt? (r.root.settled ++ front) ≠ some (.file c') := by
  intro hfile
  rcases hk.newFiles _ c' hfile with hsaved | ⟨k, hk, hl⟩
  · rw [shapeAt?_saved h hroom hgrown ((h.plain₀.spells hw).enters.of_prefix hpre)] at hsaved
    exact hgone _ c' (hun.way names c hw hfiles front c' hpre hne hsaved) hfile
  · have hfront : front = Key.steps k := List.append_cancel_left hl.place_eq
    subst hfront
    rcases mem_changes_source h hk with ⟨c'', hw'⟩ | ⟨-, -, hunknown⟩
    · exact noFile_on_way (fun _ hq => hq) hw.isFile hpre hne hw'.isFile
    · exact hgone _ c' hunknown hfile

theorem end_clear : x.shapeAt? (r.root.settled ++ names) ≠ some .dir := by
  intro hdir
  have hnot := hun.noDir names c hw hfiles
  rcases hk.newDirs _ hdir with hsaved | ⟨k, hk, ns, -, hplace, hpre⟩
  · rw [shapeAt?_saved h hroom hgrown (h.plain₀.spells hw).enters] at hsaved
    exact hnot hsaved
  · obtain rfl := List.append_cancel_left hplace
    rcases mem_changes_source h hk with ⟨c'', hw'⟩ | ⟨c'', hw', -⟩
    · obtain ⟨rest, hne, hrest⟩ := exists_rest_of_prefix hw'.ne_nil hpre
      refine noFile_on_way (fun _ hq => hq) hw'.isFile ⟨rest, hrest⟩ (fun heq => hne ?_) hw.isFile
      rw [← heq] at hrest
      simpa using hrest
    · obtain ⟨rest, hne, hrest⟩ := exists_rest_of_prefix hw'.ne_nil hpre
      have hfile := hw'.isFile
      rw [← hrest, ← List.append_assoc] at hfile
      exact hnot (shapeAt?_of_append (by rw [hfile]; simp) hne)

end Again

/-- Files that are gone can be made again behind the deletions, if nothing is in the way of them. -/
theorem again_goes (hun : r.store.Unobstructed r.root r.target t₀ t) {k : String}
    (hmem : k ∈ (r.store.diff env.checksum t r.target r.root none).deleted) {p : Progress}
    (hk : Kept r.root ((RollbackPlan.changes (r.store.diff env.checksum t r.target r.root none)).filterMap (·.path))
      saved.files p.world.files)
    (hgone : ∀ q c, r.store.IsUnknown r.root r.target t q → p.world.files.shapeAt? q ≠ some (.file c)) :
    ∃ p', r.step env p ⟨.restoreDeleted, some k, true⟩ = (.ok (), p') ∧
      Kept r.root ((RollbackPlan.changes (r.store.diff env.checksum t r.target r.root none)).filterMap (·.path))
        saved.files p'.world.files ∧
      ∀ q c, r.store.IsUnknown r.root r.target t q → p'.world.files.shapeAt? q ≠ some (.file c) := by
  have hfiles := ((mem_deleted h.plain.wellFormed).1 hmem).1
  obtain ⟨names, c, hw, hread, rfl, -⟩ := h.mem_files.1 hfiles
  have hn := h.plain₀.spells hw
  have hd : p.world.files.isDir r.root = true := hk.isDir (hgrown.isDir hroom h.rootDir)
  obtain ⟨place, hstored, hcopy⟩ := read_copy h hroom hgrown hw hfiles
  have hclear : p.world.files.Clear r.root names :=
    ⟨hd, hn.ne_nil, hn.goesDown, fun n hm => (hn.isName n hm).short, (read_eq_ok.1 hread).1.1,
      way_clear h hroom hgrown hun hk hw hfiles hgone, end_clear h hroom hgrown hun hk hw hfiles⟩
  obtain ⟨sum, y, hrestore⟩ := restore_goes hstored (hcopy _ hk)
    (Key.join_ofNames hn.ne_nil hn.isName hn.plain r.root) hclear env.checksum
  have hkept : Kept r.root [Key.ofNames names] p.world.files y := by
    have hstep : Kept r.root [Key.ofNames names] p.world.files
        (r.restore env.checksum p.world.files (Key.ofNames names)).2 := restore_kept hd _
    rwa [hrestore] at hstep
  refine ⟨p.log env y .restoreDeleted (Key.ofNames names) (some sum), ?_, ?_, fun q c' hq hfile => ?_⟩
  · rw [Rollback.step]
    simp only [hrestore]
  · refine (hk.trans hkept).mono fun k hk => ?_
    rcases List.mem_append.1 hk with hk | hk
    · exact hk
    · rw [List.mem_singleton.1 hk]
      exact List.mem_filterMap.2
        ⟨⟨.restoreDeleted, some (Key.ofNames names), true⟩, by simp [RollbackPlan.changes, hmem], rfl⟩
  · rcases hkept.newFiles q c' hfile with hbefore | ⟨k, hk, hl⟩
    · exact hgone q c' hq hbefore
    · obtain rfl := List.mem_singleton.1 hk
      have hplace := hl.place_eq
      obtain ⟨ns, c'', hw', hnot, -, rfl⟩ := hq
      rw [hn.steps] at hplace
      rw [List.append_cancel_left hplace] at hnot
      exact hnot hfiles

/-- All steps between the emergency snapshot and the verification go through if nothing is in the way. -/
theorem changes_goes (hwf : saved.files.WellFormed) (hun : r.store.Unobstructed r.root r.target t₀ t)
    (hpaths : ∀ names c, r.store.filter.Walks t r.root names c → checkPath (r.root ++ names) = .ok ()) :
    ∃ p, r.run env (RollbackPlan.changes (r.store.diff env.checksum t r.target r.root none)) ⟨saved, [], true⟩ =
      (.ok (), p) := by
  set d := r.store.diff env.checksum t r.target r.root none with hdiff
  have hmet : ∀ k ∈ d.modified ++ d.added, r.store.Meets t r.root k := by
    intro k hk
    rcases List.mem_append.1 hk with hk | hk
    · obtain ⟨names, c, hw, rfl, -⟩ := (mem_modified h.plain.distinct).1 hk
      exact ⟨names, c, hw, rfl⟩
    · exact ((mem_added h.plain.wellFormed).1 hk).1
  have hsub : ∀ k ∈ d.modified ++ d.added, k ∈ (RollbackPlan.changes d).filterMap (·.path) := by
    intro k hk
    rcases List.mem_append.1 hk with hk | hk
    · exact List.mem_filterMap.2 ⟨⟨.restore, some k, true⟩, by simp [RollbackPlan.changes, hk], rfl⟩
    · exact List.mem_filterMap.2 ⟨⟨.delete, some k, false⟩, by simp [RollbackPlan.changes, hk], rfl⟩
  have hread : ∀ k ∈ d.modified, ∃ place c, r.store.storedFile r.target k = .ok place ∧
      ∀ y, Kept r.root (d.modified ++ d.added) saved.files y → y.read place = .ok c := by
    intro k hk
    obtain ⟨-, -, -, -, hfiles, -⟩ := (mem_modified h.plain.distinct).1 hk
    obtain ⟨names, c, hw, -, rfl, -⟩ := h.mem_files.1 hfiles
    obtain ⟨place, hstored, hcopy⟩ := read_copy h hroom hgrown hw hfiles
    exact ⟨place, c, hstored, fun y hy => hcopy y (hy.mono hsub)⟩
  obtain ⟨q, hfirst, hkq⟩ := run_goes (r := r) (p := ⟨saved, [], true⟩)
    (P := Kept r.root (d.modified ++ d.added) saved.files) env
    ([⟨.emergencyBackup, none, true⟩] ++ d.modified.map (fun key => ⟨.restore, some key, true⟩)
      ++ d.added.map (fun key => ⟨.delete, some key, false⟩)) (by
    intro step hstep p hp
    simp only [List.mem_append, List.mem_singleton, List.mem_map] at hstep
    rcases hstep with (rfl | ⟨k, hk, rfl⟩) | ⟨k, hk, rfl⟩
    · exact ⟨p, rfl, hp⟩
    · exact first_goes h hroom hgrown hpaths hmet hread rfl (List.mem_append_left _ hk) (.inl ⟨rfl, hk⟩) hp
    · exact first_goes h hroom hgrown hpaths hmet hread rfl (List.mem_append_right _ hk) (.inr rfl) hp) (.refl ..)
  have hgone : ∀ q' c, r.store.IsUnknown r.root r.target t q' → q.world.files.shapeAt? q' ≠ some (.file c) := by
    intro q' c hq'
    refine unknown_gone h hroom hgrown (fun step hstep => ?_) (fun k hk => ?_) hwf hfirst hq' c
    · exact List.mem_append_left _ hstep
    · exact List.mem_append_right _ (List.mem_map.2 ⟨k, hk, rfl⟩)
  obtain ⟨p, hsecond, -⟩ := run_goes (r := r) (p := q)
    (P := fun y => Kept r.root ((RollbackPlan.changes d).filterMap (·.path)) saved.files y ∧
      ∀ q' c, r.store.IsUnknown r.root r.target t q' → y.shapeAt? q' ≠ some (.file c)) env
    (d.deleted.map (fun key => ⟨.restoreDeleted, some key, true⟩)) (by
    intro step hstep p hp
    obtain ⟨k, hk, rfl⟩ := List.mem_map.1 hstep
    exact again_goes h hroom hgrown hun hk hp.1 hp.2) ⟨hkq.mono hsub, hgone⟩
  refine ⟨p, ?_⟩
  rw [RollbackPlan.changes, run_append, hfirst]
  exact hsecond

end Way

theorem execute_goes {r : Rollback} {d : SnapshotDiff} {p : Progress} (hplan : r.plan = .ofDiff S d)
    (hrun : r.run env (RollbackPlan.changes d) ⟨w, [], true⟩ = (.ok (), p)) :
    ∃ report w', r.execute env w = (.ok report, w') := by
  have hsteps : r.plan.steps = RollbackPlan.changes d ++ [⟨.verify, none, false⟩] := by rw [hplan]; rfl
  rw [Rollback.execute, hsteps, run_append, hrun]
  exact ⟨_, _, rfl⟩

end Rollback

/-! ## The emergency snapshot -/

/-- A timestamp is left for another snapshot, and all paths of a project and of its copies are short enough. -/
structure Roomy (s : SnapshotStore) (env : Surroundings) (w : World) (root : Location) : Prop where
  clock : w.now env < timestampBound
  stamp : s.nextTimestamp? w.files ≠ none
  bytes : w.files.totalBytes < timestampBound
  paths : ∀ names c, s.filter.Walks w.files root names c → checkPath (root ++ names) = .ok ()
  manifest : ∀ ts < timestampBound, checkPath (s.directory ++ [idOf ts (w.freshId env)] ++ [manifestName]) = .ok ()
  copies : ∀ ts < timestampBound, ∀ names c, s.filter.Walks w.files root names c →
    checkPath (s.directory ++ [idOf ts (w.freshId env)] ++ [filesName] ++ names) = .ok ()

/-- Where the paths of the project and of the store are short, there is room for a snapshot. -/
theorem roomy_of_short (hid : s.Unused env w) (hclock : w.now env < timestampBound)
    (hstamp : s.nextTimestamp? w.files ≠ none) (hbytes : w.files.totalBytes < timestampBound)
    (hroot : hasNul root = false ∧ byteSize root ≤ 800) (hstore : hasNul s.directory = false ∧ byteSize s.directory ≤ 800)
    (hpaths : ∀ names c, s.filter.Walks w.files root names c → hasNul names = false ∧ byteSize names ≤ 3000) :
    s.Roomy env w root := by
  obtain ⟨hroot, hrootSize⟩ := hroot
  obtain ⟨hstore, hstoreSize⟩ := hstore
  have hnul : ∀ l m, hasNul l = false → hasNul m = false → hasNul (l ++ m) = false := by
    intro l m hl hm
    rw [hasNul, List.any_append, Bool.or_eq_false_iff]
    exact ⟨hl, hm⟩
  have hmanifest : byteSize [manifestName] = 14 := by decide
  have hfiles : byteSize [filesName] = 6 := by decide
  have hlimit : pathLimit = 4095 := rfl
  refine ⟨hclock, hstamp, hbytes, fun names c hw => ?_, fun ts hts => ?_, fun ts hts names c hw => ?_⟩
  · obtain ⟨hnames, hsize⟩ := hpaths names c hw
    refine checkPath_eq_ok.2 ⟨hnul _ _ hroot hnames, ?_⟩
    rw [byteSize_append]
    omega
  · refine checkPath_idOf hts hid.hex (hnul _ _ hstore (by decide)) ?_
    rw [byteSize_append]
    omega
  · obtain ⟨hnames, hsize⟩ := hpaths names c hw
    rw [List.append_assoc]
    refine checkPath_idOf hts hid.hex (hnul _ _ hstore (hnul _ _ (by decide) hnames)) ?_
    rw [byteSize_append, byteSize_append]
    omega

theorem Later.mem_atRisk {checksum : HashFunction} (h : s.Later checksum root S t₀ t) {k : String} :
    k ∈ (RollbackPlan.ofDiff S (s.diff checksum t S root none)).atRisk t root ↔
      k ∈ (RollbackPlan.changes (s.diff checksum t S root none)).filterMap (·.path) ∧
        ∃ names c, s.filter.Walks t root names c ∧ t.read (root ++ names) = .ok c ∧ k = Key.ofNames names := by
  have hsteps : (RollbackPlan.ofDiff S (s.diff checksum t S root none)).steps.filterMap (·.path) =
      (RollbackPlan.changes (s.diff checksum t S root none)).filterMap (·.path) := by
    have hverify : (RollbackPlan.ofDiff S (s.diff checksum t S root none)).steps =
      RollbackPlan.changes (s.diff checksum t S root none) ++ [⟨.verify, none, false⟩] := rfl
    rw [hverify, List.filterMap_append, List.filterMap_cons_none rfl, List.filterMap_nil, List.append_nil]
  rw [RollbackPlan.atRisk, mem_sortedSet, List.mem_filter, Bool.and_eq_true, ← Rollback.mem_paths_ofDiff, hsteps]
  constructor
  · rintro ⟨hk, -, hfile⟩
    refine ⟨hk, ?_⟩
    obtain ⟨step, hstep, hpath⟩ := List.mem_filterMap.1 hk
    have hfound : ∀ names, s.Spells root k names → ∃ c, t.read (root ++ names) = .ok c ∧
        t.shapeAt? (root.settled ++ names) = some (.file c) := by
      intro names hn
      rw [hn.key_eq, Key.join_ofNames hn.ne_nil hn.isName hn.plain] at hfile
      obtain ⟨hlead, c, hshape⟩ := isFile_eq_true.1 hfile
      exact ⟨c, read_eq_ok.2 ⟨hlead, hshape⟩, by rw [← hshape, settled_append_names hn.goesDown]⟩
    rcases h.mem_changes hstep hpath with ⟨hfiles, -⟩ | ⟨⟨names, c, hw, rfl⟩, -⟩
    · obtain ⟨names, c₀, hw, -, rfl, -⟩ := h.mem_files.1 hfiles
      obtain ⟨c, hread, hshape⟩ := hfound names (h.plain₀.spells hw)
      exact ⟨names, c, ⟨h.rootDir, hw.ne_nil, hshape, hw.enters, hw.kept⟩, hread, rfl⟩
    · obtain ⟨c', hread, hshape⟩ := hfound names (h.plain.spells hw)
      exact ⟨names, c', ⟨h.rootDir, hw.ne_nil, hshape, hw.enters, hw.kept⟩, hread, rfl⟩
  · rintro ⟨hk, names, c, hw, hread, rfl⟩
    have hn := h.plain.spells hw
    refine ⟨hk, Key.isSafeRelative_ofNames hn.ne_nil hn.isName hn.plain, ?_⟩
    rw [Key.join_ofNames hn.ne_nil hn.isName hn.plain]
    obtain ⟨hlead, hshape⟩ := read_eq_ok.1 hread
    exact isFile_eq_true.2 ⟨hlead, c, hshape⟩

/-- The emergency snapshot is made, and it holds all files at risk. -/
theorem emergency_goes (hready : s.Ready env w root) (hroomy : s.Roomy env w root)
    (h : s.Later env.checksum root S t₀ w.files) (description : String) :
    ∃ E saved, s.capture env w root "emergency" description
        ((RollbackPlan.ofDiff S (s.diff env.checksum w.files S root none)).atRisk w.files root) = (.ok E, saved) ∧
      ∀ k ∈ (RollbackPlan.ofDiff S (s.diff env.checksum w.files S root none)).atRisk w.files root,
        E.checksums.contains k = true := by
  obtain ⟨floor, hfloor⟩ := Option.ne_none_iff_exists'.1 hroomy.stamp
  have hstamp : max (w.now env) floor < timestampBound := Nat.max_lt.2 ⟨hroomy.clock, nextTimestamp?_lt hfloor⟩
  have hfits : s.Fits w.files root (idOf (max (w.now env) floor) (w.freshId env)) :=
    ⟨idOf_short hstamp _, hroomy.manifest _ hstamp, hroomy.copies _ hstamp⟩
  have hread : ∀ names c, s.filter.Walks w.files root names c →
      Key.ofNames names ∈ (RollbackPlan.ofDiff S (s.diff env.checksum w.files S root none)).atRisk w.files root →
      ∃ c', w.files.read (root ++ names) = .ok c' := by
    intro names c hw hmem
    obtain ⟨-, names', c', hw', hread, heq⟩ := h.mem_atRisk.1 hmem
    obtain ⟨rfl, -⟩ := h.plain.inj hw hw' heq
    exact ⟨c', hread⟩
  obtain ⟨E, saved, hc⟩ := capture_goes hready h.plain hfloor hfits hread "emergency" description
  refine ⟨E, saved, hc, fun k hk => ?_⟩
  obtain ⟨-, -, -, -, hcap⟩ := capture_ok hready.poised hc
  obtain ⟨-, names, c, hw, hread, rfl⟩ := h.mem_atRisk.1 hk
  have hmem := ((hcap h.plain).mem_checksums _ _).2 ⟨names, c, ⟨hw, .inr hk⟩, hread, rfl, rfl⟩
  exact SortedMap.contains_iff.2 (List.mem_map.2 ⟨_, hmem, rfl⟩)

/-! ## Which rollbacks go through -/

/-- How a rollback to the snapshot of one tree ends in another one. -/
structure Decided (s : SnapshotStore) (env : Surroundings) (w : World) (root : Location) (S : Snapshot)
    (t₀ : Listing) : Prop where
  through : s.Unobstructed root S t₀ w.files → ∃ report w',
    s.executeRollback env w (.ofDiff S (s.diff env.checksum w.files S root none)) root false = (.ok report, w') ∧
      s.Restored env.checksum root S t₀ w.files w'.files report
  stopped : ¬ s.Unobstructed root S t₀ w.files → ∃ id reason w',
    s.executeRollback env w (.ofDiff S (s.diff env.checksum w.files S root none)) root false =
      (.error (.rollbackFailed id reason), w')

/-- What a rollback that has gone through says of the tree that it began with. -/
theorem CarriedOut.unobstructed {E : Snapshot} {saved : World} {p : Rollback.Progress} {report : RollbackReport}
    (h : s.Later env.checksum root S t₀ w.files) (hdone : s.CarriedOut env w root S report x E saved p) :
    s.Unobstructed root S t₀ w.files := by
  have hroom := hdone.room
  have hgrown := hdone.captured.grown
  have hrun := hdone.run
  have hkept := Rollback.changes_kept h hroom hgrown hrun
  refine ⟨fun names c hw hk hdir => ?_, fun names c hw hk front c' hpre hne hfile => ?_⟩
  · have hafter := Rollback.captured_after h hroom hgrown hrun hw hk
    have hdir' := hkept.dirs _ (hgrown.dir_mono hroom hdir)
    exact absurd (hdir'.symm.trans hafter) (by simp)
  · by_contra hnot
    have hafter := Rollback.captured_after h hroom hgrown hrun hw hk
    have hsame := (Rollback.same_after h hroom hgrown hrun (q := root.settled ++ front)
      (fun ns c'' hw' hk' heq => ?_) (fun ns c'' hw' h1 h2 heq => hnot ⟨ns, c'', hw', h1, h2, heq⟩) c').2 ?_
    · exact Rollback.noFile_on_way (fun _ hq => hq) hafter hpre hne hsame
    · obtain rfl := List.append_cancel_left heq
      exact Rollback.noFile_on_way (fun _ hq => hq) hw.isFile hpre hne hw'.isFile
    · rw [hgrown.shapeAt?_of_ne_none hroom (by rw [hfile]; simp), hfile]

/-- A rollback goes through exactly if nothing is in the way of the files that its snapshot holds. -/
theorem decided (hready : s.Ready env w root) (hroomy : s.Roomy env w root)
    (h : s.Later env.checksum root S t₀ w.files) : s.Decided env w root S t₀ := by
  obtain ⟨E, saved, hc, hall⟩ := emergency_goes hready hroomy h s!"state before rollback to {S.id}"
  obtain ⟨-, -, -, -, hcap⟩ := capture_ok hready.poised hc
  have hcap := hcap h.plain
  have hroom := (hready.scene E.timestamp).room
  have hexec : s.executeRollback env w (.ofDiff S (s.diff env.checksum w.files S root none)) root false =
      (Rollback.of s env.checksum w.files root S E).execute env saved := by
    have hload : s.load w.files (RollbackPlan.ofDiff S (s.diff env.checksum w.files S root none)).snapshot = .ok S :=
      h.intact.load
    have hmissing : ((RollbackPlan.ofDiff S (s.diff env.checksum w.files S root none)).atRisk w.files root).filter
        (fun key => !E.checksums.contains key) = [] :=
      List.filter_eq_nil_iff.2 fun k hk => by simp [hall k hk]
    rw [executeRollback, if_neg (by simp)]
    simp only [hload, hc, hmissing]
    rfl
  refine ⟨fun hun => ?_, fun hnot => ?_⟩
  · obtain ⟨p, hrun⟩ := Rollback.changes_goes (r := Rollback.of s env.checksum w.files root S E) h hroom hcap.grown
      hcap.wellFormed hun hroomy.paths
    obtain ⟨report, w', hok⟩ := Rollback.execute_goes rfl hrun
    rw [← hexec] at hok
    exact ⟨report, w', hok, restored_of_ok hready h hok⟩
  · rcases (Rollback.execute_eq (Rollback.of s env.checksum w.files root S E) env saved).1 with
      ⟨report, hok, -⟩ | ⟨reason, herr⟩
    · rw [← hexec] at hok
      obtain ⟨_, _, _, hdone⟩ := carriedOut_of_ok hready h (Prod.ext hok rfl)
      exact absurd (hdone.unobstructed h) hnot
    · rw [← hexec] at herr
      exact ⟨_, reason, _, Prod.ext herr rfl⟩

end SnapshotStore

end TreeRepair
