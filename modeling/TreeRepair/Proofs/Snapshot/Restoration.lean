import TreeRepair.Proofs.Snapshot.Emergency
import TreeRepair.Proofs.Snapshot.Later

/-! A rollback to a snapshot brings its files back, removes those that it does not know, and leaves all
others alone. -/

set_option autoImplicit false

namespace TreeRepair

open Location Listing Text

namespace SnapshotStore

variable {s : SnapshotStore} {env : Surroundings} {w w' : World} {root : Location} {S : Snapshot}
  {t₀ t x : Listing}

/-! ## Files that a snapshot knows -/

/-- The file at a place is one that the snapshot holds. -/
def IsKnown (s : SnapshotStore) (root : Location) (S : Snapshot) (t₀ : Listing) (q : List String) : Prop :=
  ∃ names c, s.filter.Walks t₀ root names c ∧ Key.ofNames names ∈ S.files ∧ q = root.settled ++ names

/-- The file at a place is met by the walk, and the snapshot does not know it. -/
def IsUnknown (s : SnapshotStore) (root : Location) (S : Snapshot) (t : Listing) (q : List String) : Prop :=
  ∃ names c, s.filter.Walks t root names c ∧ Key.ofNames names ∉ S.files ∧ Key.ofNames names ∉ S.skippedOversize ∧
    q = root.settled ++ names

/-! ## Files behind the steps -/

namespace Rollback

section Changed

variable {r : Rollback} {id : String} {saved : World} {p : Progress}
  (h : r.store.Later env.checksum r.root r.target t₀ t) (hroom : r.store.Room t id)
  (hgrown : r.store.Grown id t saved.files) (hwf : saved.files.WellFormed)
  (hrun : r.run env (RollbackPlan.changes (r.store.diff env.checksum t r.target r.root none)) ⟨saved, [], true⟩ =
    (.ok (), p))

include h hroom hgrown

theorem changes_kept (hrun : r.run env (RollbackPlan.changes (r.store.diff env.checksum t r.target r.root none))
      ⟨saved, [], true⟩ = (.ok (), p)) :
    Kept r.root ((RollbackPlan.changes (r.store.diff env.checksum t r.target r.root none)).filterMap (·.path))
      saved.files p.world.files := by
  have hkept := run_kept env (RollbackPlan.changes (r.store.diff env.checksum t r.target r.root none))
    ⟨saved, [], true⟩ (hgrown.isDir hroom h.rootDir)
  rwa [hrun] at hkept

omit hroom hgrown in
theorem not_leadsTo_store {k m : String} {ms : List String}
    (hk : k ∈ (RollbackPlan.changes (r.store.diff env.checksum t r.target r.root none)).filterMap (·.path)) :
    ¬ LeadsTo r.root k (r.store.directory.settled ++ m :: ms) := by
  intro hl
  obtain ⟨names, hn⟩ := h.spells hk
  have hplace := hl.place_eq
  rw [hn.steps] at hplace
  exact h.hidden names m ms hn.enters hplace

/-- The copy of a file is read unchanged while steps are carried out. -/
theorem read_copy {names : List String} {c : ByteArray} (hw : r.store.filter.Walks t₀ r.root names c)
    (hk : Key.ofNames names ∈ r.target.files) :
    ∃ place, r.store.storedFile r.target (Key.ofNames names) = .ok place ∧
      ∀ x, Kept r.root ((RollbackPlan.changes (r.store.diff env.checksum t r.target r.root none)).filterMap (·.path))
        saved.files x → x.read place = .ok c := by
  obtain ⟨place, hstored, hread⟩ := h.intact.copy names c hw hk
  refine ⟨place, hstored, fun x hx => ?_⟩
  obtain ⟨hlead, hfile⟩ := read_eq_ok.1 hread
  have hplain := isPlainName_of_load h.intact.load
  have hn := h.plain₀.spells hw
  rw [storedFile_ofNames (noSlash_of_isPlainName hplain) hn.ne_nil hn.isName hn.plain] at hstored
  obtain rfl := Except.ok.inj hstored
  have hset := settled_stored (s := r.store) (goesDown_of_isPlainName hplain) hn.isName
  rw [hset] at hfile
  have hsaved : saved.files.shapeAt? (r.store.copiesPlace r.target.id ++ names) = some (.file c) := by
    rw [hgrown.shapeAt?_of_ne_none hroom (by simp [hfile]), hfile]
  refine read_eq_ok.2 ⟨hx.leads (hgrown.leads hroom hlead), ?_⟩
  rw [hset]
  refine (hx.files _ _ hsaved).resolve_right ?_
  rintro ⟨k, hk, hl⟩
  rw [copiesPlace, List.append_assoc] at hl
  exact not_leadsTo_store h hk hl

/-- No file that the snapshot does not know is left behind steps that delete all of them. -/
theorem unknown_gone {steps : List RollbackStep} {q' : Progress}
    (hsub : ∀ step ∈ steps, step ∈ RollbackPlan.changes (r.store.diff env.checksum t r.target r.root none))
    (hdel : ∀ k ∈ (r.store.diff env.checksum t r.target r.root none).added, ⟨.delete, some k, false⟩ ∈ steps)
    (hwf : saved.files.WellFormed) (hrun : r.run env steps ⟨saved, [], true⟩ = (.ok (), q')) {q : List String}
    (hq : r.store.IsUnknown r.root r.target t q) (c : ByteArray) : q'.world.files.shapeAt? q ≠ some (.file c) := by
  obtain ⟨names, c', hw, hk, hskip, rfl⟩ := hq
  have hn := h.plain.spells hw
  refine run_deletes h.cut hn.split hn.goesDown rfl ?_ (hgrown.isDir hroom h.rootDir) hwf (.inr ?_) hrun c
  · intro step hstep k hpath hl
    obtain ⟨names', hn'⟩ := h.spells (List.mem_filterMap.2 ⟨step, hsub step hstep, hpath⟩)
    obtain ⟨rfl, -⟩ := hn.eq_of_leadsTo hn' hl
    rcases h.mem_changes (hsub step hstep) hpath with ⟨hknown, -⟩ | ⟨-, -, -, hdelete⟩
    · exact absurd hknown hk
    · exact ⟨rfl, hdelete⟩
  · exact ⟨_, hdel _ ((mem_added h.plain.wellFormed).2 ⟨⟨names, c', hw, rfl⟩, hk, hskip⟩), rfl, rfl⟩

include hrun

theorem captured_after {names : List String} {c : ByteArray} (hw : r.store.filter.Walks t₀ r.root names c)
    (hk : Key.ofNames names ∈ r.target.files) :
    p.world.files.shapeAt? (r.root.settled ++ names) = some (.file c) := by
  obtain ⟨place, hstored, hcopy⟩ := read_copy h hroom hgrown hw hk
  have hn := h.plain₀.spells hw
  refine run_restores _ hstored hcopy (by rw [hn.steps]) ?_ (hgrown.isDir hroom h.rootDir) (.refl ..) ?_ hrun
  · intro step hstep k hpath
    have hmem := List.mem_filterMap.2 ⟨step, hstep, hpath⟩
    refine ⟨hmem, fun hl => ?_⟩
    obtain ⟨names', hn'⟩ := h.spells hmem
    obtain ⟨rfl, -⟩ := hn.eq_of_leadsTo hn' hl
    rcases h.mem_changes hstep hpath with ⟨-, hres⟩ | ⟨-, hnot, -⟩
    · exact ⟨rfl, hres⟩
    · exact absurd hk hnot
  · refine (h.restored hw hk).imp_left fun hfile => ?_
    change saved.files.shapeAt? _ = _
    rw [hgrown.shapeAt?_of_ne_none hroom (by simp [hfile]), hfile]

include hwf

theorem unknown_after {q : List String} (hq : r.store.IsUnknown r.root r.target t q) (c : ByteArray) :
    p.world.files.shapeAt? q ≠ some (.file c) :=
  unknown_gone h hroom hgrown (fun _ hstep => hstep) (fun k hk => by simp [RollbackPlan.changes, hk]) hwf hrun hq c

omit hwf in
/-- Any other place keeps its file, and none gets one. -/
theorem same_after {q : List String}
    (hknown : ∀ names c, r.store.filter.Walks t₀ r.root names c → Key.ofNames names ∈ r.target.files →
      q ≠ r.root.settled ++ names)
    (hunknown : ∀ names c, r.store.filter.Walks t r.root names c → Key.ofNames names ∉ r.target.files →
      Key.ofNames names ∉ r.target.skippedOversize → q ≠ r.root.settled ++ names) (c : ByteArray) :
    p.world.files.shapeAt? q = some (.file c) ↔ saved.files.shapeAt? q = some (.file c) := by
  have hkept := changes_kept h hroom hgrown hrun
  have hnone : ¬ ∃ k ∈ (RollbackPlan.changes (r.store.diff env.checksum t r.target r.root none)).filterMap (·.path),
      LeadsTo r.root k q := by
    rintro ⟨k, hk, hl⟩
    obtain ⟨step, hstep, hpath⟩ := List.mem_filterMap.1 hk
    have hplace := hl.place_eq
    rcases h.mem_changes hstep hpath with ⟨hmem, -⟩ | ⟨⟨names, c', hw, rfl⟩, h1, h2, -⟩
    · obtain ⟨names, c', hw, -, rfl, -⟩ := h.mem_files.1 hmem
      rw [(h.plain₀.spells hw).steps] at hplace
      exact hknown names c' hw hmem hplace
    · rw [(h.plain.spells hw).steps] at hplace
      exact hunknown names c' hw h1 h2 hplace
  exact ⟨fun hf => (hkept.newFiles q c hf).resolve_right hnone, fun hf => (hkept.files q c hf).resolve_right hnone⟩

/-! ## Verification -/

omit hwf in
theorem checksums_verified :
    (r.target.checksums.all fun e => ((p.world.files.read (r.root.join e.1)).toOption.map env.checksum) == some e.2) =
      true := by
  rw [List.all_eq_true]
  rintro ⟨k, sum⟩ hm
  obtain ⟨names, c, hw, hread, rfl, rfl⟩ := h.mem_checksums _ _ hm
  have hk : Key.ofNames names ∈ r.target.files := by
    rw [h.files_eq]
    exact List.mem_map.2 ⟨_, hm, rfl⟩
  have hn := h.plain₀.spells hw
  have hafter := hw.mono ((changes_kept h hroom hgrown hrun).isDir (hgrown.isDir hroom h.rootDir))
    (captured_after h hroom hgrown hrun hw hk)
  have hread' := hafter.read_eq hn.isName
  rw [(read_eq_ok.1 hread).1.1] at hread'
  simp [Key.join_ofNames hn.ne_nil hn.isName hn.plain, hread', Except.map, Except.toOption]

omit hwf in
theorem emergency_verified
    (hcap : r.store.Captured env.checksum t r.root r.atRisk id r.emergency saved.files)
    (hall : ∀ k ∈ r.atRisk, r.emergency.checksums.contains k = true) :
    (r.atRisk.all fun key => r.emergency.checksums.contains key &&
      (r.store.storedFile r.emergency key).toOption.any p.world.files.isFile) = true := by
  have hkept := changes_kept h hroom hgrown hrun
  rw [List.all_eq_true]
  intro k hk
  obtain ⟨⟨k', sum⟩, hm, rfl⟩ := List.mem_map.1 (SortedMap.contains_iff.1 (hall k hk))
  obtain ⟨names, c, hwant, hread, rfl, -⟩ := (hcap.mem_checksums _ _).1 hm
  have hn := h.plain.spells hwant.walks
  obtain ⟨hcopy, hlead⟩ := hcap.copy names c hwant hread
  have hstored := storedFile_ofNames (s := r.store) (S := r.emergency) (hcap.id_eq ▸ hroom.noSlash) hn.ne_nil
    hn.isName hn.plain
  have hfile : p.world.files.shapeAt? (r.store.copiesPlace id ++ names) = some (.file c) := by
    refine (hkept.files _ _ hcopy).resolve_right ?_
    rintro ⟨k, hk, hl⟩
    rw [copiesPlace, List.append_assoc] at hl
    exact not_leadsTo_store h hk hl
  have his : p.world.files.isFile (r.store.directory ++ [id] ++ [filesName] ++ names) = true :=
    isFile_eq_true.2 ⟨hkept.leads hlead, c, by rw [settled_stored hroom.goesDown hn.isName, hfile]⟩
  rw [hcap.id_eq] at hstored
  simp only [Bool.and_eq_true]
  refine ⟨hall _ hk, ?_⟩
  rw [hstored]
  exact his

/-- A deleted path is there again exactly if the snapshot holds a file below it. -/
theorem isThere_after {names : List String} {c : ByteArray} (hw : r.store.filter.Walks t r.root names c)
    (hk : Key.ofNames names ∉ r.target.files) (hskip : Key.ofNames names ∉ r.target.skippedOversize) :
    p.world.files.isThere (r.root ++ names) = true ↔
      ∃ names' c', r.store.filter.Walks t₀ r.root names' c' ∧ Key.ofNames names' ∈ r.target.files ∧
        names <+: names' := by
  have hn := h.plain.spells hw
  have hkept := changes_kept h hroom hgrown hrun
  have hset : settled (r.root ++ names) = r.root.settled ++ names := settled_append_names hn.goesDown r.root
  rw [isThere_eq_true, hset]
  constructor
  · rintro ⟨-, hne⟩
    have hdir : p.world.files.shapeAt? (r.root.settled ++ names) = some .dir := by
      cases hs : p.world.files.shapeAt? (r.root.settled ++ names) with
      | none => exact absurd hs hne
      | some shape =>
        cases shape with
        | dir => rfl
        | file c' => exact absurd hs (unknown_after h hroom hgrown hwf hrun ⟨names, c, hw, hk, hskip, rfl⟩ c')
    rcases hkept.newDirs _ hdir with hsaved | ⟨k, hmem, ns, -, hplace, hns⟩
    · rw [hgrown.shapeAt?_of_ne_none hroom (by simp [hw.isFile]), hw.isFile] at hsaved
      simp at hsaved
    · obtain rfl := List.append_cancel_left hplace
      obtain ⟨step, hstep, hpath⟩ := List.mem_filterMap.1 hmem
      obtain ⟨names', hn'⟩ := h.spells hmem
      rw [hn'.steps] at hns
      have hpre : names <+: names' := hns.trans (List.dropLast_prefix names')
      rcases h.mem_changes hstep hpath with ⟨hfiles, -⟩ | ⟨⟨names'', c', hw', rfl⟩, -⟩
      · obtain ⟨names'', c', hw', -, rfl, -⟩ := h.mem_files.1 hfiles
        have heq : names' = names'' := by rw [← hn'.steps, (h.plain₀.spells hw').steps]
        exact ⟨names'', c', hw', hfiles, heq ▸ hpre⟩
      · -- two files of one tree do not lie on one way
        have heq : names' = names'' := by rw [← hn'.steps, (h.plain.spells hw').steps]
        subst heq
        obtain ⟨m, rfl⟩ := hpre
        have hm : m ≠ [] := by
          rintro rfl
          have hlen := hns.length_le
          rw [List.append_nil, List.length_dropLast] at hlen
          have := List.length_pos_of_ne_nil hn.ne_nil
          omega
        have hnone := shapeAt?_append_of_file hw.isFile hm
        rw [List.append_assoc, hw'.isFile] at hnone
        simp at hnone
  · rintro ⟨names', c', hw', hk', m, rfl⟩
    have hm : m ≠ [] := by
      rintro rfl
      rw [List.append_nil] at hk'
      exact hk hk'
    have hfile := captured_after h hroom hgrown hrun hw' hk'
    rw [← List.append_assoc] at hfile
    have hdir := shapeAt?_of_append (by rw [hfile]; simp) hm
    obtain ⟨hread, -⟩ := h.captured hw' hk'
    have hcp := (read_eq_ok.1 hread).1.1
    rw [← List.append_assoc] at hcp
    have hroot := (isDir_eq_true.1 (hkept.isDir (hgrown.isDir hroom h.rootDir))).1
    refine ⟨⟨checkPath_of_append hcp, Passable.append.2 ⟨hroot.2, passable_names hn.goesDown
      (fun n hn' => (hn.isName n hn').short) ?_⟩⟩, by simp [hdir]⟩
    change p.world.files.shapeAt? (r.root.settled ++ names) ≠ none
    simp [hdir]

/-- What the verification finds: it holds all but the paths that had to become directories against the tree. -/
theorem isVerified_after (hdeletes : r.plan.deletes = (r.store.diff env.checksum t r.target r.root none).added)
    (hcap : r.store.Captured env.checksum t r.root r.atRisk id r.emergency saved.files)
    (hall : ∀ k ∈ r.atRisk, r.emergency.checksums.contains k = true) :
    r.isVerified env.checksum p.world.files = true ↔
      ∀ names c names' c', r.store.filter.Walks t r.root names c → Key.ofNames names ∉ r.target.files →
        Key.ofNames names ∉ r.target.skippedOversize → r.store.filter.Walks t₀ r.root names' c' →
        Key.ofNames names' ∈ r.target.files → ¬ names <+: names' := by
  have hsums := checksums_verified h hroom hgrown hrun
  have hemergency := emergency_verified h hroom hgrown hrun hcap hall
  rw [isVerified, Bool.and_eq_true, Bool.and_eq_true, hdeletes]
  constructor
  · rintro ⟨⟨-, hgone⟩, -⟩ names c names' c' hw h1 h2 hw' hk' hpre
    have hn := h.plain.spells hw
    rw [List.all_eq_true] at hgone
    have hadded : Key.ofNames names ∈ (r.store.diff env.checksum t r.target r.root none).added :=
      (mem_added h.plain.wellFormed).2 ⟨⟨names, c, hw, rfl⟩, h1, h2⟩
    have hnot := hgone _ hadded
    rw [Key.join_ofNames hn.ne_nil hn.isName hn.plain,
      (isThere_after h hroom hgrown hwf hrun hw h1 h2).2 ⟨names', c', hw', hk', hpre⟩] at hnot
    simp at hnot
  · intro hcond
    refine ⟨⟨hsums, List.all_eq_true.2 fun k hk => ?_⟩, hemergency⟩
    obtain ⟨⟨names, c, hw, rfl⟩, h1, h2⟩ := (mem_added h.plain.wellFormed).1 hk
    have hn := h.plain.spells hw
    rw [Key.join_ofNames hn.ne_nil hn.isName hn.plain, Bool.not_eq_true']
    by_contra hthere
    obtain ⟨names', c', hw', hk', hpre⟩ :=
      (isThere_after h hroom hgrown hwf hrun hw h1 h2).1 (by simpa using hthere)
    exact hcond names c names' c' hw h1 h2 hw' hk' hpre

end Changed

end Rollback

/-! ## Rollbacks -/

theorem Rollback.execute_eq_ok {r : Rollback} {d : SnapshotDiff} {report : RollbackReport}
    (hplan : r.plan = .ofDiff S d) (h : r.execute env w = (.ok report, w')) :
    ∃ p, r.run env (RollbackPlan.changes d) ⟨w, [], true⟩ = (.ok (), p) ∧
      report.verified = r.isVerified env.checksum p.world.files ∧ report.emergency = some r.emergency.id ∧
      ∃ log, w'.files = r.writeLog p.world.files log := by
  have hsteps : r.plan.steps = RollbackPlan.changes d ++ [⟨.verify, none, false⟩] := by rw [hplan]; rfl
  rw [Rollback.execute, hsteps, run_append] at h
  cases hrun : r.run env (RollbackPlan.changes d) ⟨w, [], true⟩ with
  | mk res p =>
    cases res with
    | error e => simp [hrun] at h
    | ok u =>
      simp only [hrun, Rollback.run, Rollback.step, Prod.mk.injEq, Except.ok.injEq] at h
      obtain ⟨rfl, rfl⟩ := h
      exact ⟨p, rfl, rfl, rfl, _, rfl⟩

/-- A rollback that gives a report has loaded its snapshot, made an emergency snapshot that holds all files
at risk, and carried out its plan. -/
theorem executeRollback_eq_ok {plan : RollbackPlan} {report : RollbackReport}
    (h : s.executeRollback env w plan root false = (.ok report, w')) :
    ∃ target description emergency saved, s.load w.files plan.snapshot = .ok target ∧
      s.capture env w root "emergency" description (plan.atRisk w.files root) = (.ok emergency, saved) ∧
      (∀ k ∈ plan.atRisk w.files root, emergency.checksums.contains k = true) ∧
      Rollback.execute ⟨s, root, plan, target, emergency, plan.atRisk w.files root⟩ env saved = (.ok report, w') := by
  rw [executeRollback, if_neg (by simp)] at h
  simp only at h
  cases hload : s.load w.files plan.snapshot with
  | error e => simp [hload] at h
  | ok target =>
    simp only [hload] at h
    cases hc : s.capture env w root "emergency" s!"state before rollback to {target.id}" (plan.atRisk w.files root) with
    | mk res saved =>
      cases res with
      | error e => simp [hc] at h
      | ok emergency =>
        simp only [hc] at h
        split at h
        · rename_i hempty
          refine ⟨target, _, emergency, saved, rfl, hc, fun k hk => ?_, h⟩
          by_contra hnot
          exact absurd (List.mem_filter.2 ⟨hk, by simpa using hnot⟩) (List.isEmpty_iff.1 hempty ▸ List.not_mem_nil)
        · simp at h

/-! ## The tree behind a rollback -/

/-- The files of a tree behind a rollback that has made a snapshot. -/
structure Behind (s : SnapshotStore) (root : Location) (S : Snapshot) (t₀ t x : Listing) (id : String) : Prop where
  wellFormed : x.WellFormed
  isDir : x.isDir root = true
  known : ∀ names c, s.filter.Walks t₀ root names c → Key.ofNames names ∈ S.files →
    x.shapeAt? (root.settled ++ names) = some (.file c)
  unknown : ∀ q c, s.IsUnknown root S t q → x.shapeAt? q ≠ some (.file c)
  other : ∀ q c, ¬ s.IsKnown root S t₀ q → ¬ s.IsUnknown root S t q → ¬ s.directory.settled ++ [id] <+: q →
    (x.shapeAt? q = some (.file c) ↔ t.shapeAt? q = some (.file c))

section Behind

variable {checksum : HashFunction} {id : String} (h : s.Later checksum root S t₀ t) (hx : s.Behind root S t₀ t x id)
  {names : List String} {c : ByteArray}

include hx

/-- Where a file of the tree behind a rollback comes from. -/
theorem Behind.source {q : List String} (hf : x.shapeAt? q = some (.file c)) :
    t.shapeAt? q = some (.file c) ∨ s.IsKnown root S t₀ q ∨ s.directory.settled ++ [id] <+: q := by
  by_cases hnew : s.directory.settled ++ [id] <+: q
  · exact .inr (.inr hnew)
  · by_cases hknown : s.IsKnown root S t₀ q
    · exact .inr (.inl hknown)
    · exact .inl ((hx.other q c hknown (fun hun => hx.unknown q c hun hf) hnew).1 hf)

theorem Behind.walks (hw : s.filter.Walks t₀ root names c) (hk : Key.ofNames names ∈ S.files) :
    s.filter.Walks x root names c :=
  hw.mono hx.isDir (hx.known names c hw hk)

include h

theorem Behind.read (hw : s.filter.Walks t₀ root names c) (hk : Key.ofNames names ∈ S.files) :
    x.read (root ++ names) = .ok c := by
  have hread := (hx.walks hw hk).read_eq (hw.isName h.plain₀.wellFormed)
  rwa [(read_eq_ok.1 (h.captured hw hk).1).1.1] at hread

/-- What the walk meets is held by the snapshot, or was there before. -/
theorem Behind.met (hw : s.filter.Walks x root names c) :
    (∃ c', s.filter.Walks t₀ root names c' ∧ Key.ofNames names ∈ S.files) ∨ s.filter.Walks t root names c := by
  rcases hx.source hw.isFile with hf | ⟨names', c', hw', hk, heq⟩ | ⟨m, hm⟩
  · exact .inr (hw.mono h.rootDir hf)
  · obtain rfl := List.append_cancel_left heq
    exact .inl ⟨c', hw', hk⟩
  · rw [List.append_assoc, List.singleton_append] at hm
    exact absurd hm (h.hidden names _ _ hw.enters)

theorem Behind.plain : s.Plain x root := by
  refine ⟨hx.wellFormed, fun names c hw => ?_⟩
  rcases hx.met h hw with ⟨c', hw', -⟩ | hw'
  · exact h.plain₀.names _ _ hw'
  · exact h.plain.names _ _ hw'

/-- A new comparison finds no difference. -/
theorem Behind.isClean : (s.diff checksum x S root none).isClean = true := by
  refine (isClean_iff (hx.plain h).distinct).2 ⟨fun k hk => ?_, ?_, fun names c hw hk => ?_⟩
  · obtain ⟨names, c, hw, -, rfl, -⟩ := h.mem_files.1 hk
    exact ⟨names, c, hx.walks hw hk, rfl⟩
  · rintro k ⟨names, c, hw, rfl⟩
    by_contra hnot
    rw [not_or] at hnot
    rcases hx.met h hw with ⟨-, -, hk⟩ | hw'
    · exact hnot.1 hk
    · exact hx.unknown _ c ⟨names, c, hw', hnot.1, hnot.2, rfl⟩ hw.isFile
  · obtain ⟨names', c', hw', -, heq, hsum⟩ := h.mem_files.1 hk
    obtain ⟨rfl, rfl⟩ := (hx.plain h).inj hw (hx.walks hw' (heq ▸ hk)) heq
    rw [isModified, hx.read h hw' hk, h.sorted.get?_eq_some.2 hsum]
    simp

end Behind

/-- The log is the only file that is written behind the steps. -/
theorem Rollback.behind {r : Rollback} {id : String} {saved : World} {p : Progress}
    (h : r.store.Later env.checksum r.root r.target t₀ t) (hroom : r.store.Room t id)
    (hgrown : r.store.Grown id t saved.files) (hwf : saved.files.WellFormed) (hcut : r.store.directory.IsCut)
    (hid : r.emergency.id = id)
    (hrun : r.run env (RollbackPlan.changes (r.store.diff env.checksum t r.target r.root none)) ⟨saved, [], true⟩ =
      (.ok (), p)) (log : TransactionLog) :
    r.store.Behind r.root r.target t₀ t (r.writeLog p.world.files log) id := by
  have hkept := changes_kept h hroom hgrown hrun
  have hlog : ∀ q, q ≠ r.store.directory.settled ++ [id, logName] →
      (r.writeLog p.world.files log).shapeAt? q = p.world.files.shapeAt? q := by
    intro q hq
    rw [← hid] at hq
    exact shapeAt?_writeLog (hid ▸ hroom.noSlash) (hid ▸ hroom.goesDown) log hq
  have hwalked : ∀ names, r.store.filter.Enters r.root [] names →
      (r.writeLog p.world.files log).shapeAt? (r.root.settled ++ names) =
        p.world.files.shapeAt? (r.root.settled ++ names) :=
    fun names he => hlog _ (h.hidden names _ _ he).symm
  refine ⟨?_, ?_, fun names c hw hk => ?_, ?_, fun q c hknown hunknown hnew => ?_⟩
  · have hwfp := run_wellFormed h.cut env
      (RollbackPlan.changes (r.store.diff env.checksum t r.target r.root none)) ⟨saved, [], true⟩ hwf
    rw [hrun] at hwfp
    exact writeLog_wellFormed hcut hwfp log
  · obtain ⟨hlead, hroot⟩ := isDir_eq_true.1 (hkept.isDir (hgrown.isDir hroom h.rootDir))
    exact isDir_eq_true.2 ⟨hlead.mono fun q hq => shapeAt?_writeLog_dir log hq, shapeAt?_writeLog_dir log hroot⟩
  · rw [hwalked names hw.enters, captured_after h hroom hgrown hrun hw hk]
  · rintro q c hq
    have hgone := unknown_after h hroom hgrown hwf hrun hq c
    obtain ⟨names, c', hw, h1, h2, rfl⟩ := hq
    rwa [hwalked names hw.enters]
  · rw [hlog q fun heq => hnew ⟨[logName], by simp [heq]⟩, same_after h hroom hgrown hrun, hgrown.shapeAt?_eq hroom hnew]
    · exact fun names c' hw hk heq => hknown ⟨names, c', hw, hk, heq⟩
    · exact fun names c' hw h1 h2 heq => hunknown ⟨names, c', hw, h1, h2, heq⟩

/-! ## The whole rollback -/

/-- What a rollback from one tree to the snapshot of another one gives. -/
structure Restored (s : SnapshotStore) (checksum : HashFunction) (root : Location) (S : Snapshot)
    (t₀ t x : Listing) (report : RollbackReport) : Prop where
  /-- Each file that the snapshot holds has the bytes that it had. -/
  captured : ∀ names c, s.filter.Walks t₀ root names c → Key.ofNames names ∈ S.files → x.read (root ++ names) = .ok c
  /-- Each file that the snapshot does not know is gone. -/
  gone : ∀ q c, s.IsUnknown root S t q → x.shapeAt? q ≠ some (.file c)
  /-- Each other file is as it was. -/
  untouched : ∀ q c, ¬ s.IsKnown root S t₀ q → ¬ s.IsUnknown root S t q →
    t.shapeAt? q = some (.file c) → x.shapeAt? q = some (.file c)
  /-- No file is new but those that the snapshot holds and those of the emergency snapshot. -/
  nothingElse : ∀ q c, x.shapeAt? q = some (.file c) → t.shapeAt? q = some (.file c) ∨ s.IsKnown root S t₀ q ∨
    ∃ id, report.emergency = some id ∧ s.directory.settled ++ [id] <+: q
  /-- The verification succeeds exactly if the way to no stored file leads through a deleted one. -/
  verified : report.verified = true ↔
    ∀ names c names' c', s.filter.Walks t root names c → Key.ofNames names ∉ S.files →
      Key.ofNames names ∉ S.skippedOversize → s.filter.Walks t₀ root names' c' → Key.ofNames names' ∈ S.files →
      ¬ names <+: names'
  /-- A new comparison finds no difference. -/
  clean : (s.diff checksum x S root none).isClean = true
  /-- A second rollback has nothing to do. -/
  done : (RollbackPlan.ofDiff S (s.diff checksum x S root none)).isEmpty = true

/-- A rollback with its emergency snapshot. -/
def Rollback.of (s : SnapshotStore) (checksum : HashFunction) (t : Listing) (root : Location) (S E : Snapshot) :
    Rollback :=
  ⟨s, root, .ofDiff S (s.diff checksum t S root none), S, E,
    (RollbackPlan.ofDiff S (s.diff checksum t S root none)).atRisk t root⟩

/-- What a rollback to a snapshot that has given a report has gone through. -/
structure CarriedOut (s : SnapshotStore) (env : Surroundings) (w : World) (root : Location) (S : Snapshot)
    (report : RollbackReport) (x : Listing) (E : Snapshot) (saved : World) (p : Rollback.Progress) : Prop where
  capture : ∃ description, s.capture env w root "emergency" description
    (Rollback.of s env.checksum w.files root S E).atRisk = (.ok E, saved)
  room : s.Room w.files E.id
  captured : s.Captured env.checksum w.files root (Rollback.of s env.checksum w.files root S E).atRisk E.id E saved.files
  all : ∀ k ∈ (Rollback.of s env.checksum w.files root S E).atRisk, E.checksums.contains k = true
  run : (Rollback.of s env.checksum w.files root S E).run env
    (RollbackPlan.changes (s.diff env.checksum w.files S root none)) ⟨saved, [], true⟩ = (.ok (), p)
  verified : report.verified = (Rollback.of s env.checksum w.files root S E).isVerified env.checksum p.world.files
  emergency : report.emergency = some E.id
  log : ∃ log, x = (Rollback.of s env.checksum w.files root S E).writeLog p.world.files log

theorem carriedOut_of_ok (hready : s.Ready env w root) (h : s.Later env.checksum root S t₀ w.files)
    {report : RollbackReport}
    (hok : s.executeRollback env w (.ofDiff S (s.diff env.checksum w.files S root none)) root false = (.ok report, w')) :
    ∃ E saved p, s.CarriedOut env w root S report w'.files E saved p := by
  obtain ⟨target, description, E, saved, hload, hc, hall, hexec⟩ := executeRollback_eq_ok hok
  obtain rfl : S = target := Except.ok.inj (h.intact.load.symm.trans hload)
  obtain ⟨-, -, -, -, hcap⟩ := capture_ok hready.poised hc
  have hcap := hcap h.plain
  have hroom := (hready.scene E.timestamp).room
  have hid := hcap.id_eq
  rw [← hid] at hcap hroom
  obtain ⟨p, hrun, hverified, hemergency, hlog⟩ := Rollback.execute_eq_ok rfl hexec
  exact ⟨E, saved, p, ⟨description, hc⟩, hroom, hcap, hall, hrun, hverified, hemergency, hlog⟩

section CarriedOut

variable {E : Snapshot} {saved : World} {p : Rollback.Progress} {report : RollbackReport}
  (h : s.Later env.checksum root S t₀ w.files) (hdone : s.CarriedOut env w root S report x E saved p)

include h hdone

theorem CarriedOut.behind (hcut : s.directory.IsCut) : s.Behind root S t₀ w.files x E.id := by
  obtain ⟨log, hleft⟩ := hdone.log
  rw [hleft]
  exact Rollback.behind (r := Rollback.of s env.checksum w.files root S E) h hdone.room hdone.captured.grown
    hdone.captured.wellFormed hcut rfl hdone.run log

/-- A rollback that succeeds restores the tree of its snapshot, whatever has become of it. -/
theorem CarriedOut.restored (hcut : s.directory.IsCut) : s.Restored env.checksum root S t₀ w.files x report := by
  have hx := hdone.behind h hcut
  have hclean := hx.isClean h
  refine ⟨fun names c hw hk => hx.read h hw hk, hx.unknown, fun q c hknown hunknown hf => ?_, fun q c hf => ?_, ?_,
    hclean, RollbackPlan.isEmpty_ofDiff hclean⟩
  · exact (hx.other q c hknown hunknown (hdone.room.not_prefix (by simp [hf]))).2 hf
  · exact (hx.source hf).imp_right fun h' => h'.imp_right fun hp => ⟨_, hdone.emergency, hp⟩
  · rw [hdone.verified]
    exact Rollback.isVerified_after (r := Rollback.of s env.checksum w.files root S E) h hdone.room
      hdone.captured.grown hdone.captured.wellFormed hdone.run rfl hdone.captured hdone.all

end CarriedOut

theorem restored_of_ok (hready : s.Ready env w root) (h : s.Later env.checksum root S t₀ w.files)
    {report : RollbackReport}
    (hok : s.executeRollback env w (.ofDiff S (s.diff env.checksum w.files S root none)) root false = (.ok report, w')) :
    s.Restored env.checksum root S t₀ w.files w'.files report := by
  obtain ⟨E, saved, p, hdone⟩ := carriedOut_of_ok hready h hok
  exact hdone.restored h hready.cut

/-- A project with one file beside an empty store. -/
def early : Listing := .dir "work" (.file "a.js" "old".toUTF8 .empty) (.dir "shelf" .empty .empty)

/-- Its snapshot. -/
def taken : Snapshot :=
  ⟨"1700000000000-0f8fad5b", "t", "", 1700000000000, ["a.js"],
    [("a.js", "cba06b5736faf67e54b07b561eae94395e774c517a7d910a54369e1263ccfbd4")], 3, []⟩

/-- The project with another file in place of the first one, beside the snapshot. -/
def late : Listing :=
  .dir "work" (.file "b.js" "more".toUTF8 .empty)
    (.dir "shelf" (.dir "1700000000000-0f8fad5b" (.file "manifest.json" taken.bytes
      (.dir "files" (.file "a.js" "old".toUTF8 .empty) .empty)) .empty) .empty)

/-- Surroundings with another fresh id. -/
def again : Surroundings := { still with freshId := fun _ => "7c9e6679-7425-40de-944b-e07fc1f90ae7" }

theorem walks_early {names : List String} {c : ByteArray} (hw : shelf.filter.Walks early ["work"] names c) :
    names = ["a.js"] ∧ c = "old".toUTF8 := by
  have hfile := mem_files_of_shapeAt? hw.isFile
  rw [show Location.settled ["work"] = ["work"] by decide] at hfile
  simpa [early, files, filesBelow] using hfile

theorem walks_late {names : List String} {c : ByteArray} (hw : shelf.filter.Walks late ["work"] names c) :
    names = ["b.js"] := by
  have hfile := mem_files_of_shapeAt? hw.isFile
  rw [show Location.settled ["work"] = ["work"] by decide] at hfile
  have hboth : names = ["b.js"] ∧ c = "more".toUTF8 := by simpa [late, files, filesBelow] using hfile
  exact hboth.1

theorem grounds_work {t : Listing} (hwf : t.WellFormed) (hdir : t.isDir ["work"] = true)
    (hnames : t.names.all (fun n => !n.toList.contains '\\') = true) : shelf.Grounds t ["work"] where
  wellFormed := hwf
  cut := by decide
  rootDir := hdir
  plain names c h := isPlain_of_names hnames (p := settled ["work"]) (by simp [h])

theorem unused_again : shelf.Unused again ⟨late, 0, 0⟩ where
  hex := isHex_of_all (by decide)
  fresh ts := by
    have hne : ("1700000000000-0f8fad5b" : String) ≠ idOf ts "7c9e6679-7425-40de-944b-e07fc1f90ae7" :=
      ne_idOf (by decide) (by decide) ts
    change late.shapeAt? ["shelf", idOf ts "7c9e6679-7425-40de-944b-e07fc1f90ae7"] = none
    rw [late, shapeAt?_dir_cons, if_neg (by decide), shapeAt?_dir_cons, if_pos rfl, shapeAt?_dir_cons, if_neg hne,
      shapeAt?_empty_cons]

end SnapshotStore

end TreeRepair
