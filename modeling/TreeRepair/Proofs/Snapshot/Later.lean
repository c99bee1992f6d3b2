import TreeRepair.Proofs.Snapshot.Difference
import TreeRepair.Proofs.Snapshot.Record
import TreeRepair.Proofs.Snapshot.Success

/-! A tree that is to be brought back to the snapshot of another one. The two trees are any trees; all that
they share is the root, the filter and the stored copies. -/

set_option autoImplicit false

namespace TreeRepair

open Location Listing Text

/-- The steps of a plan between its backup and its verification. -/
def RollbackPlan.changes (d : SnapshotDiff) : List RollbackStep :=
  [⟨.emergencyBackup, none, true⟩]
    ++ d.modified.map (fun key => ⟨.restore, some key, true⟩)
    ++ d.added.map (fun key => ⟨.delete, some key, false⟩)
    ++ d.deleted.map (fun key => ⟨.restoreDeleted, some key, true⟩)

theorem RollbackPlan.mem_changes {d : SnapshotDiff} {step : RollbackStep} {key : String}
    (h : step ∈ changes d) (hk : step.path = some key) :
    key ∈ d.modified ∧ step.action = .restore ∨ key ∈ d.added ∧ step.action = .delete ∨
      key ∈ d.deleted ∧ step.action = .restoreDeleted := by
  simp only [changes, List.mem_append, List.mem_singleton, List.mem_map] at h
  rcases h with ((rfl | ⟨k, hm, rfl⟩) | ⟨k, hm, rfl⟩) | ⟨k, hm, rfl⟩
  · simp at hk
  · obtain rfl := Option.some.inj hk
    exact .inl ⟨hm, rfl⟩
  · obtain rfl := Option.some.inj hk
    exact .inr (.inl ⟨hm, rfl⟩)
  · obtain rfl := Option.some.inj hk
    exact .inr (.inr ⟨hm, rfl⟩)

namespace SnapshotStore

variable {s : SnapshotStore} {env : Surroundings} {w w' : World} {root : Location} {S : Snapshot}
  {t₀ t x : Listing}

/-! ## What a rollback starts from -/

/-- A snapshot that can be loaded and whose copies hold the bytes of the tree that it was made of. -/
structure Intact (s : SnapshotStore) (x : Listing) (S : Snapshot) (t : Listing) (root : Location) : Prop where
  load : s.load x S.id = .ok S
  copy : ∀ names c, s.filter.Walks t root names c → Key.ofNames names ∈ S.files →
    ∃ place, s.storedFile S (Key.ofNames names) = .ok place ∧ x.read place = .ok c

/-- Two trees, a snapshot of the first one, and its copies in the second one. -/
structure Later (s : SnapshotStore) (checksum : HashFunction) (root : Location) (S : Snapshot) (t₀ t : Listing) :
    Prop where
  sorted : S.checksums.Sorted
  files_eq : S.files = S.checksums.keys
  mem_checksums : ∀ k sum, (k, sum) ∈ S.checksums → ∃ names c, s.filter.Walks t₀ root names c ∧
    t₀.read (root ++ names) = .ok c ∧ k = Key.ofNames names ∧ sum = checksum c
  plain₀ : s.Plain t₀ root
  plain : s.Plain t root
  rootDir : t.isDir root = true
  cut : root.IsCut
  hidden : s.Hidden root
  intact : s.Intact t S t₀ root
  distinct : ∀ names c c', s.filter.Walks t₀ root names c → s.filter.Walks t root names c' →
    checksum c = checksum c' → c = c'

section Later

variable {checksum : HashFunction} (h : s.Later checksum root S t₀ t) {names : List String} {c : ByteArray}

include h

theorem Later.mem_files {k : String} : k ∈ S.files ↔
    ∃ names c, s.filter.Walks t₀ root names c ∧ t₀.read (root ++ names) = .ok c ∧
      k = Key.ofNames names ∧ (k, checksum c) ∈ S.checksums := by
  rw [h.files_eq, SortedMap.keys, List.mem_map]
  constructor
  · rintro ⟨⟨k, sum⟩, hm, rfl⟩
    obtain ⟨names, c, hw, hread, rfl, rfl⟩ := h.mem_checksums _ _ hm
    exact ⟨names, c, hw, hread, rfl, hm⟩
  · rintro ⟨names, c, -, -, -, hm⟩
    exact ⟨_, hm, rfl⟩

/-- A file of the first tree that the snapshot holds could be read there. -/
theorem Later.captured (hw : s.filter.Walks t₀ root names c) (hk : Key.ofNames names ∈ S.files) :
    t₀.read (root ++ names) = .ok c ∧ (Key.ofNames names, checksum c) ∈ S.checksums := by
  obtain ⟨names', c', hw', hread, heq, hm⟩ := h.mem_files.1 hk
  obtain ⟨rfl, rfl⟩ := h.plain₀.inj hw hw' heq
  exact ⟨hread, hm⟩

end Later

/-! ## Keys of steps -/

/-- A key and the names that it spells, on a way that a walk may take. -/
structure Spells (s : SnapshotStore) (root : Location) (k : String) (names : List String) : Prop where
  key_eq : k = Key.ofNames names
  ne_nil : names ≠ []
  isName : ∀ n ∈ names, IsName n
  plain : Key.IsPlain names
  enters : s.filter.Enters root [] names

theorem Plain.spells (h : s.Plain t root) {names : List String} {c : ByteArray}
    (hw : s.filter.Walks t root names c) : s.Spells root (Key.ofNames names) names :=
  ⟨rfl, hw.ne_nil, hw.isName h.wellFormed, h.names _ _ hw, hw.enters⟩

section Spells

variable {k : String} {names : List String} (h : s.Spells root k names)

include h

theorem Spells.goesDown : ∀ n ∈ names, GoesDown n := fun n hn => (h.isName n hn).goesDown

theorem Spells.split : splitString '/' k = names := by
  rw [h.key_eq, Key.splitString_ofNames h.ne_nil h.isName h.plain]

theorem Spells.steps : Key.steps k = names := by
  rw [h.key_eq, Key.steps_ofNames h.ne_nil h.isName h.plain]

theorem Spells.eq_of_leadsTo {k' : String} {names' : List String} (h' : s.Spells root k' names')
    (hl : Rollback.LeadsTo root k' (root.settled ++ names)) : k' = k ∧ names' = names := by
  have hplace := hl.place_eq
  rw [h'.steps] at hplace
  obtain rfl := List.append_cancel_left hplace
  exact ⟨h'.key_eq.trans h.key_eq.symm, rfl⟩

end Spells

section Changes

variable {checksum : HashFunction} (h : s.Later checksum root S t₀ t) {k : String}

include h

/-- Each key of a step is spelled by names of the first tree or of the second one. -/
theorem Later.spells (hk : k ∈ (RollbackPlan.changes (s.diff checksum t S root none)).filterMap (·.path)) :
    ∃ names, s.Spells root k names := by
  obtain ⟨step, hstep, hpath⟩ := List.mem_filterMap.1 hk
  rcases RollbackPlan.mem_changes hstep hpath with ⟨hm, -⟩ | ⟨hm, -⟩ | ⟨hm, -⟩
  · obtain ⟨names, c, hw, rfl, -⟩ := (mem_modified h.plain.distinct).1 hm
    exact ⟨names, h.plain.spells hw⟩
  · obtain ⟨⟨names, c, hw, rfl⟩, -⟩ := (mem_added h.plain.wellFormed).1 hm
    exact ⟨names, h.plain.spells hw⟩
  · obtain ⟨names, c, hw, -, rfl, -⟩ := h.mem_files.1 ((mem_deleted h.plain.wellFormed).1 hm).1
    exact ⟨names, h.plain₀.spells hw⟩

/-- A key of a step is one of a file that the snapshot holds, or that of a file to be deleted. -/
theorem Later.mem_changes {step : RollbackStep}
    (hstep : step ∈ RollbackPlan.changes (s.diff checksum t S root none)) (hpath : step.path = some k) :
    k ∈ S.files ∧ Rollback.Restores step ∨
      s.Meets t root k ∧ k ∉ S.files ∧ k ∉ S.skippedOversize ∧ step.action = .delete := by
  rcases RollbackPlan.mem_changes hstep hpath with ⟨hm, hact⟩ | ⟨hm, hact⟩ | ⟨hm, hact⟩
  · obtain ⟨names, c, -, -, hk, -⟩ := (mem_modified h.plain.distinct).1 hm
    exact .inl ⟨hk, .inl hact⟩
  · obtain ⟨hmeets, h1, h2⟩ := (mem_added h.plain.wellFormed).1 hm
    exact .inr ⟨hmeets, h1, h2, hact⟩
  · exact .inl ⟨((mem_deleted h.plain.wellFormed).1 hm).1, .inr hact⟩

/-- A file that the snapshot holds is the same in the second tree, or a step restores it. -/
theorem Later.restored {names : List String} {c : ByteArray} (hw : s.filter.Walks t₀ root names c)
    (hk : Key.ofNames names ∈ S.files) : t.shapeAt? (root.settled ++ names) = some (.file c) ∨
      ∃ step ∈ RollbackPlan.changes (s.diff checksum t S root none),
        step.path = some (Key.ofNames names) ∧ Rollback.Restores step := by
  obtain ⟨hread, hsum⟩ := h.captured hw hk
  by_cases hmeets : s.Meets t root (Key.ofNames names)
  · obtain ⟨names', c', hw', heq⟩ := hmeets
    obtain rfl := Key.ofNames_inj hw.ne_nil hw'.ne_nil (hw.isName h.plain₀.wellFormed)
      (hw'.isName h.plain.wellFormed) (h.plain₀.names _ _ hw) (h.plain.names _ _ hw') heq
    by_cases hmod : isModified checksum t S ⟨root ++ names, Key.ofNames names, c'.size⟩ = true
    · refine .inr ⟨⟨.restore, some (Key.ofNames names), true⟩, ?_, rfl, .inl rfl⟩
      have hm := (mem_modified h.plain.distinct).2 ⟨names, c', hw', rfl, hk, hmod⟩
      simp [RollbackPlan.changes, hm]
    · -- the path is not too long, as the file could be read in the first tree
      have hread' := hw'.read_eq (hw'.isName h.plain.wellFormed)
      rw [(read_eq_ok.1 hread).1.1] at hread'
      rw [isModified, hread'] at hmod
      simp only [Except.map, h.sorted.get?_eq_some.2 hsum, bne_iff_ne, ne_eq, Option.some.injEq,
        not_not] at hmod
      obtain rfl := h.distinct _ _ _ hw hw' hmod
      exact .inl hw'.isFile
  · refine .inr ⟨⟨.restoreDeleted, some (Key.ofNames names), true⟩, ?_, rfl, .inr rfl⟩
    have hm : Key.ofNames names ∈ (s.diff checksum t S root none).deleted := (mem_deleted h.plain.wellFormed).2 ⟨hk, hmeets⟩
    simp [RollbackPlan.changes, hm]

end Changes

end SnapshotStore

end TreeRepair
