import TreeRepair.Proofs.Snapshot.Capture
import TreeRepair.Snapshot.Rollback

/-! What a full comparison of a snapshot with a tree lists: each key stands in the list that its file's
place in the snapshot and in the tree asks for. -/

set_option autoImplicit false

namespace TreeRepair

open Location Listing

namespace SnapshotStore

variable {s : SnapshotStore} {checksum : HashFunction} {t : Listing} {root : Location} {S : Snapshot} {k : String}

/-- The walk meets a file with a key. -/
def Meets (s : SnapshotStore) (t : Listing) (root : Location) (k : String) : Prop :=
  ∃ names c, s.filter.Walks t root names c ∧ k = Key.ofNames names

/-- A tree where no two files of a walk have one key. -/
structure Distinct (s : SnapshotStore) (t : Listing) (root : Location) : Prop where
  wellFormed : t.WellFormed
  inj : ∀ ns ms c c', s.filter.Walks t root ns c → s.filter.Walks t root ms c' → Key.ofNames ns = Key.ofNames ms →
    ns = ms ∧ c = c'

theorem Plain.inj (h : s.Plain t root) {ns ms : List String} {c c' : ByteArray} (hn : s.filter.Walks t root ns c)
    (hm : s.filter.Walks t root ms c') (heq : Key.ofNames ns = Key.ofNames ms) : ns = ms ∧ c = c' := by
  obtain rfl := Key.ofNames_inj hn.ne_nil hm.ne_nil (hn.isName h.wellFormed) (hm.isName h.wellFormed)
    (h.names _ _ hn) (h.names _ _ hm) heq
  have hc := hn.isFile.symm.trans hm.isFile
  exact ⟨rfl, by simpa using hc⟩

/-- A file of the tree that a record names was to be held and could be read. -/
theorem Records.wanted {required : List String} (h : s.Records checksum t root required S) (hp : s.Plain t root)
    {names : List String} {c : ByteArray} (hw : s.filter.Walks t root names c) (hk : Key.ofNames names ∈ S.files) :
    s.Wanted t root required names c ∧ t.read (root ++ names) = .ok c := by
  rw [h.files_eq] at hk
  obtain ⟨⟨k, sum⟩, hm, heq⟩ := List.mem_map.1 hk
  obtain ⟨names', c', hwant, hread, rfl, -⟩ := (h.mem_checksums k sum).1 hm
  obtain ⟨rfl, rfl⟩ := hp.inj hw hwant.walks heq.symm
  exact ⟨hwant, hread⟩

theorem Plain.distinct (h : s.Plain t root) : s.Distinct t root := ⟨h.wellFormed, fun _ _ _ _ hn hm => h.inj hn hm⟩

theorem mem_walkPairs (ht : t.WellFormed) {f : TreeFile} :
    (k, f) ∈ (s.filter.walkFiles t root).map (fun f => (f.key, f)) ↔
      ∃ names c, s.filter.Walks t root names c ∧ k = Key.ofNames names ∧
        f = ⟨root ++ names, Key.ofNames names, c.size⟩ := by
  simp only [List.mem_map, SourceFilter.mem_walkFiles ht, Prod.mk.injEq]
  constructor
  · rintro ⟨f', ⟨names, c, hw, rfl⟩, rfl, rfl⟩
    exact ⟨names, c, hw, rfl, rfl⟩
  · rintro ⟨names, c, hw, rfl, rfl⟩
    exact ⟨_, ⟨names, c, hw, rfl⟩, rfl, rfl⟩

theorem mem_currentFiles (h : s.Distinct t root) {f : TreeFile} :
    (k, f) ∈ s.currentFiles t root ↔
      ∃ names c, s.filter.Walks t root names c ∧ k = Key.ofNames names ∧
        f = ⟨root ++ names, Key.ofNames names, c.size⟩ := by
  rw [currentFiles, SortedMap.mem_ofList, mem_walkPairs h.wellFormed]
  intro k f g hf hg
  obtain ⟨ns, c, hn, rfl, rfl⟩ := (mem_walkPairs h.wellFormed).1 hf
  obtain ⟨ms, c', hm, heq, rfl⟩ := (mem_walkPairs h.wellFormed).1 hg
  obtain ⟨rfl, rfl⟩ := h.inj _ _ _ _ hn hm heq
  rfl

theorem mem_keys_currentFiles (ht : t.WellFormed) : k ∈ (s.currentFiles t root).keys ↔ s.Meets t root k := by
  rw [currentFiles, SortedMap.mem_keys_ofList, List.mem_map]
  constructor
  · rintro ⟨⟨k', f⟩, hf, rfl⟩
    obtain ⟨names, c, hw, rfl, -⟩ := (mem_walkPairs ht).1 hf
    exact ⟨names, c, hw, rfl⟩
  · rintro ⟨names, c, hw, rfl⟩
    exact ⟨_, (mem_walkPairs ht).2 ⟨names, c, hw, rfl, rfl⟩, rfl⟩

/-! ## The lists of a comparison -/

section Lists

variable {limit : Option Nat}

theorem mem_deleted (ht : t.WellFormed) :
    k ∈ (s.diff checksum t S root limit).deleted ↔ k ∈ S.files ∧ ¬ s.Meets t root k := by
  simp only [diff, List.mem_filter, mem_sortedSet, Bool.not_eq_true']
  rw [← mem_keys_currentFiles ht, ← SortedMap.contains_iff, Bool.not_eq_true]

theorem mem_added (ht : t.WellFormed) :
    k ∈ (s.diff checksum t S root limit).added ↔
      s.Meets t root k ∧ k ∉ S.files ∧ k ∉ S.skippedOversize := by
  simp only [diff, List.mem_filter, mem_keys_currentFiles ht, Bool.and_eq_true, Bool.not_eq_true',
    List.contains_eq_mem, decide_eq_false_iff_not]

/-- The keys that are both in a snapshot and in a tree, in order. -/
def common (s : SnapshotStore) (t : Listing) (S : Snapshot) (root : Location) : List String :=
  (s.currentFiles t root).keys.filter S.files.contains

theorem mem_common (ht : t.WellFormed) : k ∈ s.common t S root ↔ k ∈ S.files ∧ s.Meets t root k := by
  rw [common, List.mem_filter, mem_keys_currentFiles ht, List.contains_eq_mem, decide_eq_true_eq, and_comm]

theorem sorted_currentFiles : (s.currentFiles t root).Sorted := SortedMap.sorted_ofList _

theorem common_pairwise : (s.common t S root).Pairwise (· < ·) := sorted_currentFiles.keys.filter _

/-- The keys of the files that are compared are the first common ones. -/
theorem keys_compared (limit : Option Nat) :
    (limit.elim ((s.currentFiles t root).filter fun (key, _) => S.files.contains key)
      ((s.currentFiles t root).filter fun (key, _) => S.files.contains key).take).map (·.1) =
      limit.elim (s.common t S root) (s.common t S root).take := by
  have hboth : ((s.currentFiles t root).filter fun (key, _) => S.files.contains key).map (·.1) = s.common t S root := by
    rw [common, SortedMap.keys, List.filter_map]
    rfl
  cases limit with
  | none => exact hboth
  | some n => rw [Option.elim_some, Option.elim_some, List.map_take, hboth]

theorem checked_eq :
    (s.diff checksum t S root limit).checked = limit.elim (s.common t S root).length (min · (s.common t S root).length) := by
  have hlen := congrArg List.length (@keys_compared s t root S limit)
  rw [List.length_map] at hlen
  rw [diff]
  simp only
  rw [hlen]
  cases limit with
  | none => rfl
  | some n => exact List.length_take

theorem sampled_iff : (s.diff checksum t S root limit).sampled = true ↔
    (s.diff checksum t S root limit).checked < (s.common t S root).length := by
  have hlen := congrArg List.length (@keys_compared s t root S none)
  rw [List.length_map] at hlen
  simp only [Option.elim_none] at hlen
  rw [← hlen, diff]
  simp

theorem modified_sublist :
    (s.diff checksum t S root limit).modified.Sublist (limit.elim (s.common t S root) (s.common t S root).take) := by
  rw [← keys_compared, diff]
  exact (List.filter_sublist ..).map _

/-- A compared file is listed as modified if its content has another checksum. -/
theorem mem_modified_iff (h : s.Distinct t root) :
    k ∈ (s.diff checksum t S root limit).modified ↔
      k ∈ limit.elim (s.common t S root) (s.common t S root).take ∧
        ∃ names c, s.filter.Walks t root names c ∧ k = Key.ofNames names ∧
          isModified checksum t S ⟨root ++ names, Key.ofNames names, c.size⟩ = true := by
  have hpart : ∀ f, (k, f) ∈ limit.elim ((s.currentFiles t root).filter fun (key, _) => S.files.contains key)
      ((s.currentFiles t root).filter fun (key, _) => S.files.contains key).take ↔
      k ∈ limit.elim (s.common t S root) (s.common t S root).take ∧ (k, f) ∈ s.currentFiles t root := by
    intro f
    rw [sorted_currentFiles.mem_of_sublist, SortedMap.keys, keys_compared]
    cases limit with
    | none => exact List.filter_sublist
    | some n => exact (List.take_sublist _ _).trans List.filter_sublist
  simp only [diff, List.mem_map, List.mem_filter]
  constructor
  · rintro ⟨⟨k', f⟩, ⟨hf, hmod⟩, rfl⟩
    obtain ⟨hk, hcur⟩ := (hpart f).1 hf
    obtain ⟨names, c, hw, hkey, rfl⟩ := (mem_currentFiles h).1 hcur
    exact ⟨hk, names, c, hw, hkey, hmod⟩
  · rintro ⟨hk, names, c, hw, hkey, hmod⟩
    exact ⟨(k, _), ⟨(hpart _).2 ⟨hk, (mem_currentFiles h).2 ⟨names, c, hw, hkey, rfl⟩⟩, hmod⟩, rfl⟩

end Lists

theorem mem_modified (h : s.Distinct t root) :
    k ∈ (s.diff checksum t S root none).modified ↔
      ∃ names c, s.filter.Walks t root names c ∧ k = Key.ofNames names ∧ k ∈ S.files ∧
        isModified checksum t S ⟨root ++ names, Key.ofNames names, c.size⟩ = true := by
  rw [mem_modified_iff h, Option.elim_none, mem_common h.wellFormed]
  constructor
  · rintro ⟨⟨hk, -⟩, names, c, hw, hkey, hmod⟩
    exact ⟨names, c, hw, hkey, hk, hmod⟩
  · rintro ⟨names, c, hw, hkey, hk, hmod⟩
    exact ⟨⟨hk, names, c, hw, hkey⟩, names, c, hw, hkey, hmod⟩

/-- A comparison lists nothing when all stored files are there unchanged and no others are. -/
theorem isClean_iff (h : s.Distinct t root) :
    (s.diff checksum t S root none).isClean = true ↔
      (∀ k ∈ S.files, s.Meets t root k) ∧
      (∀ k, s.Meets t root k → k ∈ S.files ∨ k ∈ S.skippedOversize) ∧
      ∀ names c, s.filter.Walks t root names c → Key.ofNames names ∈ S.files →
        isModified checksum t S ⟨root ++ names, Key.ofNames names, c.size⟩ = false := by
  simp only [SnapshotDiff.isClean, Bool.and_eq_true, List.isEmpty_iff, List.eq_nil_iff_forall_not_mem,
    mem_deleted h.wellFormed, mem_added h.wellFormed, mem_modified h]
  constructor
  · rintro ⟨⟨hdel, hadd⟩, hmod⟩
    refine ⟨fun k hk => ?_, fun k hk => ?_, fun names c hw hk => ?_⟩
    · by_contra hnot
      exact hdel k ⟨hk, hnot⟩
    · by_contra hnot
      exact hadd k ⟨hk, not_or.1 hnot⟩
    · by_contra hnot
      exact hmod _ ⟨names, c, hw, rfl, hk, by simpa using hnot⟩
  · rintro ⟨hdel, hadd, hmod⟩
    refine ⟨⟨?_, ?_⟩, ?_⟩
    · rintro k ⟨hk, hnot⟩
      exact hnot (hdel k hk)
    · rintro k ⟨hk, hnot⟩
      exact not_or.2 hnot (hadd k hk)
    · rintro k ⟨names, c, hw, rfl, hk, hm⟩
      simp [hmod names c hw hk] at hm

end SnapshotStore

theorem RollbackPlan.isEmpty_ofDiff {S : Snapshot} {d : SnapshotDiff} (h : d.isClean = true) :
    (RollbackPlan.ofDiff S d).isEmpty = true := by
  simp only [SnapshotDiff.isClean, Bool.and_eq_true, List.isEmpty_iff] at h
  obtain ⟨⟨h1, h2⟩, h3⟩ := h
  simp [RollbackPlan.isEmpty, RollbackPlan.ofDiff, h1, h2, h3]

end TreeRepair
