import TreeRepair.Proofs.Snapshot.Completion
import TreeRepair.Proofs.Snapshot.Difference
import TreeRepair.Proofs.Snapshot.Emergency
import TreeRepair.Proofs.Snapshot.Eviction
import TreeRepair.Proofs.Snapshot.Record

/-! Captures and comparisons to the file. A capture holds just the files that are small enough or required, with
their bytes, and names all others; a comparison with any other tree lists just what is different among the files that
it looks at, whichever side of the limit a file is on by then. -/

set_option autoImplicit false

namespace TreeRepair

open Location Listing

namespace SnapshotStore

variable {s : SnapshotStore} {id : String} {t t₁ x y : Listing} {root : Location} {checksum : HashFunction}
  {required : List String} {S : Snapshot}

/-! ## What a capture holds -/

/-- Each file that a walk meets can be read. -/
def Readable (s : SnapshotStore) (t : Listing) (root : Location) : Prop :=
  ∀ names c, s.filter.Walks t root names c → t.read (root ++ names) = .ok c

theorem Records.mem_files (h : s.Records checksum t root required S) (hread : s.Readable t root) {k : String} :
    k ∈ S.files ↔ ∃ names c, s.Wanted t root required names c ∧ k = Key.ofNames names := by
  rw [h.files_eq, SortedMap.keys, List.mem_map]
  constructor
  · rintro ⟨⟨k', sum⟩, hm, rfl⟩
    obtain ⟨names, c, hw, -, rfl, -⟩ := (h.mem_checksums _ _).1 hm
    exact ⟨names, c, hw, rfl⟩
  · rintro ⟨names, c, hw, rfl⟩
    exact ⟨_, (h.mem_checksums _ _).2 ⟨names, c, hw, hread names c hw.walks, rfl, rfl⟩, rfl⟩

section Fill

variable (h : s.Plain t root) (hread : s.Readable t root) (hdir : t.isDir root = true) (hhid : s.Hidden root)
  (hcut : s.directory.IsCut) (hs : '/' ∉ id.toList) (hid : GoesDown id) {tag description : String} {timestamp : Nat}
  (hf : s.fill checksum t root (s.directory ++ [id]) required ⟨id, tag, description, timestamp, [], [], 0, []⟩ =
    (.ok S, y))

include h hread hdir hhid hcut hs hid hf

end Fill

/-! ## What a comparison lists -/

/-- The walks over two trees meet files with one key and the same bytes. -/
def Agrees (s : SnapshotStore) (t t₁ : Listing) (root : Location) (k : String) : Prop :=
  ∃ names names₁ c, s.filter.Walks t root names c ∧ s.filter.Walks t₁ root names₁ c ∧
    k = Key.ofNames names ∧ k = Key.ofNames names₁

/-- A tree whose files can be read and have keys of their own. -/
structure Legible (s : SnapshotStore) (t : Listing) (root : Location) : Prop extends s.Distinct t root where
  read : s.Readable t root

/-- What a comparison of the snapshot of one tree with another tree says. Which files there are is compared in full;
the bytes are compared for the first common keys. -/
structure Compared (s : SnapshotStore) (t t₁ : Listing) (root : Location) (S : Snapshot) (limit : Option Nat)
    (d : SnapshotDiff) : Prop where
  snapshot_eq : d.snapshot = S.id
  sorted : d.deleted.Pairwise (· < ·) ∧ d.added.Pairwise (· < ·) ∧ (s.common t₁ S root).Pairwise (· < ·)
  deleted : ∀ k, k ∈ d.deleted ↔ k ∈ S.files ∧ ¬ s.Meets t₁ root k
  added : ∀ k, k ∈ d.added ↔ s.Meets t₁ root k ∧ k ∉ S.files ∧ k ∉ S.skippedOversize
  common : ∀ k, k ∈ s.common t₁ S root ↔ k ∈ S.files ∧ s.Meets t₁ root k
  checked : d.checked = limit.elim (s.common t₁ S root).length (min · (s.common t₁ S root).length)
  sampled : d.sampled = true ↔ d.checked < (s.common t₁ S root).length
  ordered : d.modified.Sublist (limit.elim (s.common t₁ S root) (s.common t₁ S root).take)
  modified : s.Legible t₁ root → ∀ k, k ∈ d.modified ↔
    k ∈ limit.elim (s.common t₁ S root) (s.common t₁ S root).take ∧ ¬ s.Agrees t t₁ root k
  clean : s.Legible t₁ root → limit = none → (d.isClean = true ↔
    (∀ k ∈ S.files, s.Agrees t t₁ root k) ∧ ∀ k, s.Meets t₁ root k → k ∈ S.files ∨ k ∈ S.skippedOversize)

/-- The checksum has no collision between two files with one key in two trees. -/
def TellsApart (s : SnapshotStore) (checksum : HashFunction) (t t₁ : Listing) (root : Location) : Prop :=
  ∀ names names₁ c c₁, s.filter.Walks t root names c → s.filter.Walks t₁ root names₁ c₁ →
    Key.ofNames names = Key.ofNames names₁ → checksum c = checksum c₁ → c = c₁

section Compare

variable (hp : s.Plain t root) (hrec : s.Records checksum t root required S) (htell : s.TellsApart checksum t t₁ root)
  (hl : s.Legible t₁ root)

include hp hrec htell hl

/-- A file counts as modified just if it has not the bytes that were captured. -/
theorem isModified_iff {names : List String} {c : ByteArray} (hw : s.filter.Walks t₁ root names c)
    (hk : Key.ofNames names ∈ S.files) :
    isModified checksum t₁ S ⟨root ++ names, Key.ofNames names, c.size⟩ = true ↔
      ¬ s.Agrees t t₁ root (Key.ofNames names) := by
  rw [hrec.files_eq, SortedMap.keys, List.mem_map] at hk
  obtain ⟨⟨k, sum⟩, hm, hkey⟩ := hk
  obtain ⟨names₀, c₀, hw₀, -, rfl, rfl⟩ := (hrec.mem_checksums _ _).1 hm
  simp only at hkey
  have hget := hrec.sorted.get?_eq_some.2 hm
  rw [isModified, hl.read names c hw]
  simp only [← hkey, hget, bne_iff_ne, ne_eq, Option.some.injEq]
  refine not_congr ⟨fun hsum => ?_, ?_⟩
  · obtain rfl := htell _ _ _ _ hw₀.walks hw hkey hsum
    exact ⟨names₀, names, c₀, hw₀.walks, hw, rfl, hkey⟩
  · rintro ⟨names', names₁', c', hw', hw₁', heq, heq₁⟩
    obtain ⟨-, rfl⟩ := hp.inj hw₀.walks hw' heq
    obtain ⟨-, rfl⟩ := hl.inj _ _ _ _ hw hw₁' (hkey.symm.trans heq₁)
    rfl

theorem mem_modified_agrees {limit : Option Nat} {k : String} :
    k ∈ (s.diff checksum t₁ S root limit).modified ↔
      k ∈ limit.elim (s.common t₁ S root) (s.common t₁ S root).take ∧ ¬ s.Agrees t t₁ root k := by
  rw [mem_modified_iff hl.toDistinct]
  refine and_congr_right fun hk => ?_
  have hcommon : k ∈ s.common t₁ S root := by
    cases limit with
    | none => exact hk
    | some n => exact List.mem_of_mem_take hk
  obtain ⟨hfile, names, c, hw, rfl⟩ := (mem_common hl.wellFormed).1 hcommon
  constructor
  · rintro ⟨names', c', hw', heq, hmod⟩
    obtain ⟨rfl, rfl⟩ := hl.inj _ _ _ _ hw hw' heq
    exact (isModified_iff hp hrec htell hl hw hfile).1 hmod
  · exact fun hnot => ⟨names, c, hw, rfl, (isModified_iff hp hrec htell hl hw hfile).2 hnot⟩

theorem isClean_iff_agrees : (s.diff checksum t₁ S root none).isClean = true ↔
    (∀ k ∈ S.files, s.Agrees t t₁ root k) ∧ ∀ k, s.Meets t₁ root k → k ∈ S.files ∨ k ∈ S.skippedOversize := by
  rw [isClean_iff hl.toDistinct]
  constructor
  · rintro ⟨hfiles, hknown, hmod⟩
    refine ⟨fun k hk => ?_, hknown⟩
    obtain ⟨names, c, hw, rfl⟩ := hfiles k hk
    by_contra hnot
    have hmod' := (isModified_iff hp hrec htell hl hw hk).2 hnot
    rw [hmod names c hw hk] at hmod'
    cases hmod'
  · rintro ⟨hagree, hknown⟩
    refine ⟨fun k hk => ?_, hknown, fun names c hw hk => ?_⟩
    · obtain ⟨-, names, c, -, hw, -, hkey⟩ := hagree k hk
      exact ⟨names, c, hw, hkey⟩
    · rw [← Bool.not_eq_true]
      exact fun hmod => (isModified_iff hp hrec htell hl hw hk).1 hmod (hagree _ hk)

end Compare

theorem compared (hp : s.Plain t root) (hrec : s.Records checksum t root required S)
    (htell : s.TellsApart checksum t t₁ root) (ht₁ : t₁.WellFormed) (limit : Option Nat) :
    s.Compared t t₁ root S limit (s.diff checksum t₁ S root limit) where
  snapshot_eq := rfl
  sorted := ⟨(sortedSet_pairwise _).filter _, sorted_currentFiles.keys.filter _, common_pairwise⟩
  deleted _ := mem_deleted ht₁
  added _ := mem_added ht₁
  common _ := mem_common ht₁
  checked := checked_eq
  sampled := sampled_iff
  ordered := modified_sublist
  modified hl _ := mem_modified_agrees hp hrec htell hl
  clean hl hnone := by
    subst hnone
    exact isClean_iff_agrees hp hrec htell hl

/-! ## Right behind a capture -/

section Behind

variable (hp : s.Plain t root) (hread : s.Readable t root) (hdir : t.isDir root = true)
  (hrec : s.Records checksum t root required S) (hx : s.Unmoved root t x) (hwf : x.WellFormed)

include hp hdir hx hwf

theorem Unmoved.legible (hread : s.Readable t root) : s.Legible x root := by
  have hsame := hx.sameWalk hdir
  refine ⟨⟨hwf, fun ns ms c c' hn hm => hp.inj ((hsame _ _).1 hn) ((hsame _ _).1 hm)⟩, fun names c hw => ?_⟩
  have hw₀ := (hsame names c).1 hw
  have hmet : s.Met t root ⟨root ++ names, Key.ofNames names, c.size⟩ :=
    ⟨names, c, hw₀, hp.safe.keys names c hw₀, rfl⟩
  exact (hx.read_eq hp.wellFormed hmet).trans (hread names c hw₀)

include hread hrec

/-- Where the walk still meets the same, a comparison with a record of the tree lists nothing. -/
theorem Unmoved.isClean : (s.diff checksum x S root none).isClean = true := by
  have hsame := hx.sameWalk hdir
  have htell : s.TellsApart checksum t x root := by
    intro names names₁ c c₁ hw hw₁ hkey _
    exact (hp.inj hw ((hsame _ _).1 hw₁) hkey).2
  refine (isClean_iff_agrees hp hrec htell (hx.legible hp hdir hwf hread)).2 ⟨fun k hk => ?_, ?_⟩
  · obtain ⟨names, c, hw, rfl⟩ := (hrec.mem_files hread).1 hk
    exact ⟨names, names, c, hw.walks, (hsame _ _).2 hw.walks, rfl, rfl⟩
  · rintro k ⟨names, c, hw, rfl⟩
    have hw₀ := (hsame _ _).1 hw
    rw [hrec.mem_files hread, hrec.mem_skipped]
    by_cases htaken : c.size ≤ s.maxFileBytes ∨ Key.ofNames names ∈ required
    · exact .inl ⟨names, c, ⟨hw₀, htaken⟩, rfl⟩
    · rw [not_or, Nat.not_le] at htaken
      exact .inr ⟨names, c, hw₀, rfl, htaken.1, htaken.2⟩

end Behind

section Capture

variable {env : Surroundings} {w w' : World} {tag description : String}

end Capture

/-! ## A capture with a required file -/

/-- A project with a small file and two larger ones beside an empty store. -/
def mixed : Listing :=
  .dir "work" (.file "a.js" "old".toUTF8 (.file "b.js" "larger".toUTF8 (.file "c.js" "needed".toUTF8 .empty)))
    (.dir "shelf" .empty .empty)

end SnapshotStore

end TreeRepair
