import TreeRepair.Proofs.FileTree.Pruning
import TreeRepair.Proofs.Snapshot.Record
import TreeRepair.Proofs.Workflow.DryRun

/-! What a passed check of the disk says about the next snapshot. The size of a snapshot is estimated by a mean that is
cut to a whole number before it is multiplied. Doubling makes up for what is cut off as long as there is a byte for each
file: then space that the check finds enough, with or without eviction, holds the next snapshot. With fewer bytes than
files the mean is zero, and the check passes whatever space there is. -/

set_option autoImplicit false

namespace TreeRepair

open Location Listing

namespace SnapshotStore

variable {s : SnapshotStore} {id : String} {t x y : Listing} {root : Location}

/-! ## The bytes of a snapshot -/

/-- The number of bytes of the files that a snapshot of a tree takes. -/
def eligibleBytes (s : SnapshotStore) (t : Listing) (root : Location) : Nat :=
  ((s.eligible t root).1.map (·.size)).sum

/-- Each file of the second tree is one of the first tree, with the same bytes. -/
def Fewer (t x : Listing) : Prop := ∀ q c, x.shapeAt? q = some (.file c) → t.shapeAt? q = some (.file c)

theorem Fewer.walks (h : Fewer t x) (hroot : Rooted t root) {names : List String} {c : ByteArray}
    (hw : s.filter.Walks x root names c) : s.filter.Walks t root names c := by
  have hfile := h _ c hw.isFile
  exact hw.mono (hroot.resolve_right fun hnot => hnot names c hw.ne_nil hfile) hfile

theorem mem_eligible (hx : x.WellFormed) {f : TreeFile} : f ∈ (s.eligible x root).1 ↔ ∃ names c,
    s.filter.Walks x root names c ∧ c.size ≤ s.maxFileBytes ∧ f = ⟨root ++ names, Key.ofNames names, c.size⟩ := by
  simp only [eligible, List.partition_eq_filter_filter, List.mem_filter, SourceFilter.mem_walkFiles hx]
  constructor
  · rintro ⟨⟨names, c, hw, rfl⟩, hsmall⟩
    exact ⟨names, c, hw, by simpa using hsmall, rfl⟩
  · rintro ⟨names, c, hw, hsmall, rfl⟩
    exact ⟨⟨names, c, hw, rfl⟩, by simpa using hsmall⟩

theorem nodup_eligible (hx : x.WellFormed) : (s.eligible x root).1.Nodup := by
  rw [eligible, List.partition_eq_filter_filter]
  exact (s.filter.walkFiles_nodup hx root).filter _

theorem Fewer.eligibleBytes_le (h : Fewer t x) (hroot : Rooted t root) (ht : t.WellFormed) (hx : x.WellFormed) :
    s.eligibleBytes x root ≤ s.eligibleBytes t root := by
  have hsub : ∀ f ∈ (s.eligible x root).1, f ∈ (s.eligible t root).1 := fun f hf => by
    obtain ⟨names, c, hw, hsmall, rfl⟩ := (mem_eligible hx).1 hf
    exact (mem_eligible ht).2 ⟨names, c, h.walks hroot hw, hsmall, rfl⟩
  have hperm : (s.eligible x root).1.Perm ((s.eligible t root).1.filter (· ∈ (s.eligible x root).1)) := by
    refine (List.perm_ext_iff_of_nodup (nodup_eligible hx) ((nodup_eligible ht).filter _)).2 fun f => ?_
    rw [List.mem_filter, decide_eq_true_eq]
    exact ⟨fun hf => ⟨hsub f hf, hf⟩, And.right⟩
  rw [eligibleBytes, eligibleBytes, (hperm.map _).sum_nat]
  exact SourceFilter.sum_filter_le _ _ _

/-! ## The bytes of the next snapshot -/

/-- A tree with the same files outside the directory of a new snapshot. -/
structure Spared (s : SnapshotStore) (id : String) (root : Location) (t x : Listing) : Prop where
  isDir : x.isDir root = true
  file : ∀ q c, ¬ s.directory.settled ++ [id] <+: q →
    (x.shapeAt? q = some (.file c) ↔ t.shapeAt? q = some (.file c))

theorem Spared.createDirs (h : s.Spared id root t x) (l : Location) : s.Spared id root t (x.createDirs l).2 :=
  ⟨isDir_createDirs h.isDir l, fun q c hq => shapeAt?_createDirs_file.trans (h.file q c hq)⟩

theorem Spared.write (h : s.Spared id root t x) {l : Location} {c : ByteArray} (hw : x.write l c = .ok y)
    (hl : s.directory.settled ++ [id] <+: l.settled) : s.Spared id root t y := by
  obtain ⟨hlead, hdir⟩ := isDir_eq_true.1 h.isDir
  have hdirs : ∀ q, x.shapeAt? q = some .dir → y.shapeAt? q = some .dir := fun q => (shapeAt?_write_dir hw).2
  refine ⟨isDir_eq_true.2 ⟨hlead.mono hdirs, hdirs _ hdir⟩, fun q c' hq => ?_⟩
  have hne : q ≠ l.settled := fun heq => hq (heq ▸ hl)
  rw [shapeAt?_write hw, if_neg hne, h.file q c' hq]

/-- A tree with safe keys whose files lie outside the directory that a snapshot is going to have. -/
structure Clear (s : SnapshotStore) (t : Listing) (root : Location) (id : String) : Prop where
  cut : s.directory.IsCut
  rooted : Rooted t root
  safe : s.Safe t root
  noSlash : '/' ∉ id.toList
  goesDown : GoesDown id
  apart : ∀ names c, s.filter.Walks t root names c → ¬ s.directory.settled ++ [id] <+: root.settled ++ names

/-- Copying changes nothing that it reads later. -/
theorem Clear.steady (h : s.Clear t root id) (hx : Fewer t x) (hwf : x.WellFormed) {fs : List TreeFile}
    (hfs : ∀ f ∈ fs, ∃ names c, s.filter.Walks x root names c ∧ f = ⟨root ++ names, Key.ofNames names, c.size⟩) :
    s.Steady id x fs (s.Spared id root x) where
  safe f hf := by
    obtain ⟨names, c, hw, rfl⟩ := hfs f hf
    exact h.safe.keys names c (hx.walks h.rooted hw)
  read y hy f hf := by
    obtain ⟨names, c, hw, rfl⟩ := hfs f hf
    have hn := hw.isName hwf
    have hkept := (hy.file _ c (h.apart names c (hx.walks h.rooted hw))).2 hw.isFile
    exact ((hw.mono hy.isDir hkept).read_eq hn).trans (hw.read_eq hn).symm
  make y hy f _ := hy.createDirs _
  write y z c hy f hf hw := by
    refine hy.write hw ?_
    obtain ⟨names, c', hw', rfl⟩ := hfs f hf
    rw [settled_copyPlace (h.safe.keys names c' (hx.walks h.rooted hw')) h.goesDown, copiesPlace]
    exact ⟨filesName :: Key.steps (Key.ofNames names), by simp⟩

theorem Clear.totalBytes_fill_le (h : s.Clear t root id) {left : Listing} (hleft : Fewer t left)
    (hwf : left.WellFormed) {checksum : HashFunction} {tag description : String} {timestamp : Nat} {S : Snapshot}
    (hf : s.fill checksum left root (s.directory ++ [id]) [] ⟨id, tag, description, timestamp, [], [], 0, []⟩ =
      (.ok S, y)) : S.totalBytes ≤ s.eligibleBytes t root := by
  obtain ⟨x, filled, z, hcd, hcopy, rfl, -⟩ := fill_eq_ok hf
  have hmade : x = (left.createDirs (s.directory ++ [id] ++ [filesName])).2 := by rw [hcd]
  have hx : Fewer t x := fun q c hq => hleft q c (shapeAt?_createDirs_file.1 (hmade ▸ hq))
  have hxwf : x.WellFormed := hmade ▸ hwf.createDirs ((h.cut.append_name h.noSlash).append_name (by decide))
  have hperm : (s.copyList x root []).Perm (s.eligible x root).1 := by
    refine (List.mergeSort_perm _ _).trans (List.Perm.of_eq ?_)
    simp [List.partition_eq_filter_filter]
  have hfs : ∀ f ∈ s.copyList x root [], ∃ names c,
      s.filter.Walks x root names c ∧ f = ⟨root ++ names, Key.ofNames names, c.size⟩ := fun f hf => by
    obtain ⟨names, c, hw, -, hf⟩ := (mem_eligible hxwf).1 (hperm.mem_iff.1 hf)
    exact ⟨names, c, hw, hf⟩
  have hsizes : ((s.copyList x root []).map (·.size)).sum ≤ s.eligibleBytes t root := by
    rw [(hperm.map _).sum_nat]
    exact hx.eligibleBytes_le h.rooted h.safe.wellFormed hxwf
  by_cases hdir : x.isDir root = true
  · obtain ⟨hfold, -⟩ := copyAll_ok checksum [] h.goesDown _ _ x (h.steady hx hxwf hfs) ⟨hdir, fun _ _ _ => Iff.rfl⟩
      filled z hcopy
    rw [enter_foldl] at hfold
    have hread := sum_contents_le_sizes hxwf hfs
    rw [hfold]
    simp only [Nat.zero_add]
    omega
  · -- nothing is copied where the root is no directory
    have hnil : s.copyList x root [] = [] := List.eq_nil_iff_forall_not_mem.2 fun f hf => by
      obtain ⟨names, c, hw, -⟩ := hfs f hf
      exact hdir hw.isDir
    rw [hnil] at hcopy
    obtain rfl := Except.ok.inj (Prod.mk.inj hcopy).1
    exact Nat.zero_le _

/-- A world in which the next snapshot copies only what a walk over a tree has met. -/
structure Foreseen (s : SnapshotStore) (env : Surroundings) (w : World) (t : Listing) (root : Location) : Prop where
  hex : ∀ c ∈ (w.freshId env).toList, Digest.isHexDigit c = true ∨ c = '-'
  cut : s.directory.IsCut
  rooted : Rooted t root
  safe : s.Safe t root
  apart : ∀ timestamp names c, s.filter.Walks t root names c →
    ¬ s.directory.settled ++ [idOf timestamp (w.freshId env)] <+: root.settled ++ names

theorem Foreseen.totalBytes_le {env : Surroundings} {w w' : World} {tag description : String} {S : Snapshot}
    (h : s.Foreseen env w t root) (hleft : Fewer t w.files) (hwf : w.files.WellFormed)
    (hc : s.create env w root tag description = (.ok S, w')) : S.totalBytes ≤ s.eligibleBytes t root := by
  obtain ⟨made, hcap⟩ := capture_of_create hc
  obtain ⟨timestamp, hfill⟩ := fill_of_capture h.hex hcap
  have hclear : s.Clear t root (idOf timestamp (w.freshId env)) :=
    ⟨h.cut, h.rooted, h.safe, noSlash_idOf h.hex, goesDown_idOf, h.apart timestamp⟩
  exact hclear.totalBytes_fill_le hleft hwf hfill

theorem Fewer.evict (s : SnapshotStore) (t : Listing) (keep : Nat) : Fewer t (s.evict t keep).2 := by
  intro q c hq
  obtain hsame | ⟨-, hnone⟩ := (s.bounded t).evict keep q
  · rwa [← hsame]
  · rw [hnone] at hq
    cases hq

end SnapshotStore

namespace Preflight

open SnapshotStore (Fewer eligibleBytes)

variable (config : Config) (store : SnapshotStore) (facts : HostFacts) (w : World) (root : Location) (dryRun : Bool)

/-! ## The estimate -/

theorem lt_mean_mul_two {sum count : Nat} (hpos : 0 < count) (h : count ≤ sum) : sum < sum / count * count * 2 := by
  have hdiv := Nat.div_add_mod' sum count
  have hrest := Nat.mod_lt sum hpos
  have hmean : count ≤ sum / count * count := Nat.le_mul_of_pos_left count (Nat.div_pos h hpos)
  omega

variable {store root} in
theorem estimateBytes_eq {files : Listing} {sample : Nat} (h : (store.eligible files root).1.length ≤ sample) :
    estimateBytes store files root sample =
      store.eligibleBytes files root / (store.eligible files root).1.length * (store.eligible files root).1.length := by
  have hall : ((store.eligible files root).1.map (·.size)).length ≤ max sample 1 := by
    rw [List.length_map]
    omega
  rw [estimateBytes, List.take_of_length_le hall, ← List.sum_eq_foldl, List.length_map, eligibleBytes]

/-- The space that the check wants. -/
def requiredBytes (config : Config) (store : SnapshotStore) (files : Listing) (root : Location) : Nat :=
  clampBytes (estimateBytes store files root config.diskSampleFiles * 2)

theorem lt_of_clampBytes_lt {n m : Nat} (h : clampBytes n < m) (hm : m < byteBound) : n < m := by
  unfold clampBytes at h
  omega

theorem clampBytes_lt (n : Nat) : clampBytes n < byteBound := by
  have hpos : 0 < byteBound := by decide
  unfold clampBytes
  omega

theorem clampBytes_le (n : Nat) : clampBytes n ≤ n := Nat.min_le_left ..

theorem clampBytes_eq_zero {n : Nat} : clampBytes n = 0 ↔ n = 0 := by
  have hpos : 1 < byteBound := by decide
  unfold clampBytes
  omega

/-- A tree needs no space if and only if it has fewer bytes than files, or no files. -/
theorem required_eq_zero {sum count : Nat} : clampBytes (sum / count * count * 2) = 0 ↔ sum < count ∨ count = 0 := by
  rw [clampBytes_eq_zero, Nat.mul_eq_zero, Nat.mul_eq_zero, Nat.div_eq_zero_iff]
  omega

theorem lt_of_required_lt {sum count m : Nat} (hpos : 0 < count) (hle : count ≤ sum)
    (h : clampBytes (sum / count * count * 2) < m) (hm : m < byteBound) : sum < m :=
  Nat.lt_trans (lt_mean_mul_two hpos hle) (lt_of_clampBytes_lt h hm)

/-! ## The check -/

theorem not_passed_of_remedied {c : CheckResult} (h : c.remedied = true) : c.passed ≠ true := by
  intro hpassed
  rw [CheckResult.remedied, Option.isNone_iff_eq_none.1 hpassed] at h
  cases h

section Free

variable {facts} {free : Nat} (hfree : facts.freeDiskBytes = some free)

include hfree

theorem passed_checkDisk : (checkDisk config store facts w root dryRun).1.passed = true ↔
    requiredBytes config store w.files root < free ∨ requiredBytes config store w.files root = 0 := by
  have henough : requiredBytes config store w.files root < free ∨ requiredBytes config store w.files root = 0 ↔
      (decide (requiredBytes config store w.files root < free) || requiredBytes config store w.files root == 0) = true := by
    simp
  rw [henough]
  unfold checkDisk requiredBytes
  simp only [hfree]
  split
  · rename_i henough
    exact iff_of_true rfl henough
  · rename_i hshort
    refine iff_of_false ?_ hshort
    split <;> simp [CheckResult.passed]

theorem remedied_checkDisk (h : (checkDisk config store facts w root dryRun).1.remedied = true) :
    ∃ e, (store.evict w.files 1).1 = .ok e ∧
      requiredBytes config store w.files root < clampBytes (free + e.freedBytes) := by
  unfold checkDisk at h
  simp only [hfree] at h
  split at h
  · simp [CheckResult.remedied] at h
  · cases dryRun with
    | true => simp [CheckResult.remedied, Remedy.manual] at h
    | false =>
      simp only [Bool.false_eq_true, if_false, CheckResult.remedied, Option.any_some, evictOld] at h
      cases hevict : store.evict w.files 1 with
      | mk res left =>
        cases res with
        | error e => simp [hevict] at h
        | ok e => exact ⟨e, rfl, by simpa [hevict, requiredBytes] using h⟩

end Free

theorem fewer_checkDisk (hwf : w.files.WellFormed) : Fewer w.files (checkDisk config store facts w root dryRun).2.files ∧
    (checkDisk config store facts w root dryRun).2.files.WellFormed := by
  cases dryRun with
  | true =>
    rw [checkDisk_dry]
    exact ⟨fun _ _ hq => hq, hwf⟩
  | false =>
    obtain ⟨-, hsame⟩ | ⟨-, hevicted⟩ := checkDisk_world config store facts w root
    · rw [hsame]
      exact ⟨fun _ _ hq => hq, hwf⟩
    · rw [hevicted]
      exact ⟨Fewer.evict store w.files 1, SnapshotStore.evict_wellFormed hwf 1⟩

/-! ## Room for the next snapshot -/

/-- What the check says about the next snapshot, where the free space is known and all files are in the sample. -/
structure Covers (config : Config) (store : SnapshotStore) (facts : HostFacts) (w : World) (root : Location)
    (dryRun : Bool) (free : Nat) : Prop where
  /-- The next snapshot copies no more bytes than the tree has for it. -/
  next : ∀ env w' w'' tag description S, w'.files = (checkDisk config store facts w root dryRun).2.files →
    store.Foreseen env w' w.files root → store.create env w' root tag description = (.ok S, w'') →
    S.totalBytes ≤ store.eligibleBytes w.files root
  passed : (store.eligible w.files root).1.length ≤ store.eligibleBytes w.files root →
    (checkDisk config store facts w root dryRun).1.passed = true → store.eligibleBytes w.files root ≤ free
  remedied : (checkDisk config store facts w root dryRun).1.remedied = true →
    ∃ e, (store.evict w.files 1).1 = .ok e ∧ store.eligibleBytes w.files root ≤ free + e.freedBytes
  /-- With fewer bytes than files the check passes, whatever is free. -/
  missed : store.eligibleBytes w.files root < (store.eligible w.files root).1.length →
    (checkDisk config store facts w root dryRun).1.passed = true
  /-- It misses by fewer bytes than there are files. -/
  nearly : (checkDisk config store facts w root dryRun).1.passed = true →
    store.eligibleBytes w.files root ≤ free + (store.eligible w.files root).1.length

/-- Space that the check finds enough holds the next snapshot, unless there are fewer bytes than files. -/
theorem checkDisk_covers {config : Config} {store : SnapshotStore} {facts : HostFacts} {w : World} {root : Location}
    {free : Nat} (hwf : w.files.WellFormed)
    (hsample : (store.eligible w.files root).1.length ≤ config.diskSampleFiles)
    (hfree : facts.freeDiskBytes = some free) (hbound : free < byteBound) (dryRun : Bool) :
    Covers config store facts w root dryRun free := by
  have hestimate : requiredBytes config store w.files root = clampBytes (store.eligibleBytes w.files root /
      (store.eligible w.files root).1.length * (store.eligible w.files root).1.length * 2) := by
    rw [requiredBytes, estimateBytes_eq hsample]
  have hpassed := passed_checkDisk config store w root dryRun hfree
  have hempty : (store.eligible w.files root).1.length = 0 → store.eligibleBytes w.files root = 0 := fun h => by
    rw [eligibleBytes, List.eq_nil_of_length_eq_zero h]
    rfl
  rw [hestimate, required_eq_zero] at hpassed
  generalize hcount : (store.eligible w.files root).1.length = count at hestimate hpassed hempty
  have hcovered : count ≤ store.eligibleBytes w.files root →
      (checkDisk config store facts w root dryRun).1.passed = true → store.eligibleBytes w.files root ≤ free := by
    intro hle h
    obtain hlt | hfew | hnone := hpassed.1 h
    · by_cases hpos : 0 < count
      · exact Nat.le_of_lt (lt_of_required_lt hpos hle hlt hbound)
      · rw [hempty (Nat.eq_zero_of_not_pos hpos)]
        exact Nat.zero_le free
    · exact absurd hle (Nat.not_le.2 hfew)
    · rw [hempty hnone]
      exact Nat.zero_le free
  refine ⟨fun env w' w'' tag description S hsame hnext hc => ?_, hcount ▸ hcovered, fun h => ?_, fun h => ?_, fun h => ?_⟩
  · obtain ⟨hfewer, hleft⟩ := fewer_checkDisk config store facts w root dryRun hwf
    rw [← hsame] at hfewer hleft
    exact hnext.totalBytes_le hfewer hleft hc
  · -- a check that needs a remedy has failed, and then there are as many bytes as files
    have hshort := mt hpassed.2 (not_passed_of_remedied h)
    obtain ⟨e, hevict, hlt⟩ := remedied_checkDisk config store w root dryRun hfree h
    rw [hestimate] at hlt
    have henough := lt_of_required_lt (by omega) (by omega) hlt (clampBytes_lt _)
    exact ⟨e, hevict, Nat.le_of_lt (Nat.lt_of_lt_of_le henough (clampBytes_le _))⟩
  · exact hpassed.2 (.inr (.inl (hcount ▸ h)))
  · obtain hlt | hle := Nat.lt_or_ge (store.eligibleBytes w.files root) count
    · omega
    · exact Nat.le_trans (hcovered hle h) (Nat.le_add_right ..)

/-- A project with a file of one byte and an empty one, beside an empty store. -/
def sparse : Listing :=
  .dir "work" (.file "a.js" "x".toUTF8 (.file "b.js" "".toUTF8 .empty)) (.dir "shelf" .empty .empty)

/-- With no space at all the check passes, though a snapshot has a byte to take. -/
theorem checkDisk_covers_sparse : sparse.WellFormed ∧
    (SnapshotStore.shelf.eligible sparse ["work"]).1.length ≤ Config.default.diskSampleFiles ∧
    Covers Config.default SnapshotStore.shelf ⟨none, some 0, none, none⟩ ⟨sparse, 0, 0⟩ ["work"] false 0 ∧
    (checkDisk Config.default SnapshotStore.shelf ⟨none, some 0, none, none⟩ ⟨sparse, 0, 0⟩ ["work"] false).1.passed = true ∧
    SnapshotStore.shelf.eligibleBytes sparse ["work"] = 1 := by
  have hwf : sparse.WellFormed := by decide
  have hall : SnapshotStore.shelf.filter.walkFiles sparse ["work"] =
      [⟨["work", "a.js"], "a.js", 1⟩, ⟨["work", "b.js"], "b.js", 0⟩] :=
    (SourceFilter.walkFiles_eq rfl).trans (KeyOrder.mergeSort_eq_of_perm TreeFile.key (by decide +kernel) (by decide))
  have hsizes : (SnapshotStore.shelf.eligible sparse ["work"]).1.map (·.size) = [1, 0] := by
    rw [SnapshotStore.eligible, hall]
    decide
  have hcount : (SnapshotStore.shelf.eligible sparse ["work"]).1.length = 2 := by
    rw [← List.length_map (·.size), hsizes]
    rfl
  have hbytes : SnapshotStore.shelf.eligibleBytes sparse ["work"] = 1 := by
    rw [eligibleBytes, hsizes]
    rfl
  have hsample : (SnapshotStore.shelf.eligible sparse ["work"]).1.length ≤ Config.default.diskSampleFiles := by
    rw [hcount]
    decide
  have hcovers : Covers Config.default SnapshotStore.shelf ⟨none, some 0, none, none⟩ ⟨sparse, 0, 0⟩ ["work"] false 0 :=
    checkDisk_covers hwf hsample rfl (by decide) false
  exact ⟨hwf, hsample, hcovers, hcovers.missed (by rw [hcount, hbytes]; decide), hbytes⟩

end Preflight

end TreeRepair
