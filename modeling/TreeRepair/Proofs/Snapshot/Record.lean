import TreeRepair.Proofs.Snapshot.Capture

/-! What the manifest of a new snapshot records. For this it does not matter whether the store has been
there before, as long as no walk leads into it. -/

set_option autoImplicit false

namespace TreeRepair

open Location Listing

namespace SnapshotStore

variable {s : SnapshotStore} {id : String} {t x y : Listing} {root : Location} {checksum : HashFunction}
  {required : List String}

/-- No walk below a root leads into the directory of a store. -/
def Hidden (s : SnapshotStore) (root : Location) : Prop :=
  ∀ names m ms, s.filter.Enters root [] names → s.directory.settled ++ m :: ms ≠ root.settled ++ names

/-- A tree with the same files on the ways of a walk. -/
structure Unmoved (s : SnapshotStore) (root : Location) (t x : Listing) : Prop where
  isDir : x.isDir root = true
  file : ∀ names c, s.filter.Enters root [] names →
    (x.shapeAt? (root.settled ++ names) = some (.file c) ↔ t.shapeAt? (root.settled ++ names) = some (.file c))

theorem Unmoved.sameWalk (h : s.Unmoved root t x) (hdir : t.isDir root = true) : s.SameWalk t x root :=
  fun names c => ⟨fun hw => hw.mono hdir ((h.file names c hw.enters).1 hw.isFile),
    fun hw => hw.mono h.isDir ((h.file names c hw.enters).2 hw.isFile)⟩

theorem Unmoved.createDirs (h : s.Unmoved root t x) (l : Location) : s.Unmoved root t (x.createDirs l).2 := by
  obtain ⟨hlead, hdir⟩ := isDir_eq_true.1 h.isDir
  refine ⟨isDir_eq_true.2 ⟨hlead.mono fun q hq => shapeAt?_createDirs_dir hq, shapeAt?_createDirs_dir hdir⟩, ?_⟩
  exact fun names c he => shapeAt?_createDirs_file.trans (h.file names c he)

theorem Unmoved.write (h : s.Unmoved root t x) (hhid : s.Hidden root) {l : Location} {c : ByteArray}
    (hw : x.write l c = .ok y) (m : String) (ms : List String) (hl : l.settled = s.directory.settled ++ m :: ms) :
    s.Unmoved root t y := by
  have hshape := shapeAt?_write hw
  have hnodir := (write_eq_ok hw).2.2.1
  have hdirs : ∀ q, x.shapeAt? q = some .dir → y.shapeAt? q = some .dir := fun q hq => by
    rw [hshape, if_neg (by rintro rfl; exact hnodir hq), hq]
  obtain ⟨hlead, hdir⟩ := isDir_eq_true.1 h.isDir
  refine ⟨isDir_eq_true.2 ⟨hlead.mono hdirs, hdirs _ hdir⟩, fun names c' he => ?_⟩
  rw [hshape, if_neg (by rw [hl]; exact (hhid names m ms he).symm), h.file names c' he]

theorem Unmoved.read_eq (h : s.Unmoved root t x) (ht : t.WellFormed) {f : TreeFile} (hf : s.Met t root f) :
    x.read f.location = t.read f.location := by
  obtain ⟨names, c, hw, -, rfl⟩ := hf
  have hn := hw.isName ht
  have hx : s.filter.Walks x root names c := hw.mono h.isDir ((h.file names c hw.enters).2 hw.isFile)
  exact (hx.read_eq hn).trans (hw.read_eq hn).symm

/-- No walk leads to a copy, so copying does not change what is read of the files that it copies. -/
theorem Unmoved.steady (hhid : s.Hidden root) (hid : GoesDown id) (ht : t.WellFormed) {fs : List TreeFile}
    (hf : ∀ f ∈ fs, s.Met t root f) : s.Steady id t fs (s.Unmoved root t) where
  safe f hm := (hf f hm).safe
  read _ hx f hm := hx.read_eq ht (hf f hm)
  make _ hx f _ := hx.createDirs _
  write _ _ _ hx f hm hw := hx.write hhid hw id (filesName :: Key.steps f.key) (by
    rw [settled_copyPlace (hf f hm).safe hid, copiesPlace, List.append_assoc]
    rfl)

section Fill

variable (h : s.Plain t root) (hdir : t.isDir root = true) (hhid : s.Hidden root) (hcut : s.directory.IsCut)
  (hs : '/' ∉ id.toList) (hid : GoesDown id) {tag description : String} {timestamp : Nat} {S : Snapshot}
  (hf : s.fill checksum t root (s.directory ++ [id]) required ⟨id, tag, description, timestamp, [], [], 0, []⟩ =
    (.ok S, y))

include h hdir hhid hcut hs hid hf

end Fill

/-- A capture that succeeds has filled the directory of a new id. -/
theorem fill_of_capture {env : Surroundings} {w w' : World} {S : Snapshot} {tag description : String}
    (hhex : ∀ c ∈ (w.freshId env).toList, Digest.isHexDigit c = true ∨ c = '-')
    (hc : s.capture env w root tag description required = (.ok S, w')) :
    ∃ timestamp, s.fill env.checksum w.files root (s.directory ++ [idOf timestamp (w.freshId env)]) required
      ⟨idOf timestamp (w.freshId env), tag, description, timestamp, [], [], 0, []⟩ = (.ok S, w'.files) := by
  rw [capture] at hc
  cases hfloor : s.nextTimestamp? w.files with
  | none => simp [hfloor] at hc
  | some floor =>
    simp only [hfloor, snapshotDir_eq (noSlash_idOf hhex)] at hc
    split at hc
    · rename_i S' files hfill
      simp only [Prod.mk.injEq, Except.ok.injEq] at hc
      obtain ⟨rfl, rfl⟩ := hc
      exact ⟨_, hfill⟩
    · simp at hc

theorem capture_of_create {env : Surroundings} {w w' : World} {S : Snapshot} {tag description : String}
    (hc : s.create env w root tag description = (.ok S, w')) :
    ∃ made, s.capture env w root tag description [] = (.ok S, made) := by
  rw [create] at hc
  cases hcap : s.capture env w root tag description [] with
  | mk res made =>
    cases res with
    | error e => simp [hcap] at hc
    | ok S' =>
      simp only [hcap] at hc
      split at hc
      · simp at hc
      · simp only [Prod.mk.injEq, Except.ok.injEq] at hc
        exact ⟨made, by rw [hc.1]⟩

end SnapshotStore

end TreeRepair
