import TreeRepair.Proofs.Snapshot.Retention
import TreeRepair.Syntax.Table

/-! Which places a store of snapshots touches. The id of a snapshot is what its manifest says, not the name of the
directory that the manifest was read from, and removal and stored copies go by the id. So a store keeps to its own
directories if each manifest bears the name of the directory that it lies in. -/

set_option autoImplicit false

namespace TreeRepair

open Location Listing

namespace SnapshotStore

variable {s : SnapshotStore} {id : String} {t : Listing} {S : Snapshot}

/-- A store each manifest of which bears the name of the directory that it lies in. -/
def Named (s : SnapshotStore) (t : Listing) : Prop :=
  ∀ id bytes S, isPlainName id = true → t.read (s.directory ++ [id] ++ [manifestName]) = .ok bytes →
    Snapshot.ofBytes? bytes = some S → S.id = id

/-- A store that keeps to its own directories: ids are the names of directories in it, the oldest of these are what
eviction removes, and copies are looked for in them. -/
structure Confined (s : SnapshotStore) (t : Listing) : Prop where
  load : ∀ id S, s.load t id = .ok S → S.id = id
  list : ∀ S ∈ s.list t, t.shapeAt? (s.directory.settled ++ [S.id]) = some .dir ∧ s.load t S.id = .ok S
  evict : ∀ keep q, (s.evict t keep).2.shapeAt? q = t.shapeAt? q ∨
    ∃ S ∈ (s.list t).take ((s.list t).length - keep), s.directory.settled ++ [S.id] <+: q
  stored : ∀ S ∈ s.list t, ∀ key place, s.storedFile S key = .ok place →
    s.directory.settled ++ [S.id, filesName] <+: place.settled

/-- What a store touches, whatever its manifests say: snapshots are read from directories in the store, and what is
removed or looked for lies at the places that their ids lead to. -/
structure Bounded (s : SnapshotStore) (t : Listing) : Prop where
  load : ∀ id S, s.load t id = .ok S ↔ isPlainName id = true ∧
    ∃ bytes, t.read (s.directory ++ [id] ++ [manifestName]) = .ok bytes ∧ Snapshot.ofBytes? bytes = some S
  list : ∀ S, S ∈ s.list t ↔ ∃ id, t.shapeAt? (s.directory.settled ++ [id]) = some .dir ∧ s.load t id = .ok S
  evict : ∀ keep q, (s.evict t keep).2.shapeAt? q = t.shapeAt? q ∨
    (∃ S ∈ (s.list t).take ((s.list t).length - keep), (s.snapshotDir S.id).settled <+: q) ∧
      (s.evict t keep).2.shapeAt? q = none
  stored : ∀ S key place, s.storedFile S key = .ok place →
    place.settled = (s.snapshotDir S.id).settled ++ filesName :: Key.steps key ∧ ∀ n ∈ Key.steps key, GoesDown n

/-! ## Reading -/

theorem named_iff : s.Named t ↔ ∀ id S, s.load t id = .ok S → S.id = id := by
  refine ⟨fun h id S hload => ?_, fun h id bytes S hplain hread hof => ?_⟩
  · obtain ⟨hplain, bytes, hread, hof⟩ := load_eq_ok_iff.1 hload
    exact h id bytes S hplain hread hof
  · exact h id S (load_eq_ok_iff.2 ⟨hplain, bytes, hread, hof⟩)

theorem Named.id_eq (h : s.Named t) (hload : s.load t id = .ok S) : S.id = id := named_iff.1 h id S hload

theorem Named.load_of_mem (h : s.Named t) (hS : S ∈ s.list t) : s.load t S.id = .ok S := by
  obtain ⟨id, hload⟩ := mem_list.1 hS
  rwa [h.id_eq hload]

theorem Named.plainName (h : s.Named t) : ∀ S ∈ s.list t, isPlainName S.id = true :=
  fun _ hS => isPlainName_of_load (h.load_of_mem hS)

theorem settled_storedFile {key : String} {place : Location} (h : s.storedFile S key = .ok place) :
    place.settled = (s.snapshotDir S.id).settled ++ filesName :: Key.steps key ∧ ∀ n ∈ Key.steps key, GoesDown n := by
  obtain ⟨hsafe, rfl⟩ := storedFile_eq_ok.1 h
  refine ⟨?_, Key.goesDown_steps hsafe⟩
  rw [Key.settled_join_of_safe hsafe, join_name (by decide), settled_append_names (by simp [GoesDown, isVoid, filesName]),
    List.append_assoc]
  rfl

theorem bounded (s : SnapshotStore) (t : Listing) : s.Bounded t where
  load _ _ := load_eq_ok_iff
  list _ := mem_list.trans
    ⟨fun ⟨id, hload⟩ => ⟨id, shapeAt?_of_load hload, hload⟩, fun ⟨id, _, hload⟩ => ⟨id, hload⟩⟩
  evict _ q := shapeAt?_removeAll _ _ t q
  stored _ _ _ := settled_storedFile

/-- A store keeps to its own directories if and only if each manifest bears the name of its own. -/
theorem confined_iff : s.Confined t ↔ s.Named t := by
  refine ⟨fun h => named_iff.2 h.load, fun h => ?_⟩
  refine ⟨named_iff.1 h, fun S hS => ⟨shapeAt?_of_load (h.load_of_mem hS), h.load_of_mem hS⟩,
    fun keep q => (shapeAt?_evict h.plainName keep q).imp_right And.left, fun S hS key place hplace => ?_⟩
  rw [(settled_storedFile hplace).1, settled_snapshotDir (h.plainName S hS), List.append_assoc]
  exact ⟨Key.steps key, by simp⟩

/-! ## Changes -/

theorem load_of_evict {keep : Nat} (h : s.load (s.evict t keep).2 id = .ok S) : s.load t id = .ok S := by
  -- what is read is a file below directories, and an eviction makes neither
  have hold : ∀ q shape, (s.evict t keep).2.shapeAt? q = some shape → t.shapeAt? q = some shape := by
    intro q shape hq
    rcases (s.bounded t).evict keep q with hsame | ⟨-, hnone⟩
    · rw [← hsame, hq]
    · rw [hnone] at hq
      cases hq
  obtain ⟨hplain, bytes, hread, hof⟩ := load_eq_ok_iff.1 h
  obtain ⟨hlead, hfile⟩ := read_eq_ok.1 hread
  exact load_eq_ok_iff.2 ⟨hplain, bytes, read_eq_ok.2 ⟨hlead.mono fun q => hold q _, hold _ _ hfile⟩, hof⟩

theorem Named.evict (h : s.Named t) (keep : Nat) : s.Named (s.evict t keep).2 :=
  named_iff.2 fun _ _ hload => h.id_eq (load_of_evict hload)

section Creation

variable {env : Surroundings} {w w' : World} {root : Location} {tag description : String} {required : List String}
  (h : s.Named w.files) (hready : s.Ready env w root) (hclock : w.now env < timestampBound)
  (hsize : ((s.filter.walkFiles w.files root).map (·.size)).sum < timestampBound)

include h hready hclock hsize

/-- A capture makes the directory of one new snapshot, whose manifest bears its name. -/
theorem Named.capture {r : Except SnapshotError Snapshot}
    (hc : s.capture env w root tag description required = (r, w')) : s.Named w'.files ∧
      ∀ q, w'.files.shapeAt? q = w.files.shapeAt? q ∨ ∃ n, s.directory.settled ++ [n] <+: q := by
  cases r with
  | error e =>
    rw [(capture_error hready.poised hc).1]
    exact ⟨h, fun q => .inl rfl⟩
  | ok S =>
    obtain ⟨-, -, -, hshelved, -⟩ := capture_ok hready.poised hc
    have hroom := (hready.scene S.timestamp).room
    have hnew := hshelved.load (isPlainName_idOf hready.hex) (writable_of_capture hready.poised hclock hsize hc)
    refine ⟨named_iff.2 fun i S' hload => ?_, fun q => ?_⟩
    · by_cases hi : i = idOf S.timestamp (w.freshId env)
      · rw [hi, hnew] at hload
        rw [← Except.ok.inj hload, hshelved.id_eq, hi]
      · exact h.id_eq ((hshelved.load_eq hroom hi).1 hload)
    · by_cases hq : s.directory.settled ++ [idOf S.timestamp (w.freshId env)] <+: q
      · exact .inr ⟨_, hq⟩
      · exact .inl (hshelved.grown.shapeAt?_eq hroom hq)

/-- A creation touches directories in the store only, and leaves each manifest with the name of its own. -/
theorem Named.create {r : Except SnapshotError Snapshot} (hc : s.create env w root tag description = (r, w')) :
    s.Named w'.files ∧ ∀ q, w'.files.shapeAt? q = w.files.shapeAt? q ∨ ∃ n, s.directory.settled ++ [n] <+: q := by
  cases hcap : s.capture env w root tag description [] with
  | mk res made =>
    obtain ⟨hmade, hsame⟩ := h.capture hready hclock hsize hcap
    rw [SnapshotStore.create, hcap] at hc
    cases res with
    | error e =>
      obtain ⟨-, rfl⟩ := Prod.mk.inj hc
      exact ⟨hmade, hsame⟩
    | ok S =>
      -- whether the eviction goes through or stops, the files are those that it leaves
      have hfiles : w'.files = (s.evict made.files s.maxSnapshots).2 := by
        cases hev : s.evict made.files s.maxSnapshots with
        | mk ended files =>
          simp only [hev] at hc
          cases ended <;> rw [← (Prod.mk.inj hc).2] <;> rfl
      rw [hfiles]
      refine ⟨hmade.evict _, fun q => ?_⟩
      rcases (confined_iff.2 hmade).evict s.maxSnapshots q with hkept | ⟨S', -, hp⟩
      · rw [hkept]
        exact hsame q
      · exact .inr ⟨S'.id, hp⟩

end Creation

/-- What a store touches. Whatever its manifests say, it reads snapshots from directories in it and removes and looks
for copies at the places that their ids lead to. It keeps to its own directories if and only if each manifest bears the
name of its own, and evictions and creations leave the manifests so. -/
theorem confinement (s : SnapshotStore) (t : Listing) : s.Bounded t ∧ (s.Confined t ↔ s.Named t) ∧
    (s.Named t → (∀ keep, s.Named (s.evict t keep).2) ∧
      ∀ env w root tag description r w', w.files = t → s.Ready env w root → w.now env < timestampBound →
        ((s.filter.walkFiles t root).map (·.size)).sum < timestampBound →
        s.create env w root tag description = (r, w') → s.Named w'.files ∧
          ∀ q, w'.files.shapeAt? q = t.shapeAt? q ∨ ∃ n, s.directory.settled ++ [n] <+: q) := by
  refine ⟨s.bounded t, confined_iff, fun h => ⟨h.evict, ?_⟩⟩
  rintro env w root tag description r w' rfl hready hclock hsize hc
  exact h.create hready hclock hsize hc

/-- A snapshot under a plain name. -/
def guest : Snapshot := ⟨"x", "t", "", 1, [], [], 0, []⟩

/-- The same snapshot under an id that leads out of the store. -/
def stranger : Snapshot := { guest with id := "../../src" }

/-- A project beside a store in which the directory `x` holds the manifest of a snapshot. -/
def lodging (S : Snapshot) : Listing :=
  .dir "src" (.file "a.txt" "x".toUTF8 .empty)
    (.dir "home" (.dir "backups" (.dir "x" (.file manifestName S.bytes .empty) .empty) .empty) .empty)

/-- A store that keeps one snapshot. -/
def hostel : SnapshotStore := ⟨["home", "backups"], ⟨[], [], [], fun _ => false⟩, 100, 1⟩

/-- Surroundings whose clock stands still. -/
def steady : Surroundings where
  grammars _ text := .refusal text
  contentHash bytes := Digest.hexText bytes.data.toList
  checksum bytes := Digest.hexText bytes.data.toList
  archives := .json
  process := 1
  clock _ := 1000
  freshId _ := "0f8fad5b"

theorem shapeAt?_lodging {S : Snapshot} (h : id ≠ "x") : (lodging S).shapeAt? ["home", "backups", id] = none := by
  rw [lodging, shapeAt?_dir_cons, if_neg (by decide), shapeAt?_dir_cons, if_pos rfl, shapeAt?_dir_cons, if_pos rfl,
    shapeAt?_dir_cons, if_neg h.symm, shapeAt?_empty_cons]

theorem named_lodging : hostel.Named (lodging guest) := by
  refine named_iff.2 fun id S hload => ?_
  have hdir : (lodging guest).shapeAt? ["home", "backups", id] = some .dir := shapeAt?_of_load hload
  have hid : id = "x" := by
    by_contra hne
    rw [shapeAt?_lodging hne] at hdir
    cases hdir
  have hguest : hostel.load (lodging guest) "x" = .ok guest := by decide +kernel
  rw [hid, hguest] at hload
  rw [← Except.ok.inj hload, hid]
  rfl

theorem ready_lodging : hostel.Ready steady ⟨lodging guest, 0, 0⟩ ["src"] where
  storeDir := by decide
  cut := by decide
  rootDir := by decide
  safe := by
    have hnames : (lodging guest).names.all (fun n => !n.toList.contains '\\') = true := by decide
    exact Plain.safe ⟨by decide, fun names c hw =>
      isPlain_of_names hnames (p := Location.settled ["src"]) (by simp [hw.isFile])⟩
  hex := isHex_of_all (by decide)
  fresh ts := shapeAt?_lodging (ne_idOf (by decide) (by decide) ts).symm

/-- The stranger is what is loaded from its directory, and removing it takes the project. With the guest in its place
the store keeps to its own, and still does behind a creation, which leaves the project alone. -/
theorem confinement_lodging :
    (¬ hostel.Confined (lodging stranger) ∧ hostel.load (lodging stranger) "x" = .ok stranger ∧
      ((lodging stranger).shapeAt? ["src", "a.txt"]).isSome = true ∧
      ((hostel.evict (lodging stranger) 0).2.shapeAt? ["src", "a.txt"]).isNone = true) ∧
    hostel.Confined (lodging guest) ∧ ∃ r w, hostel.create steady ⟨lodging guest, 0, 0⟩ ["src"] "t" "" = (r, w) ∧
      hostel.Named w.files ∧ w.files.shapeAt? ["src", "a.txt"] = (lodging guest).shapeAt? ["src", "a.txt"] := by
  have hload : hostel.load (lodging stranger) "x" = .ok stranger := by decide +kernel
  refine ⟨⟨fun h => ?_, hload, by decide, by decide +kernel⟩, ?_⟩
  · exact absurd (named_iff.1 ((confinement hostel (lodging stranger)).2.1.1 h) "x" stranger hload) (by decide)
  · obtain ⟨-, hconfined, hchanges⟩ := confinement hostel (lodging guest)
    cases hcreate : hostel.create steady ⟨lodging guest, 0, 0⟩ ["src"] "t" "" with
    | mk r w =>
      obtain ⟨hnamed, hsame⟩ := (hchanges named_lodging).2 steady ⟨lodging guest, 0, 0⟩ ["src"] "t" "" r w rfl
        ready_lodging (by decide) (by decide +kernel) hcreate
      refine ⟨hconfined.2 named_lodging, r, w, rfl, hnamed, (hsame _).resolve_right ?_⟩
      rintro ⟨n, hp⟩
      exact absurd (List.cons_prefix_cons.1 hp).1 (by decide)

end SnapshotStore

end TreeRepair
