import TreeRepair.Proofs.Snapshot.Passage

/-! Rolling back a rollback. Behind a rollback its emergency snapshot is an intact snapshot of the tree before,
and a rollback to it goes through exactly if the first one has been verified. -/

set_option autoImplicit false

namespace TreeRepair

open Location Listing Text

namespace SnapshotStore

variable {s : SnapshotStore} {env : Surroundings} {w w' : World} {root : Location} {S E : Snapshot}
  {t₀ x : Listing} {saved : World} {p : Rollback.Progress} {report : RollbackReport}

section CarriedOut

variable (h : s.Later env.checksum root S t₀ w.files) (hdone : s.CarriedOut env w root S report x E saved p)

include h hdone

theorem CarriedOut.kept : Rollback.Kept root
    ((RollbackPlan.changes (s.diff env.checksum w.files S root none)).filterMap (·.path)) saved.files p.world.files :=
  Rollback.changes_kept (r := Rollback.of s env.checksum w.files root S E) h hdone.room hdone.captured.grown hdone.run

/-! ## The emergency snapshot behind the steps -/

theorem CarriedOut.dir {q : List String} (hd : saved.files.shapeAt? q = some .dir) : x.shapeAt? q = some .dir := by
  obtain ⟨log, rfl⟩ := hdone.log
  exact Rollback.shapeAt?_writeLog_dir log ((hdone.kept h).dirs q hd)

/-- What has been stored stays. -/
theorem CarriedOut.stored {ns : List String} {c : ByteArray} (hne : ns ≠ [logName])
    (hf : saved.files.shapeAt? (s.directory.settled ++ E.id :: ns) = some (.file c)) :
    x.shapeAt? (s.directory.settled ++ E.id :: ns) = some (.file c) := by
  obtain ⟨log, rfl⟩ := hdone.log
  have hkept := (hdone.kept h).files _ _ hf
  rw [Rollback.shapeAt?_writeLog hdone.room.noSlash hdone.room.goesDown log]
  · refine hkept.resolve_right ?_
    rintro ⟨k, hk, hl⟩
    exact Rollback.not_leadsTo_store (r := Rollback.of s env.checksum w.files root S E) h hk hl
  · intro heq
    have hns := List.append_cancel_left heq
    exact hne (List.cons.inj hns).2

theorem CarriedOut.load (hw : E.Writable) (hid : isPlainName E.id = true) : s.load x E.id = .ok E := by
  have hmanifest := hdone.captured.manifest
  have hname : [manifestName] ≠ [logName] := by decide
  exact load_eq_ok hid hw (hdone.stored h hname hmanifest.1) (hmanifest.2.mono fun q hq => hdone.dir h hq)

/-- The copies of the emergency snapshot are intact. -/
theorem CarriedOut.intact (hw : E.Writable) (hid : isPlainName E.id = true) : s.Intact x E w.files root := by
  refine ⟨hdone.load h hw hid, fun names c hwalk hk => ?_⟩
  have hn := h.plain.spells hwalk
  obtain ⟨hwant, hread⟩ := hdone.captured.wanted h.plain hwalk hk
  obtain ⟨hcopy, hlead⟩ := hdone.captured.copy names c hwant hread
  refine ⟨_, storedFile_ofNames hdone.room.noSlash hn.ne_nil hn.isName hn.plain, read_eq_ok.2 ⟨?_, ?_⟩⟩
  · exact hlead.mono fun q hq => hdone.dir h hq
  · rw [settled_stored hdone.room.goesDown hn.isName]
    rw [copiesPlace, List.append_assoc] at hcopy ⊢
    exact hdone.stored h (by simp [hn.ne_nil]) hcopy

theorem CarriedOut.later (hcut : s.directory.IsCut) (hw : E.Writable) (hid : isPlainName E.id = true) :
    s.Later env.checksum root E w.files x := by
  have hbehind := hdone.behind h hcut
  refine ⟨hdone.captured.sorted, hdone.captured.files_eq, fun k sum hm => ?_, h.plain, hbehind.plain h, hbehind.isDir,
    h.cut, h.hidden, hdone.intact h hw hid, fun names c c' hwalk hwalk' hsum => ?_⟩
  · obtain ⟨names, c, hwant, hread, hk, hs⟩ := (hdone.captured.mem_checksums k sum).1 hm
    exact ⟨names, c, hwant.walks, hread, hk, hs⟩
  · rcases hbehind.met h hwalk' with ⟨c₀, hwalk₀, hk⟩ | hsame
    · have hfile := hbehind.known names c₀ hwalk₀ hk
      rw [hwalk'.isFile] at hfile
      obtain rfl : c' = c₀ := by simpa using hfile
      exact (h.distinct names c' c hwalk₀ hwalk hsum.symm).symm
    · have hfile := hwalk.isFile.symm.trans hsame.isFile
      simpa using hfile

/-! ## Whether it goes through -/

theorem CarriedOut.dir_source {names : List String} {c : ByteArray} (hwalk : s.filter.Walks w.files root names c)
    (hd : x.shapeAt? (root.settled ++ names) = some .dir) :
    ∃ names' c', s.filter.Walks t₀ root names' c' ∧ Key.ofNames names' ∈ S.files ∧ names <+: names' ∧ names ≠ names' := by
  obtain ⟨log, rfl⟩ := hdone.log
  rw [Rollback.shapeAt?_writeLog hdone.room.noSlash hdone.room.goesDown log
    (h.hidden names _ _ hwalk.enters).symm] at hd
  rcases (hdone.kept h).newDirs _ hd with hsaved | ⟨k, hk, ns, -, hplace, hpre⟩
  · have hsame := Rollback.shapeAt?_saved (r := Rollback.of s env.checksum w.files root S E) h hdone.room
      hdone.captured.grown hwalk.enters
    exact absurd (hsaved.symm.trans (hsame.trans hwalk.isFile)) (by simp)
  · obtain rfl := List.append_cancel_left hplace
    obtain ⟨step, hstep, hpath⟩ := List.mem_filterMap.1 hk
    rcases h.mem_changes hstep hpath with ⟨hfiles, -⟩ | ⟨⟨names', c', hwalk', rfl⟩, -⟩
    · obtain ⟨names', c', hwalk', -, rfl, -⟩ := h.mem_files.1 hfiles
      rw [(h.plain₀.spells hwalk').steps] at hpre
      obtain ⟨rest, hne, rfl⟩ := exists_rest_of_prefix hwalk'.ne_nil hpre
      exact ⟨_, c', hwalk', hfiles, List.prefix_append _ _, by simpa using hne⟩
    · -- two files of one tree do not lie on one way
      rw [(h.plain.spells hwalk').steps] at hpre
      obtain ⟨rest, hne, rfl⟩ := exists_rest_of_prefix hwalk'.ne_nil hpre
      have hfile := hwalk'.isFile
      exact absurd hwalk.isFile (Rollback.noFile_on_way (fun _ hq => hq) hfile (List.prefix_append _ _) (by simpa using hne))

theorem CarriedOut.mem_files {names : List String} {c : ByteArray} (hwalk : s.filter.Walks w.files root names c)
    (hpath : checkPath (root ++ names) = .ok ()) (h1 : Key.ofNames names ∉ S.files)
    (h2 : Key.ofNames names ∉ S.skippedOversize) : Key.ofNames names ∈ E.files := by
  have hn := h.plain.spells hwalk
  have hadded : Key.ofNames names ∈ (s.diff env.checksum w.files S root none).added :=
    (mem_added h.plain.wellFormed).2 ⟨⟨names, c, hwalk, rfl⟩, h1, h2⟩
  have hread : w.files.read (root ++ names) = .ok c := by
    rw [hwalk.read_eq hn.isName, hpath]
    rfl
  have hrisk := h.mem_atRisk.2 ⟨List.mem_filterMap.2 ⟨⟨.delete, some (Key.ofNames names), false⟩,
    by simp [RollbackPlan.changes, hadded], rfl⟩, names, c, hwalk, hread, rfl⟩
  rw [hdone.captured.files_eq]
  exact SortedMap.contains_iff.1 (hdone.all _ hrisk)

theorem CarriedOut.unobstructed_iff (hcut : s.directory.IsCut)
    (hpaths : ∀ names c, s.filter.Walks w.files root names c → checkPath (root ++ names) = .ok ()) :
    s.Unobstructed root E w.files x ↔ report.verified = true := by
  have hbehind := hdone.behind h hcut
  rw [(hdone.restored h hcut).verified]
  constructor
  · intro hun names c names' c' hwalk h1 h2 hwalk' hk' hpre
    have hne : names ≠ names' := by
      rintro rfl
      exact h1 hk'
    obtain ⟨rest, rfl⟩ := hpre
    have hrest : rest ≠ [] := by simpa using hne
    have hfile := hbehind.known _ c' hwalk' hk'
    rw [← List.append_assoc] at hfile
    exact hun.noDir names c hwalk (hdone.mem_files h hwalk (hpaths names c hwalk) h1 h2)
      (shapeAt?_of_append (by rw [hfile]; simp) hrest)
  · intro hverified
    have hnoDir : ∀ names c, s.filter.Walks w.files root names c → x.shapeAt? (root.settled ++ names) ≠ some .dir := by
      intro names c hwalk hd
      obtain ⟨names', c', hwalk', hk', hpre, hne⟩ := hdone.dir_source h hwalk hd
      -- the file has been replaced, so the snapshot did not know it
      have hother := (hbehind.other (root.settled ++ names) c (fun hknown => ?_) (fun hunknown => ?_) ?_).2 hwalk.isFile
      · exact absurd (hd.symm.trans hother) (by simp)
      · obtain ⟨ns, c₀, hwalk₀, -, heq⟩ := hknown
        obtain rfl := List.append_cancel_left heq
        exact Rollback.noFile_on_way (fun _ hq => hq) hwalk'.isFile hpre hne hwalk₀.isFile
      · obtain ⟨ns, c₀, hwalk₀, h1, h2, heq⟩ := hunknown
        obtain rfl := List.append_cancel_left heq
        exact hverified names c₀ names' c' hwalk₀ h1 h2 hwalk' hk' hpre
      · exact hdone.room.not_prefix (by rw [hwalk.isFile]; simp)
    refine ⟨fun names c hwalk _ => hnoDir names c hwalk, fun names c hwalk _ front c' hpre hne hfile => ?_⟩
    refine absurd hfile (Rollback.noFile_on_way (u := w.files) (fun q hq => ?_) hwalk.isFile hpre hne)
    exact hdone.dir h (hdone.captured.grown.dir_mono hdone.room hq)

end CarriedOut

/-! ## A rollback and the way back -/

/-- Whatever has become of a tree since an intact snapshot of it was made, a rollback to that snapshot goes
through exactly if none of the files that it holds is now a directory and all files on the way to them are
deleted by it; otherwise it stops half way. A rollback that has gone through can be rolled back itself exactly
if it has been verified. -/
theorem executeRollback_decided (hg : s.Grounds w.files root) (hid : s.Unused env w) (hroomy : s.Roomy env w root)
    (h : s.Later env.checksum root S t₀ w.files) :
    s.Decided env w root S t₀ ∧ ∀ report w',
      s.executeRollback env w (.ofDiff S (s.diff env.checksum w.files S root none)) root false = (.ok report, w') →
      ∃ E, report.emergency = some E.id ∧ s.load w'.files E.id = .ok E ∧
        (s.Unobstructed root E w.files w'.files ↔ report.verified = true) ∧
        ∀ env' w'', env'.checksum = env.checksum → w''.files = w'.files → s.Unused env' w'' → s.Roomy env' w'' root →
          s.Decided env' w'' root E w.files := by
  have hready := hg.ready hid (isDir_of_load h.intact.load)
  refine ⟨decided hready hroomy h, fun report w' hok => ?_⟩
  obtain ⟨E, saved, p, hdone⟩ := carriedOut_of_ok hready h hok
  obtain ⟨description, hc⟩ := hdone.capture
  have hw := writable_of_capture hready.poised hroomy.clock
    (Nat.lt_of_le_of_lt (s.filter.sum_walkFiles_le _ _) hroomy.bytes) hc
  have hplain : isPlainName E.id = true := by
    obtain ⟨-, -, -, hshelved, -⟩ := capture_ok hready.poised hc
    rw [hshelved.id_eq]
    exact isPlainName_idOf hid.hex
  have hlater := hdone.later h hready.cut hw hplain
  refine ⟨E, hdone.emergency, hlater.intact.load, hdone.unobstructed_iff h hready.cut hroomy.paths, ?_⟩
  intro env' w'' hsum hfiles hid' hroomy'
  rw [← hfiles] at hlater
  rw [← hsum] at hlater
  refine decided ⟨isDir_of_load hlater.intact.load, hready.cut, hlater.rootDir, hlater.plain.safe, hid'.hex, hid'.fresh⟩
    hroomy' hlater

/-! ## Two runs -/

/-- The directory of a store with the snapshot of one file. -/
def stored : Listing :=
  .dir "1700000000000-0f8fad5b" (.file "manifest.json" taken.bytes
    (.dir "files" (.file "a.js" "old".toUTF8 .empty) .empty)) .empty

/-- A project beside the store. -/
def shelved (inner : Listing) : Listing := .dir "work" inner (.dir "shelf" stored .empty)

/-- The project with a directory in place of the file. -/
def blocked : Listing := shelved (.dir "a.js" (.file "x" "more".toUTF8 .empty) .empty)

section Shelved

variable {inner : Listing}

theorem load_shelved : shelf.load (shelved inner) taken.id = .ok taken := by
  refine load_eq_ok_iff.2 ⟨by decide, taken.bytes, rfl, ?_⟩
  exact Snapshot.ofBytes?_bytes ⟨by decide, by decide, List.pairwise_singleton _ _⟩

theorem nextTimestamp?_shelved : shelf.nextTimestamp? (shelved inner) = some 1700000000001 := by
  have hfound : (shelved inner).listing shelf.directory = .ok stored := rfl
  have hnames : dirNames stored = [taken.id] := rfl
  have hlist : shelf.list (shelved inner) = [taken] := by
    rw [list, hfound]
    simp [hnames, load_shelved, Except.toOption]
  rw [nextTimestamp?, latest?, hlist]
  rfl

theorem unused_shelved : shelf.Unused again ⟨shelved inner, 0, 0⟩ where
  hex := unused_again.hex
  fresh ts := by
    have hne : ("1700000000000-0f8fad5b" : String) ≠ idOf ts "7c9e6679-7425-40de-944b-e07fc1f90ae7" :=
      ne_idOf (by decide) (by decide) ts
    change (shelved inner).shapeAt? ["shelf", idOf ts "7c9e6679-7425-40de-944b-e07fc1f90ae7"] = none
    rw [shelved, shapeAt?_dir_cons, if_neg (by decide), shapeAt?_dir_cons, if_pos rfl, stored, shapeAt?_dir_cons,
      if_neg hne, shapeAt?_empty_cons]

theorem walks_a : shelf.filter.Walks early ["work"] ["a.js"] "old".toUTF8 where
  isDir := by decide
  ne_nil := by simp
  isFile := rfl
  enters p n hp hne := by
    have hlen := hp.length_le
    rw [List.length_append, List.length_singleton, List.length_singleton] at hlen
    exact absurd (hp.eq_of_length (by rw [List.length_append, List.length_singleton, List.length_singleton]; omega)) hne
  kept := by decide

theorem later_shelved (hg : shelf.Grounds (shelved inner) ["work"])
    (hgone : ∀ c, ¬ shelf.filter.Walks (shelved inner) ["work"] ["a.js"] c) :
    shelf.Later again.checksum ["work"] taken early (shelved inner) where
  sorted := List.pairwise_singleton _ _
  files_eq := rfl
  mem_checksums k sum hm := by
    obtain ⟨rfl, rfl⟩ := Prod.mk.inj (List.mem_singleton.1 hm)
    exact ⟨["a.js"], "old".toUTF8, walks_a, by decide +kernel, by decide +kernel, by decide +kernel⟩
  plain₀ := (grounds_work (by decide) (by decide) (by decide)).plainWalk
  plain := hg.plainWalk
  rootDir := hg.rootDir
  cut := by decide
  hidden names m ms _ heq := by
    have hhead : "shelf" = "work" := (List.cons.inj heq).1
    exact absurd hhead (by decide)
  intact := by
    refine ⟨load_shelved, fun names c hw _ => ?_⟩
    obtain ⟨rfl, rfl⟩ := walks_early hw
    exact ⟨["shelf", "1700000000000-0f8fad5b", "files", "a.js"], by decide, rfl⟩
  distinct names c c' hw hw' := by
    obtain ⟨rfl, -⟩ := walks_early hw
    exact absurd hw' (hgone c')

theorem totalBytes_stored : stored.totalBytes < 1000 := by decide +kernel

theorem roomy_shelved (hbytes : inner.totalBytes < 1000)
    (hpaths : ∀ names c, shelf.filter.Walks (shelved inner) ["work"] names c → hasNul names = false ∧ byteSize names ≤ 3000) :
    shelf.Roomy again ⟨shelved inner, 0, 0⟩ ["work"] := by
  have hclock : (1700000000000 : Nat) < timestampBound := by decide
  refine roomy_of_short unused_shelved hclock ?_ ?_ (by decide) (by decide) hpaths
  · rw [nextTimestamp?_shelved]
    simp
  · have hstored := totalBytes_stored
    have hsum : (shelved inner).totalBytes = inner.totalBytes + (stored.totalBytes + 0) := by
      rw [shelved, totalBytes, totalBytes, totalBytes]
    have hbound : 2000 < timestampBound := by decide
    change (shelved inner).totalBytes < timestampBound
    omega

end Shelved

theorem walks_blocked {names : List String} {c : ByteArray} (hw : shelf.filter.Walks blocked ["work"] names c) :
    names = ["a.js", "x"] := by
  have hfile := mem_files_of_shapeAt? hw.isFile
  rw [show Location.settled ["work"] = ["work"] by decide] at hfile
  have hboth : names = ["a.js", "x"] ∧ c = "more".toUTF8 := by simpa [blocked, shelved, stored, files, filesBelow] using hfile
  exact hboth.1

theorem grounds_late : shelf.Grounds late ["work"] :=
  grounds_work (by decide) (by decide) (by decide)

theorem grounds_blocked : shelf.Grounds blocked ["work"] :=
  grounds_work (by decide) (by decide) (by decide)

theorem later_late : shelf.Later again.checksum ["work"] taken early late :=
  later_shelved grounds_late fun c hw => absurd (walks_late hw) (by decide)

theorem later_blocked : shelf.Later again.checksum ["work"] taken early blocked :=
  later_shelved grounds_blocked fun c hw => absurd (walks_blocked hw) (by decide)

theorem unobstructed_late : shelf.Unobstructed ["work"] taken early late := by
  refine ⟨fun names c hw _ => ?_, fun names c hw _ front c' hpre hne hfile => ?_⟩
  · obtain ⟨rfl, -⟩ := walks_early hw
    have hnone : late.shapeAt? (settled ["work"] ++ ["a.js"]) = none := rfl
    rw [hnone]
    simp
  · obtain ⟨rfl, -⟩ := walks_early hw
    cases front with
    | nil =>
      have hdir : late.shapeAt? (settled ["work"] ++ []) = some .dir := rfl
      exact absurd (hdir.symm.trans hfile) (by simp)
    | cons n ns =>
      have hlen := hpre.length_le
      rw [List.length_cons, List.length_singleton] at hlen
      exact absurd (hpre.eq_of_length (by rw [List.length_cons, List.length_singleton]; omega)) hne

theorem obstructed_blocked : ¬ shelf.Unobstructed ["work"] taken early blocked := by
  intro h
  exact h.noDir ["a.js"] _ walks_a (by decide) rfl

/-- The file that is gone comes back, and the one that has become a directory does not. -/
theorem executeRollback_decided_twice :
    (∃ report w', shelf.executeRollback again ⟨late, 0, 0⟩
        (.ofDiff taken (shelf.diff again.checksum late taken ["work"] none)) ["work"] false = (.ok report, w') ∧
      shelf.Restored again.checksum ["work"] taken early late w'.files report) ∧
    ∃ id reason w', shelf.executeRollback again ⟨blocked, 0, 0⟩
      (.ofDiff taken (shelf.diff again.checksum blocked taken ["work"] none)) ["work"] false =
        (.error (.rollbackFailed id reason), w') := by
  refine ⟨?_, ?_⟩
  · refine (executeRollback_decided grounds_late unused_shelved (roomy_shelved (by decide) ?_)
      later_late).1.through unobstructed_late
    intro names c hw
    rw [walks_late hw]
    decide
  · refine (executeRollback_decided grounds_blocked unused_shelved (roomy_shelved (by decide) ?_)
      later_blocked).1.stopped obstructed_blocked
    intro names c hw
    rw [walks_blocked hw]
    decide

end SnapshotStore

end TreeRepair
