import TreeRepair.Proofs.FileTree.Making
import TreeRepair.Proofs.Snapshot.Rollback

/-! Captures that succeed. The copies of a new snapshot form a part of the project's tree, so that no copy
is in the way of another; what is left are the lengths of paths and the last timestamp. -/

set_option autoImplicit false

namespace TreeRepair

open Location Listing Text

namespace SnapshotStore

variable {s : SnapshotStore} {id : String} {t x y : Listing} {root : Location}

/-! ## Ids -/

theorem utf8ByteSize_ofList_le (cs : List Char) : (String.ofList cs).utf8ByteSize ≤ 4 * cs.length := by
  induction cs with
  | nil => simp
  | cons c cs ih =>
    rw [← List.singleton_append, String.ofList_append, String.utf8ByteSize_append, List.length_append,
      List.length_singleton]
    have hc : (String.ofList [c]).utf8ByteSize = c.utf8Size := String.utf8ByteSize_singleton
    have hle := c.utf8Size_le_four
    omega

theorem idOf_short {timestamp : Nat} (h : timestamp < timestampBound) (freshId : String) :
    (idOf timestamp freshId).utf8ByteSize ≤ nameLimit := by
  have hdigits : (Nat.toDigits 10 timestamp).length ≤ 20 :=
    (Nat.length_toDigits_le_iff (by decide) (by decide)).2 (Nat.lt_of_lt_of_le h (by decide))
  have hstamp : (toString timestamp).utf8ByteSize ≤ 80 := by
    have hle := utf8ByteSize_ofList_le (toString timestamp).toList
    rw [String.ofList_toList, Nat.toString_eq_repr, Nat.toList_repr] at hle
    rw [Nat.toString_eq_repr]
    omega
  have hfresh : (String.ofList (freshId.toList.take 8)).utf8ByteSize ≤ 32 := by
    have hle := utf8ByteSize_ofList_le (freshId.toList.take 8)
    have htake := List.length_take_le 8 freshId.toList
    omega
  have hdash : ("-" : String).utf8ByteSize = 1 := by decide
  have hlimit : nameLimit = 255 := rfl
  rw [idOf, String.utf8ByteSize_append, String.utf8ByteSize_append]
  omega

/-- Ids made of hexadecimal digits and a dash fit into short paths. -/
theorem checkPath_idOf {ts : Nat} (hts : ts < timestampBound) {freshId : String}
    (hhex : ∀ c ∈ freshId.toList, Digest.isHexDigit c = true ∨ c = '-') {front back : Location}
    (hnul : hasNul (front ++ back) = false) (hsize : byteSize (front ++ back) ≤ 3839) :
    checkPath (front ++ [idOf ts freshId] ++ back) = .ok () := by
  have hname := idOf_short hts freshId
  have hone : byteSize [idOf ts freshId] = 1 + (idOf ts freshId).utf8ByteSize := by
    simp [byteSize]
  have hlimits : nameLimit = 255 ∧ pathLimit = 4095 := ⟨rfl, rfl⟩
  rw [hasNul, List.any_append, Bool.or_eq_false_iff] at hnul
  rw [byteSize_append] at hsize
  refine checkPath_eq_ok.2 ⟨?_, ?_⟩
  · rw [hasNul, List.any_append, List.any_append, Bool.or_eq_false_iff, Bool.or_eq_false_iff]
    refine ⟨⟨hnul.1, ?_⟩, hnul.2⟩
    rw [List.any_cons, List.any_nil, Bool.or_false, List.any_eq_false]
    intro c hc hzero
    rcases mem_idOf hhex hc with hhex | rfl
    · have hc : c = Char.ofNat 0 := by rw [← Char.ofNat_toNat c, beq_iff_eq.1 hzero]
      rw [hc] at hhex
      exact absurd hhex (by decide)
    · exact absurd hzero (by decide)
  · rw [byteSize_append, byteSize_append, hone]
    omega

/-! ## Copying -/

/-- All paths in the directory of a new snapshot are short enough. -/
structure Fits (s : SnapshotStore) (t : Listing) (root : Location) (id : String) : Prop where
  name : id.utf8ByteSize ≤ nameLimit
  manifest : checkPath (s.directory ++ [id] ++ [manifestName]) = .ok ()
  copies : ∀ names c, s.filter.Walks t root names c → checkPath (s.directory ++ [id] ++ [filesName] ++ names) = .ok ()

/-- Below the place of its copies a tree is a part of what another one is below a root. -/
structure Mirrors (s : SnapshotStore) (id : String) (t : Listing) (root : Location) (x : Listing) : Prop where
  files : ∀ names c, x.shapeAt? (s.copiesPlace id ++ names) = some (.file c) →
    ∃ c', t.shapeAt? (root.settled ++ names) = some (.file c')
  dirs : ∀ names, x.shapeAt? (s.copiesPlace id ++ names) = some .dir → t.shapeAt? (root.settled ++ names) = some .dir

theorem Room.settled_copies (h : s.Room t id) : settled (s.directory ++ [id] ++ [filesName]) = s.copiesPlace id := by
  rw [h.settled_eq [filesName] fun n hn => by rw [List.mem_singleton.1 hn]; exact goesDown_filesName]
  simp [copiesPlace]

/-- No copy is in the way of another one. -/
theorem Mirrors.clear (hr : s.Room t id) (hm : s.Mirrors id t root x)
    (hd : x.isDir (s.directory ++ [id] ++ [filesName]) = true) {names : List String} {c : ByteArray}
    (hw : s.filter.Walks t root names c) (hn : ∀ n ∈ names, IsName n)
    (hpath : checkPath (s.directory ++ [id] ++ [filesName] ++ names) = .ok ()) :
    x.Clear (s.directory ++ [id] ++ [filesName]) names where
  isDir := hd
  ne_nil := hw.ne_nil
  goesDown n hm := (hn n hm).goesDown
  short n hm := (hn n hm).short
  path := hpath
  noFile front c' hfront hne hfile := by
    rw [hr.settled_copies] at hfile
    obtain ⟨c'', hfile⟩ := hm.files _ _ hfile
    obtain ⟨rest, rfl⟩ := hfront
    have hrest : rest ≠ [] := by
      rintro rfl
      simp at hne
    have hnone := shapeAt?_append_of_file hfile hrest
    rw [List.append_assoc, hw.isFile] at hnone
    simp at hnone
  noDir hdir := by
    rw [hr.settled_copies] at hdir
    have hfile := hw.isFile
    rw [hm.dirs _ hdir] at hfile
    simp at hfile

/-- A copy that is made keeps the copies a part of the project. -/
theorem Mirrors.step (hr : s.Room t id) (hm : s.Mirrors id t root x) {names : List String} {c : ByteArray}
    (hw : s.filter.Walks t root names c) (hsteps : Key.steps (Key.ofNames names) = names)
    (hk : Rollback.Kept (s.directory ++ [id] ++ [filesName]) [Key.ofNames names] x y) : s.Mirrors id t root y := by
  refine ⟨fun ns c' hf => ?_, fun ns hd => ?_⟩
  · rcases hk.newFiles _ c' hf with hx | ⟨k, hmem, hl⟩
    · exact hm.files ns c' hx
    · obtain rfl := List.mem_singleton.1 hmem
      have hplace := hl.place_eq
      rw [hr.settled_copies, hsteps] at hplace
      rw [List.append_cancel_left hplace]
      exact ⟨c, hw.isFile⟩
  · rcases hk.newDirs _ hd with hx | ⟨k, hmem, ns', -, hplace, hpre⟩
    · exact hm.dirs ns hx
    · obtain rfl := List.mem_singleton.1 hmem
      rw [hr.settled_copies] at hplace
      obtain rfl := List.append_cancel_left hplace
      rw [hsteps] at hpre
      obtain ⟨rest, hne, rfl⟩ := exists_rest_of_prefix hw.ne_nil hpre
      have hfile := hw.isFile
      rw [← List.append_assoc] at hfile
      exact shapeAt?_of_append (by rw [hfile]; simp) hne

/-- Copying succeeds if each required file can be read and all paths are short enough. -/
theorem copyAll_goes (checksum : HashFunction) (required : List String) (hr : s.Room t id) (hp : s.Plain t root)
    (hfits : s.Fits t root id) : ∀ (fs : List TreeFile) (snapshot : Snapshot) (x : Listing),
    (∀ f ∈ fs, ∃ names c, s.filter.Walks t root names c ∧ f = ⟨root ++ names, Key.ofNames names, c.size⟩) →
    (∀ f ∈ fs, f.key ∈ required → ∃ c, t.read f.location = .ok c) → s.Grown id t x → s.Mirrors id t root x →
    x.isDir (s.directory ++ [id] ++ [filesName]) = true →
    ∃ filled y, copyAll checksum (s.directory ++ [id] ++ [filesName]) required fs snapshot x = (.ok filled, y) ∧
      Rollback.Kept (s.directory ++ [id] ++ [filesName]) (fs.map (·.key)) x y
  | [], snapshot, x, _, _, _, _, _ => ⟨snapshot, x, rfl, .refl _ _ _⟩
  | f :: rest, snapshot, x, hf, hreq, hx, hm, hd => by
    obtain ⟨names, c, hw, rfl⟩ := hf f (List.mem_cons_self ..)
    have hn := hw.isName hp.wellFormed
    have hplain := hp.names names c hw
    have hk := Key.isSafeRelative_ofNames hw.ne_nil hn hplain
    have hgo := copyAll_goes checksum required hr hp hfits rest
    have hrest := fun g hg => hf g (List.mem_cons_of_mem _ hg)
    have hrestreq := fun g hg => hreq g (List.mem_cons_of_mem _ hg)
    have hsame := hx.read_eq hr hp.wellFormed ⟨names, c, hw, hk, rfl⟩
    simp only at hsame
    rw [copyAll]
    simp only
    cases hread : t.read (root ++ names) with
    | error fault =>
      have hnot : ¬ (Key.ofNames names) ∈ required := by
        intro hmem
        obtain ⟨c', hok⟩ := hreq _ (List.mem_cons_self ..) hmem
        simp [hread] at hok
      obtain ⟨filled, y, hcopy, hkept⟩ := hgo snapshot x hrest hrestreq hx hm hd
      refine ⟨filled, y, ?_, hkept.mono fun k hk => by simp [hk]⟩
      rw [hsame, hread]
      simp only [List.contains_eq_mem, hnot, decide_false, Bool.false_eq_true, if_false]
      exact hcopy
    | ok content =>
      have hjoin := Key.join_ofNames hw.ne_nil hn hplain (s.directory ++ [id] ++ [filesName])
      have hclear := hm.clear hr hd hw hn (hfits.copies names c hw)
      obtain ⟨made, z, hcd, hwr⟩ := hclear.write content
      rw [← hjoin] at hcd hwr
      have hkept : Rollback.Kept (s.directory ++ [id] ++ [filesName]) [Key.ofNames names] x z := by
        have hmade := Rollback.Kept.createDirs hk hd
        rw [hcd] at hmade
        exact (hmade.trans (Rollback.Kept.write hk hwr)).mono (by simp)
      have hgrown : s.Grown id t z := by
        have hmade := Grown.createDirs_copy hk hr hx
        rw [hcd] at hmade
        exact Grown.write_copy hk hr hmade hwr
      obtain ⟨filled, y, hcopy, hrun⟩ := hgo _ z hrest hrestreq hgrown
        (hm.step hr hw (Key.steps_ofNames hw.ne_nil hn hplain) hkept) (hkept.isDir hd)
      refine ⟨filled, y, ?_, (hkept.trans hrun).mono (by simp)⟩
      rw [hsame, hread]
      simp only [hcd, hwr]
      exact hcopy

/-! ## Filling -/

section Fill

variable {required : List String} (h : s.Scene t root id)

include h

theorem Scene.makeable (hfits : s.Fits t root id) : t.Makeable s.directory [id, filesName] where
  isDir := h.room.isDir
  goesDown n hn := by
    rcases List.mem_cons.1 hn with rfl | hn
    · exact h.room.goesDown
    · rw [List.mem_singleton.1 hn]
      exact goesDown_filesName
  short n hn := by
    rcases List.mem_cons.1 hn with rfl | hn
    · exact hfits.name
    · rw [List.mem_singleton.1 hn]
      decide
  path := by
    have hc := checkPath_eq_ok.1 (checkPath_of_append hfits.manifest)
    have hm := checkPath_eq_ok.1 hfits.manifest
    have hfiles : hasNul [filesName] = false := by decide
    have hsizes : byteSize [filesName] ≤ byteSize [manifestName] := by decide
    refine checkPath_eq_ok.2 ⟨?_, ?_⟩
    · rw [List.append_cons, hasNul, List.any_append, Bool.or_eq_false_iff]
      exact ⟨hc.1, hfiles⟩
    · rw [byteSize_append] at hm
      rw [List.append_cons, byteSize_append]
      omega
  noFile front c hfront hfile := by
    cases front with
    | nil =>
      rw [List.append_nil, h.room.shapeAt?] at hfile
      simp at hfile
    | cons m ms =>
      obtain ⟨rfl, -⟩ := List.cons_prefix_cons.1 hfront
      rw [List.append_cons, shapeAt?_append_of_none h.room.absent] at hfile
      simp at hfile

theorem Scene.none_of_made (hmade : t.Made s.directory [id, filesName] x) {q : List String}
    (hq : ¬ q <+: [filesName]) : x.shapeAt? (s.directory.settled ++ id :: q) = none := by
  rw [hmade.beyond (id :: q) fun hp => hq (List.cons_prefix_cons.1 hp).2, List.append_cons,
    shapeAt?_append_of_none h.room.absent]

theorem Scene.mirrors (hroot : t.isDir root = true) (hmade : t.Made s.directory [id, filesName] x) :
    s.Mirrors id t root x := by
  have htarget : s.directory ++ [id, filesName] = s.directory ++ [id] ++ [filesName] := by simp
  have hdir := (isDir_eq_true.1 hmade.isDir).2
  rw [htarget, h.room.settled_copies] at hdir
  have hbelow : ∀ n ns, x.shapeAt? (s.copiesPlace id ++ n :: ns) = none := by
    intro n ns
    have hnone := h.none_of_made hmade (q := filesName :: n :: ns) fun hpre => by
      have hlen := hpre.length_le
      simp at hlen
    rw [copiesPlace, List.append_assoc]
    exact hnone
  refine ⟨fun names c hf => ?_, fun names hd => ?_⟩
  · cases names with
    | nil => simp [hdir] at hf
    | cons n ns => simp [hbelow] at hf
  · cases names with
    | nil =>
      rw [List.append_nil]
      exact (isDir_eq_true.1 hroot).2
    | cons n ns => simp [hbelow] at hd

/-- The directory of a new snapshot is filled if all its paths are short enough and each required file can be
read. -/
theorem fill_goes (hroot : t.isDir root = true) (hp : s.Plain t root) (hfits : s.Fits t root id) (checksum : HashFunction)
    (hreq : ∀ names c, s.filter.Walks t root names c → Key.ofNames names ∈ required → ∃ c', t.read (root ++ names) = .ok c')
    (snapshot : Snapshot) :
    ∃ S y, s.fill checksum t root (s.directory ++ [id]) required snapshot = (.ok S, y) := by
  obtain ⟨x, hcd, hmade⟩ := (h.makeable hfits).createDirs
  have htarget : s.directory ++ [id, filesName] = s.directory ++ [id] ++ [filesName] := by simp
  rw [htarget] at hcd
  have hgrown := h.made
  have hwf := h.safe.wellFormed.createDirs h.target_cut
  have hsame := sameWalk_createDirs (s := s) h.rooted (s.directory ++ [id] ++ [filesName])
  rw [hcd] at hgrown hwf hsame
  have hdir := hmade.isDir
  rw [htarget] at hdir
  have hmet : ∀ f ∈ s.copyList x root required,
      ∃ names c, s.filter.Walks t root names c ∧ f = ⟨root ++ names, Key.ofNames names, c.size⟩ := fun f hf => by
    obtain ⟨names, c, hw, rfl⟩ := (mem_copyList required hsame hwf).1 hf
    exact ⟨names, c, hw.walks, rfl⟩
  obtain ⟨filled, z, hcopy, hkept⟩ := copyAll_goes checksum required h.room hp hfits (s.copyList x root required)
    snapshot x hmet (fun f hf hmem => by
      obtain ⟨names, c, hw, rfl⟩ := hmet f hf
      exact hreq names c hw hmem) hgrown (h.mirrors hroot hmade) hdir
  have hz := hkept.isDir hdir
  obtain ⟨⟨hc, hpass⟩, -⟩ := isDir_eq_true.1 hz
  rw [Passable.append] at hpass
  have hset := h.room.settled_eq [manifestName] goesDown_manifestName
  have hlead : z.Leads (s.directory ++ [id] ++ [manifestName]) := by
    refine ⟨hfits.manifest, Passable.append.2 ⟨hpass.1, hpass.2.1, ?_⟩⟩
    have hm := goesDown_manifestName manifestName (List.mem_singleton.2 rfl)
    rw [hm.1, if_neg (by simp), if_neg hm.2]
    exact ⟨by decide, trivial⟩
  have hnodir : z.shapeAt? (settled (s.directory ++ [id] ++ [manifestName])) ≠ some .dir := by
    intro hd
    rw [hset, List.append_assoc] at hd
    rcases hkept.newDirs _ hd with hx | ⟨k, -, ns, -, hplace, -⟩
    · have hnone := h.none_of_made hmade (q := [manifestName]) (by decide)
      exact absurd (hnone.symm.trans hx) (by simp)
    · rw [h.room.settled_copies, copiesPlace, List.append_assoc] at hplace
      obtain ⟨-, hnames⟩ := List.cons.inj (List.append_cancel_left hplace)
      exact absurd (List.cons.inj hnames).1 (by decide)
  have hlast : (s.directory ++ [id] ++ [manifestName]).getLast? ≠ some "" := by
    rw [List.getLast?_concat]
    decide
  rw [copyList] at hcopy
  rw [fill, hcd]
  simp only
  rw [hcopy]
  simp only
  split
  · rename_i hwr
    rw [write_of_leads hlead hlast hnodir] at hwr
    simp at hwr
  · exact ⟨_, _, rfl⟩

end Fill

/-! ## Capturing -/

/-- A capture goes through if a timestamp is left, its paths are short enough, and what is required can be read. -/
theorem capture_goes {env : Surroundings} {w : World} {required : List String} {floor : Nat}
    (h : s.Ready env w root) (hp : s.Plain w.files root) (hfloor : s.nextTimestamp? w.files = some floor)
    (hfits : s.Fits w.files root (idOf (max (w.now env) floor) (w.freshId env)))
    (hreq : ∀ names c, s.filter.Walks w.files root names c → Key.ofNames names ∈ required →
      ∃ c', w.files.read (root ++ names) = .ok c') (tag description : String) :
    ∃ S w', s.capture env w root tag description required = (.ok S, w') := by
  have hscene := h.scene (max (w.now env) floor)
  obtain ⟨S, y, hfill⟩ := fill_goes hscene h.rootDir hp hfits env.checksum hreq
    ⟨idOf (max (w.now env) floor) (w.freshId env), tag, description, max (w.now env) floor, [], [], 0, []⟩
  refine ⟨S, w.drawn.withFiles y, ?_⟩
  rw [capture]
  simp only [hfloor, hscene.room.dir_eq, hfill]

end SnapshotStore

end TreeRepair
