import TreeRepair.Proofs.Snapshot.Copies

/-! Capturing a tree. A capture that succeeds holds the bytes of every file that the walk meets and
that is small enough or required; one that fails leaves the files as they were. -/

set_option autoImplicit false

namespace TreeRepair

open Location Listing

namespace SnapshotStore

variable {s : SnapshotStore} {id : String} {t x y : Listing}

/-! ## Manifests of copies -/

theorem enter_foldl (checksum : HashFunction) (copies : List (String × ByteArray)) (snapshot : Snapshot) :
    copies.foldl (Snapshot.enter checksum) snapshot =
      { snapshot with
        files := snapshot.files ++ copies.map (·.1)
        checksums := copies.foldl (fun m p => m.put p.1 (checksum p.2)) snapshot.checksums
        totalBytes := snapshot.totalBytes + (copies.map (·.2.size)).sum } := by
  induction copies generalizing snapshot with
  | nil => simp
  | cons p rest ih =>
    rw [List.foldl_cons, ih]
    simp [Snapshot.enter, Nat.add_assoc]

theorem foldl_put_checksums (checksum : HashFunction) {copies : List (String × ByteArray)}
    (h : copies.Pairwise fun p q => p.1 < q.1) :
    copies.foldl (fun m p => SortedMap.put p.1 (checksum p.2) m) [] = copies.map fun p => (p.1, checksum p.2) := by
  have hsorted : SortedMap.Sorted (copies.map fun p => (p.1, checksum p.2)) := List.pairwise_map.2 h
  rw [← SortedMap.ofList_eq_self hsorted, SortedMap.ofList, List.foldl_map]

/-! ## Filling -/

/-- A tree whose walk meets safe keys only. -/
structure Safe (s : SnapshotStore) (t : Listing) (root : Location) : Prop where
  wellFormed : t.WellFormed
  keys : ∀ names c, s.filter.Walks t root names c → isSafeRelative (Key.ofNames names) = true

/-- A tree whose walk meets plain names only. -/
structure Plain (s : SnapshotStore) (t : Listing) (root : Location) : Prop where
  wellFormed : t.WellFormed
  names : ∀ names c, s.filter.Walks t root names c → Key.IsPlain names

/-- A root that is a directory, or below whose place no file lies. -/
def Rooted (t : Listing) (root : Location) : Prop :=
  t.isDir root = true ∨ ∀ names c, names ≠ [] → t.shapeAt? (root.settled ++ names) ≠ some (.file c)

/-- What a capture starts from: room for its directory, and files with safe keys. -/
structure Scene (s : SnapshotStore) (t : Listing) (root : Location) (id : String) : Prop where
  room : s.Room t id
  cut : s.directory.IsCut
  rooted : Rooted t root
  safe : s.Safe t root

/-- A file that a snapshot is to hold. -/
structure Wanted (s : SnapshotStore) (t : Listing) (root : Location) (required : List String)
    (names : List String) (c : ByteArray) : Prop where
  walks : s.filter.Walks t root names c
  taken : c.size ≤ s.maxFileBytes ∨ Key.ofNames names ∈ required

theorem Plain.safe {root : Location} (h : s.Plain t root) : s.Safe t root :=
  ⟨h.wellFormed, fun names c hw => Key.isSafeRelative_ofNames hw.ne_nil (hw.isName h.wellFormed) (h.names names c hw)⟩

section Fill

variable {checksum : HashFunction} {root : Location} {required : List String}

/-- The walk meets the same in two trees. -/
def SameWalk (s : SnapshotStore) (t x : Listing) (root : Location) : Prop :=
  ∀ names c, s.filter.Walks x root names c ↔ s.filter.Walks t root names c

theorem isDir_createDirs (h : t.isDir root = true) (l : Location) : (t.createDirs l).2.isDir root = true := by
  obtain ⟨hlead, hdir⟩ := isDir_eq_true.1 h
  exact isDir_eq_true.2 ⟨hlead.mono fun q hq => shapeAt?_createDirs_dir hq, shapeAt?_createDirs_dir hdir⟩

theorem Rooted.createDirs (h : Rooted t root) (l : Location) : Rooted (t.createDirs l).2 root :=
  h.imp (isDir_createDirs · l) fun hnot names c hne hfile => hnot names c hne (shapeAt?_createDirs_file.1 hfile)

theorem sameWalk_createDirs (h : Rooted t root) (l : Location) : s.SameWalk t (t.createDirs l).2 root := by
  refine fun names c => ⟨fun hw => ?_, fun hw => ?_⟩
  · have hfile := shapeAt?_createDirs_file.1 hw.isFile
    exact hw.mono (h.resolve_right fun hnot => hnot names c hw.ne_nil hfile) hfile
  · exact hw.mono (isDir_createDirs hw.isDir l) (shapeAt?_createDirs_file.2 hw.isFile)

theorem SameWalk.sum_eq (h : s.SameWalk t x root) (ht : t.WellFormed) (hx : x.WellFormed) :
    ((s.filter.walkFiles x root).map (·.size)).sum = ((s.filter.walkFiles t root).map (·.size)).sum := by
  have hperm : (s.filter.walkFiles x root).Perm (s.filter.walkFiles t root) := by
    refine (List.perm_ext_iff_of_nodup (s.filter.walkFiles_nodup hx root) (s.filter.walkFiles_nodup ht root)).2 fun f => ?_
    simp only [SourceFilter.mem_walkFiles ht, SourceFilter.mem_walkFiles hx, h _ _]
  exact (hperm.map _).sum_nat

/-- The files that a capture copies, in the order of keys. -/
def copyList (s : SnapshotStore) (x : Listing) (root : Location) (required : List String) : List TreeFile :=
  ((s.eligible x root).1 ++ ((s.eligible x root).2.partition fun f => required.contains f.key).1).mergeSort keyLe

theorem mem_copyList (required : List String) (hx : s.SameWalk t x root) (hwf : x.WellFormed) {f : TreeFile} :
    f ∈ s.copyList x root required ↔
      ∃ names c, s.Wanted t root required names c ∧ f = ⟨root ++ names, Key.ofNames names, c.size⟩ := by
  simp only [copyList, eligible, List.partition_eq_filter_filter, List.mem_mergeSort, List.mem_append,
    List.mem_filter, SourceFilter.mem_walkFiles hwf, hx _ _]
  constructor
  · rintro (⟨⟨names, c, hw, rfl⟩, hs⟩ | ⟨⟨⟨names, c, hw, rfl⟩, -⟩, hreq⟩)
    · exact ⟨names, c, ⟨hw, .inl (by simpa using hs)⟩, rfl⟩
    · exact ⟨names, c, ⟨hw, .inr (by simpa using hreq)⟩, rfl⟩
  · rintro ⟨names, c, ⟨hw, ht⟩, rfl⟩
    by_cases hs : c.size ≤ s.maxFileBytes
    · exact .inl ⟨⟨names, c, hw, rfl⟩, by simpa using hs⟩
    · exact .inr ⟨⟨⟨names, c, hw, rfl⟩, by simpa using hs⟩, by simpa using ht.resolve_left hs⟩

theorem Plain.copyList_pairwise (h : s.Plain t root) (hx : s.SameWalk t x root) (hwf : x.WellFormed) :
    (s.copyList x root required).Pairwise fun f g => f.key < g.key := by
  have hne : (s.copyList x root required).Pairwise fun f g => f.key ≠ g.key := by
    have hwalk := SourceFilter.walkFiles_pairwise (f := s.filter) hwf fun names c (hw : s.filter.Walks x root names c) =>
      h.names names c ((hx _ _).1 hw)
    refine (List.mergeSort_perm _ _).symm.pairwise (R := fun f g : TreeFile => f.key ≠ g.key) ?_ fun h => h.symm
    simp only [eligible, List.partition_eq_filter_filter]
    refine List.pairwise_append.2 ⟨hwalk.filter _, (hwalk.filter _).filter _, fun f hf g hg heq => ?_⟩
    simp only [List.mem_filter, SourceFilter.mem_walkFiles hwf, hx _ _] at hf hg
    obtain ⟨⟨names, c, hw, rfl⟩, hs⟩ := hf
    obtain ⟨⟨⟨names', c', hw', rfl⟩, hs'⟩, -⟩ := hg
    obtain rfl := Key.ofNames_inj hw.ne_nil hw'.ne_nil (hw.isName h.wellFormed) (hw'.isName h.wellFormed)
      (h.names _ _ hw) (h.names _ _ hw') heq
    have hc := hw.isFile.symm.trans hw'.isFile
    simp only [Option.some.injEq, Shape.file.injEq] at hc
    subst hc
    simp only [decide_eq_true_eq] at hs
    simp [hs] at hs'
  exact hne.imp₂ (fun _ _ h1 h2 => SortedMap.lt_of_not_lt h1.symm h2) (SourceFilter.mergeSort_pairwise _)

theorem Plain.copyList_steps (h : s.Plain t root) (hx : s.SameWalk t x root) (hwf : x.WellFormed) :
    (s.copyList x root required).Pairwise fun f g => Key.steps f.key ≠ Key.steps g.key := by
  refine (h.copyList_pairwise hx hwf).imp_of_mem fun {f g} hf hg hlt heq => ?_
  obtain ⟨names, c, hw, rfl⟩ := (mem_copyList required hx hwf).1 hf
  obtain ⟨names', c', hw', rfl⟩ := (mem_copyList required hx hwf).1 hg
  rw [Key.steps_ofNames hw.walks.ne_nil (hw.walks.isName h.wellFormed) (h.names _ _ hw.walks),
    Key.steps_ofNames hw'.walks.ne_nil (hw'.walks.isName h.wellFormed) (h.names _ _ hw'.walks)] at heq
  exact String.ne_of_lt hlt (by rw [heq])

theorem Safe.met (h : s.Safe t root) (required : List String) (hx : s.SameWalk t x root) (hwf : x.WellFormed) :
    ∀ f ∈ s.copyList x root required, s.Met t root f := by
  intro f hf
  obtain ⟨names, c, hw, rfl⟩ := (mem_copyList required hx hwf).1 hf
  exact ⟨names, c, hw.walks, h.keys names c hw.walks, rfl⟩

theorem Plain.mem_contents (h : s.Plain t root) (required : List String) (hx : s.SameWalk t x root) (hwf : x.WellFormed) {k : String}
    {c : ByteArray} :
    (k, c) ∈ contents t (s.copyList x root required) ↔
      ∃ names, s.Wanted t root required names c ∧ t.read (root ++ names) = .ok c ∧ k = Key.ofNames names := by
  simp only [contents, List.mem_filterMap, mem_copyList required hx hwf]
  constructor
  · rintro ⟨f, ⟨names, c', hw, rfl⟩, hf⟩
    obtain ⟨c'', hread, hk⟩ := Option.map_eq_some_iff.1 hf
    obtain ⟨rfl, rfl⟩ := Prod.mk.inj hk
    have hok : t.read (root ++ names) = .ok c'' := by
      cases hr : t.read (root ++ names) with
      | error fault => simp [hr, Except.toOption] at hread
      | ok c => simpa [hr, Except.toOption] using hread
    have hc := hw.walks.eq_of_read (hw.walks.isName h.wellFormed) hok
    subst hc
    exact ⟨names, hw, hok, rfl⟩
  · rintro ⟨names, hw, hok, rfl⟩
    exact ⟨_, ⟨names, c, hw, rfl⟩, by simp [hok, Except.toOption]⟩

theorem Plain.contents_pairwise (h : s.Plain t root) (required : List String) (hx : s.SameWalk t x root) (hwf : x.WellFormed) :
    (contents t (s.copyList x root required)).Pairwise fun p q => p.1 < q.1 := by
  refine (h.copyList_pairwise hx hwf).filterMap _ fun f g hlt p hp q hq => ?_
  obtain ⟨c, -, rfl⟩ := Option.map_eq_some_iff.1 hp
  obtain ⟨c', -, rfl⟩ := Option.map_eq_some_iff.1 hq
  exact hlt

theorem sum_contents_le_sizes (ht : t.WellFormed) {fs : List TreeFile} (hfs : ∀ f ∈ fs, ∃ names c,
      s.filter.Walks t root names c ∧ f = ⟨root ++ names, Key.ofNames names, c.size⟩) :
    ((contents t fs).map (·.2.size)).sum ≤ (fs.map (·.size)).sum := by
  induction fs with
  | nil => simp [contents]
  | cons f rest ih =>
    have hrest := ih fun g hg => hfs g (List.mem_cons_of_mem f hg)
    obtain ⟨names, c, hw, rfl⟩ := hfs f (List.mem_cons_self ..)
    have hread := hw.read_eq (hw.isName ht)
    cases hcp : checkPath (root ++ names) with
    | error fault =>
      rw [hcp] at hread
      rw [contents_cons_of_error hread, List.map_cons, List.sum_cons]
      omega
    | ok u =>
      rw [hcp] at hread
      rw [contents_cons_of_ok hread, List.map_cons, List.sum_cons, List.map_cons, List.sum_cons]
      exact Nat.add_le_add (Nat.le_refl c.size) hrest

theorem sum_contents_le (required : List String) (hx : s.SameWalk t x root) (ht : t.WellFormed) (hwf : x.WellFormed) :
    ((contents t (s.copyList x root required)).map (·.2.size)).sum ≤
      ((s.filter.walkFiles t root).map (·.size)).sum := by
  have hmet : ∀ f ∈ s.copyList x root required, ∃ names c,
      s.filter.Walks t root names c ∧ f = ⟨root ++ names, Key.ofNames names, c.size⟩ := fun f hf => by
    obtain ⟨names, c, hw, rfl⟩ := (mem_copyList required hx hwf).1 hf
    exact ⟨names, c, hw.walks, rfl⟩
  refine Nat.le_trans (sum_contents_le_sizes ht hmet) ?_
  rw [copyList, ((List.mergeSort_perm _ _).map _).sum_nat]
  simp only [eligible, List.partition_eq_filter_filter, List.map_append, List.sum_append]
  have hsplit : ∀ l : List TreeFile, ((l.filter fun f => decide (f.size ≤ s.maxFileBytes)).map (·.size)).sum +
      ((l.filter fun f => !decide (f.size ≤ s.maxFileBytes)).map (·.size)).sum = (l.map (·.size)).sum := by
    intro l
    induction l with
    | nil => rfl
    | cons f rest ih =>
      by_cases hs : f.size ≤ s.maxFileBytes
      · simp only [List.filter_cons, hs, decide_true, if_true, Bool.not_true, Bool.false_eq_true, if_false,
          List.map_cons, List.sum_cons] at ih ⊢
        omega
      · simp only [List.filter_cons, hs, decide_false, if_true, Bool.not_false, Bool.false_eq_true, if_false,
          List.map_cons, List.sum_cons] at ih ⊢
        omega
  have hforced := SourceFilter.sum_filter_le (·.size) (fun f : TreeFile => required.contains f.key)
    ((s.filter.walkFiles x root).filter fun f => !decide (f.size ≤ s.maxFileBytes))
  have hwalk := hx.sum_eq ht hwf
  have hboth := hsplit (s.filter.walkFiles x root)
  simp only [Function.comp_def] at hforced ⊢
  omega

/-- A record of a tree: the checksum of each file that the walk meets, that is small enough or required, and that
can be read, and the keys of the others that are too large. -/
structure Records (s : SnapshotStore) (checksum : HashFunction) (t : Listing) (root : Location)
    (required : List String) (S : Snapshot) : Prop where
  sorted : S.checksums.Sorted
  files_eq : S.files = S.checksums.keys
  mem_checksums : ∀ k sum, (k, sum) ∈ S.checksums ↔ ∃ names c, s.Wanted t root required names c ∧
    t.read (root ++ names) = .ok c ∧ k = Key.ofNames names ∧ sum = checksum c
  mem_skipped : ∀ k, k ∈ S.skippedOversize ↔ ∃ names c, s.filter.Walks t root names c ∧
    k = Key.ofNames names ∧ s.maxFileBytes < c.size ∧ k ∉ required

/-- The manifest that enters the contents of a walk records the tree. -/
theorem Plain.records (h : s.Plain t root) (hx : s.SameWalk t x root) (hwf : x.WellFormed)
    {tag description : String} {timestamp : Nat} {filled : Snapshot}
    (hfold : filled = (contents t (s.copyList x root required)).foldl (Snapshot.enter checksum)
      ⟨id, tag, description, timestamp, [], [], 0, []⟩) :
    s.Records checksum t root required { filled with
      skippedOversize := ((s.eligible x root).2.partition fun f => required.contains f.key).2.map (·.key) } := by
  have hcontents := fun k c => h.mem_contents required (k := k) (c := c) hx hwf
  have hsorted := h.contents_pairwise required hx hwf
  have hput := foldl_put_checksums checksum hsorted
  rw [enter_foldl] at hfold
  simp only at hfold
  rw [hput] at hfold
  rw [hfold]
  refine ⟨List.pairwise_map.2 hsorted, by simp [SortedMap.keys], fun k sum => ?_, fun k => ?_⟩
  · simp only [List.mem_map]
    constructor
    · rintro ⟨⟨k', c⟩, hc, heq⟩
      obtain ⟨rfl, rfl⟩ := Prod.mk.inj heq
      obtain ⟨names, hw, hread, rfl⟩ := (hcontents k' c).1 hc
      exact ⟨names, c, hw, hread, rfl, rfl⟩
    · rintro ⟨names, c, hw, hread, rfl, rfl⟩
      exact ⟨(Key.ofNames names, c), (hcontents _ c).2 ⟨names, hw, hread, rfl⟩, rfl⟩
  · simp only [eligible, List.partition_eq_filter_filter, List.mem_map, List.mem_filter,
      SourceFilter.mem_walkFiles hwf, hx _ _]
    constructor
    · rintro ⟨f, ⟨⟨⟨names, c, hw, rfl⟩, hs⟩, hreq⟩, rfl⟩
      exact ⟨names, c, hw, rfl, by simpa using hs, by simpa using hreq⟩
    · rintro ⟨names, c, hw, rfl, hs, hreq⟩
      exact ⟨_, ⟨⟨⟨names, c, hw, rfl⟩, by simpa using hs⟩, by simpa using hreq⟩, rfl⟩

end Fill

/-! ## Filling the directory -/

section Fill

variable {checksum : HashFunction} {root : Location} {required : List String}

theorem Room.above_files (h : s.Room t id) {a : Location} (ha : a <+: s.directory ++ [id] ++ [filesName]) :
    t.shapeAt? a.settled = some .dir ∨
      ∃ ns, ns ≠ [] ∧ ns <+: [id, filesName] ∧ a.settled = s.directory.settled ++ ns := by
  have hgo : ∀ n ∈ [id, filesName], GoesDown n := by
    intro n hm
    rcases List.mem_cons.1 hm with rfl | hm
    · exact h.goesDown
    · rw [List.mem_singleton.1 hm]
      exact goesDown_filesName
  rw [List.append_assoc, List.singleton_append] at ha
  exact settled_of_prefix h.leads.2 h.shapeAt? hgo ha

theorem Scene.made (h : s.Scene t root id) :
    s.Grown id t (t.createDirs (s.directory ++ [id] ++ [filesName])).2 := by
  refine (Grown.refl h.room).createDirs h.room fun a ha => ?_
  rcases h.room.above_files ha with hd | ⟨ns, hne, hns, hset⟩
  · exact .inl hd
  · refine .inr ?_
    rw [hset]
    obtain ⟨m, ms, rfl⟩ := List.exists_cons_of_ne_nil hne
    obtain ⟨rfl, -⟩ := List.cons_prefix_cons.1 hns
    exact ⟨ms, by simp⟩

theorem Scene.target_cut (h : s.Scene t root id) : (s.directory ++ [id] ++ [filesName]).IsCut :=
  (h.cut.append_name h.room.noSlash).append_name (by decide)

/-- A manifest in the directory of a new snapshot. -/
structure Shelved (s : SnapshotStore) (t : Listing) (root : Location) (id : String) (S : Snapshot) (y : Listing) :
    Prop where
  grown : s.Grown id t y
  wellFormed : y.WellFormed
  id_eq : S.id = id
  sorted : S.checksums.Sorted
  totalBytes_le : S.totalBytes ≤ ((s.filter.walkFiles t root).map (·.size)).sum
  manifest : y.shapeAt? (s.directory.settled ++ [id, manifestName]) = some (.file S.bytes) ∧
    y.Leads (s.directory ++ [id] ++ [manifestName])

/-- A snapshot that holds what a walk over a tree meets, in the files behind its capture. -/
structure Captured (s : SnapshotStore) (checksum : HashFunction) (t : Listing) (root : Location)
    (required : List String) (id : String) (S : Snapshot) (y : Listing) : Prop
    extends s.Records checksum t root required S, s.Shelved t root id S y where
  required_read : ∀ names c, s.filter.Walks t root names c → Key.ofNames names ∈ required →
    t.read (root ++ names) = .ok c
  copy : ∀ names c, s.Wanted t root required names c → t.read (root ++ names) = .ok c →
    y.shapeAt? (s.copiesPlace id ++ names) = some (.file c) ∧
      y.Leads (s.directory ++ [id] ++ [filesName] ++ names)

theorem goesDown_manifestName : ∀ n ∈ [manifestName], GoesDown n := by
  intro n hm
  rw [List.mem_singleton.1 hm]
  exact ⟨by decide, by decide⟩

theorem fill_grown (checksum : HashFunction) (required : List String) (h : s.Scene t root id) (snapshot : Snapshot) :
    s.Grown id t (s.fill checksum t root (s.directory ++ [id]) required snapshot).2 ∧
      (s.fill checksum t root (s.directory ++ [id]) required snapshot).2.WellFormed := by
  have hmade := h.made
  have hwf := h.safe.wellFormed.createDirs h.target_cut
  have hsame := sameWalk_createDirs (s := s) h.rooted (s.directory ++ [id] ++ [filesName])
  rw [fill]
  simp only
  cases hcd : t.createDirs (s.directory ++ [id] ++ [filesName]) with
  | mk res x =>
    rw [hcd] at hmade hwf hsame
    cases res with
    | error fault => exact ⟨hmade, hwf⟩
    | ok u =>
      simp only
      have hgrown := copyAll_grown checksum required h.room
        (fun f (hf : f ∈ s.copyList x root required) => (h.safe.met required hsame hwf f hf).safe) snapshot hmade
      have hwfc := copyAll_wellFormed checksum required h.target_cut (s.copyList x root required) snapshot hwf
      rw [copyList] at hgrown hwfc
      cases hcopy : copyAll checksum (s.directory ++ [id] ++ [filesName]) required
          (((s.eligible x root).1 ++ ((s.eligible x root).2.partition fun f => required.contains f.key).1).mergeSort
            keyLe) snapshot x with
      | mk res2 z =>
        rw [hcopy] at hgrown hwfc
        cases res2 with
        | error fault => exact ⟨hgrown, hwfc⟩
        | ok filled =>
          simp only
          split
          · exact ⟨hgrown, hwfc⟩
          · rename_i y hwr
            refine ⟨hgrown.write h.room hwr (h.room.settled_eq [manifestName] goesDown_manifestName) (by simp),
              hwfc.write ?_ hwr⟩
            exact (h.cut.append_name h.room.noSlash).append_name (by decide)

/-- A directory that has been filled was made, then the copies were written, then the manifest. -/
theorem fill_eq_ok {directory : Location} {snapshot S : Snapshot}
    (hf : s.fill checksum t root directory required snapshot = (.ok S, y)) :
    ∃ x filled z, t.createDirs (directory ++ [filesName]) = (.ok (), x) ∧
      copyAll checksum (directory ++ [filesName]) required (s.copyList x root required) snapshot x = (.ok filled, z) ∧
      S = { filled with
        skippedOversize := ((s.eligible x root).2.partition fun f => required.contains f.key).2.map (·.key) } ∧
      z.write (directory ++ [manifestName]) S.bytes = .ok y := by
  rw [fill] at hf
  simp only at hf
  cases hcd : t.createDirs (directory ++ [filesName]) with
  | mk res x =>
    rw [hcd] at hf
    cases res with
    | error fault => simp at hf
    | ok u =>
      simp only at hf
      split at hf
      · simp at hf
      · rename_i filled z hcopy
        split at hf
        · simp at hf
        · rename_i written hwr
          simp only [Prod.mk.injEq, Except.ok.injEq] at hf
          obtain ⟨rfl, rfl⟩ := hf
          exact ⟨x, filled, z, rfl, hcopy, rfl, hwr⟩

/-- The copies of files with plain names are where the snapshot has them, its manifest beside them. -/
theorem Plain.copy_of_copied {z : Listing} {bytes : ByteArray} (hp : s.Plain t root) (hid : GoesDown id)
    (hsame : s.SameWalk t x root) (hwf : x.WellFormed)
    (hcop : s.Copied id t required (s.copyList x root required) x z)
    (hwr : z.write (s.directory ++ [id] ++ [manifestName]) bytes = .ok y) (names : List String) (c : ByteArray)
    (hw : s.Wanted t root required names c) (hread : t.read (root ++ names) = .ok c) :
    y.shapeAt? (s.copiesPlace id ++ names) = some (.file c) ∧
      y.Leads (s.directory ++ [id] ++ [filesName] ++ names) := by
  obtain ⟨-, -, hnodir, -⟩ := write_eq_ok hwr
  have hshape := shapeAt?_write hwr
  have hmanifest : settled (s.directory ++ [id] ++ [manifestName]) = s.directory.settled ++ [id, manifestName] := by
    rw [List.append_assoc, settled_append_names]
    · rfl
    · intro n hm
      rcases List.mem_cons.1 hm with rfl | hm
      · exact hid
      · exact goesDown_manifestName n hm
  obtain ⟨hz, hzl⟩ := hcop.copies (hp.copyList_steps hsame hwf) (Key.ofNames names, c)
    ((hp.mem_contents required hsame hwf).2 ⟨names, hw, hread, rfl⟩)
  have hn := hw.walks.isName hp.wellFormed
  rw [Key.steps_ofNames hw.walks.ne_nil hn (hp.names _ _ hw.walks)] at hz
  rw [Key.join_ofNames hw.walks.ne_nil hn (hp.names _ _ hw.walks)] at hzl
  refine ⟨?_, hzl.mono fun q hq => by rw [hshape, if_neg (by rintro rfl; exact hnodir hq), hq]⟩
  rw [hshape, if_neg, hz]
  rw [hmanifest, copiesPlace]
  intro heq
  have hfiles : filesName = manifestName ∧ names = [] := by simpa using heq
  exact absurd hfiles.1 (by decide)

section Filled

variable (h : s.Scene t root id) {tag description : String} {timestamp : Nat} {S : Snapshot}
  (hf : s.fill checksum t root (s.directory ++ [id]) required ⟨id, tag, description, timestamp, [], [], 0, []⟩ =
    (.ok S, y))

include h hf

theorem fill_shelved : s.Shelved t root id S y ∧ S.timestamp = timestamp ∧ S.tag = tag := by
  have hwf := h.safe.wellFormed.createDirs h.target_cut
  have hsame := sameWalk_createDirs (s := s) h.rooted (s.directory ++ [id] ++ [filesName])
  have hmade := h.made
  have hfill := fill_grown checksum required h ⟨id, tag, description, timestamp, [], [], 0, []⟩
  rw [hf] at hfill
  obtain ⟨x, filled, z, hcd, hcopy, rfl, hwr⟩ := fill_eq_ok hf
  rw [hcd] at hwf hsame hmade
  obtain ⟨hfold, -⟩ := copyAll_ok checksum required h.room.goesDown _ _ x
    (Grown.steady h.room h.safe.wellFormed (h.safe.met required hsame hwf)) hmade filled z hcopy
  have hsum := sum_contents_le required hsame h.safe.wellFormed hwf
  rw [enter_foldl] at hfold
  obtain ⟨hlead, -, hnodir, -⟩ := write_eq_ok hwr
  have hshape := shapeAt?_write hwr
  refine ⟨⟨hfill.1, hfill.2, by rw [hfold], ?_, ?_, ?_, hlead.mono fun q hq => ?_⟩, by rw [hfold], by rw [hfold]⟩
  · rw [hfold]
    have hlist := SortedMap.sorted_ofList ((contents t (s.copyList x root required)).map fun p => (p.1, checksum p.2))
    rwa [SortedMap.ofList, List.foldl_map] at hlist
  · rw [hfold]
    simpa using hsum
  · rw [hshape, if_pos (by rw [h.room.settled_eq _ goesDown_manifestName]; simp)]
  · rw [hshape, if_neg (by rintro rfl; exact hnodir hq), hq]

theorem fill_captured (hp : s.Plain t root) : s.Captured checksum t root required id S y := by
  have hshelved := (fill_shelved h hf).1
  have hwf := h.safe.wellFormed.createDirs h.target_cut
  have hsame := sameWalk_createDirs (s := s) h.rooted (s.directory ++ [id] ++ [filesName])
  have hmade := h.made
  obtain ⟨x, filled, z, hcd, hcopy, rfl, hwr⟩ := fill_eq_ok hf
  rw [hcd] at hwf hsame hmade
  obtain ⟨hfold, hcop⟩ := copyAll_ok checksum required h.room.goesDown _ _ x
    (Grown.steady h.room h.safe.wellFormed (h.safe.met required hsame hwf)) hmade filled z hcopy
  have hread : ∀ names c, s.filter.Walks t root names c → Key.ofNames names ∈ required →
      t.read (root ++ names) = .ok c := by
    intro names c hw hreq
    obtain ⟨c', hread⟩ := hcop.read _ ((mem_copyList required hsame hwf).2 ⟨names, c, ⟨hw, .inr hreq⟩, rfl⟩) hreq
    exact hw.eq_of_read (hw.isName hp.wellFormed) hread ▸ hread
  exact { hp.records hsame hwf hfold, hshelved with
    required_read := hread
    copy := hp.copy_of_copied h.room.goesDown hsame hwf hcop hwr }

end Filled

end Fill

/-! ## Ids -/

theorem mem_idOf {timestamp : Nat} {freshId : String} (h : ∀ c ∈ freshId.toList, Digest.isHexDigit c = true ∨ c = '-')
    {c : Char} (hc : c ∈ (idOf timestamp freshId).toList) : Digest.isHexDigit c = true ∨ c = '-' := by
  rw [idOf, String.toList_append, String.toList_append, List.mem_append, List.mem_append, String.toList_ofList] at hc
  rcases hc with (hc | hc) | hc
  · rw [Nat.toString_eq_repr, Nat.toList_repr] at hc
    have hd := Nat.isDigit_of_mem_toDigits (by decide) (by decide) hc
    rw [Char.isDigit, Bool.and_eq_true, decide_eq_true_eq, decide_eq_true_eq] at hd
    refine .inl ?_
    rw [Digest.isHexDigit, Bool.or_eq_true, Bool.or_eq_true, Bool.and_eq_true, decide_eq_true_eq, decide_eq_true_eq]
    exact .inl (.inl hd)
  · exact .inr (by simpa using hc)
  · rw [String.toList_ofList] at hc
    exact h c (List.mem_of_mem_take hc)

theorem isHex_of_all {text : String} (h : text.toList.all (fun c => Digest.isHexDigit c || c == '-') = true) :
    ∀ c ∈ text.toList, Digest.isHexDigit c = true ∨ c = '-' := by
  intro c hc
  have hchar := List.all_eq_true.1 h c hc
  simpa using hchar

theorem idOf_head (timestamp : Nat) (freshId : String) :
    ∃ c cs, (idOf timestamp freshId).toList = c :: cs ∧ c.isDigit = true := by
  obtain ⟨c, cs, hc⟩ := List.exists_cons_of_ne_nil (Nat.toDigits_ne_nil (n := timestamp) (b := 10))
  refine ⟨c, cs ++ '-' :: freshId.toList.take 8, ?_, ?_⟩
  · rw [idOf, String.toList_append, String.toList_append, Nat.toString_eq_repr, Nat.toList_repr, hc]
    simp
  · exact Nat.isDigit_of_mem_toDigits (b := 10) (n := timestamp) (by decide) (by decide) (by simp [hc])

theorem ne_idOf {text freshId : String} (hne : freshId.toList.take 8 ≠ [])
    (h : text.toList.getLast? ≠ (freshId.toList.take 8).getLast?) (timestamp : Nat) : text ≠ idOf timestamp freshId := by
  rintro rfl
  rw [idOf, String.toList_append, String.toList_ofList, List.getLast?_append_of_ne_nil _ hne] at h
  exact h rfl

section Ids

variable {timestamp : Nat} {freshId : String}
  (h : ∀ c ∈ freshId.toList, Digest.isHexDigit c = true ∨ c = '-')

include h

theorem noSlash_idOf : '/' ∉ (idOf timestamp freshId).toList :=
  fun hc => absurd (mem_idOf h hc) (by decide)

omit h in
theorem goesDown_idOf : GoesDown (idOf timestamp freshId) := by
  obtain ⟨c, cs, hc, hd⟩ := idOf_head timestamp freshId
  have hne : ∀ text : String, text.toList.head?.all (fun d => !d.isDigit) = true → idOf timestamp freshId ≠ text := by
    intro text ht heq
    rw [← heq, hc] at ht
    simp [hd] at ht
  refine ⟨?_, hne ".." (by decide)⟩
  simp [isVoid, hne "" (by decide), hne "." (by decide)]

theorem isPlainName_idOf : isPlainName (idOf timestamp freshId) = true := by
  have hgo : GoesDown (idOf timestamp freshId) := goesDown_idOf
  have hv : ¬ (idOf timestamp freshId = "" ∨ idOf timestamp freshId = ".") := by
    simpa [isVoid] using hgo.1
  rw [not_or] at hv
  have hall : (idOf timestamp freshId).toList.all (fun c => c != '/' && c != '\\') = true := by
    rw [List.all_eq_true]
    intro c hc
    have hhex := mem_idOf h hc
    simp only [Bool.and_eq_true, bne_iff_ne, ne_eq]
    constructor
    · rintro rfl
      exact absurd hhex (by decide)
    · rintro rfl
      exact absurd hhex (by decide)
  simp [isPlainName, hv, hgo.2, hall]

end Ids

/-! ## Captures -/

/-- What a capture in a world starts from: a store that is there, a directory whose files have safe keys, and a
fresh id of hexadecimal digits. -/
structure Ready (s : SnapshotStore) (env : Surroundings) (w : World) (root : Location) : Prop where
  storeDir : w.files.isDir s.directory = true
  cut : s.directory.IsCut
  rootDir : w.files.isDir root = true
  safe : s.Safe w.files root
  hex : ∀ c ∈ (w.freshId env).toList, Digest.isHexDigit c = true ∨ c = '-'
  fresh : ∀ ts, w.files.shapeAt? (s.directory.settled ++ [idOf ts (w.freshId env)]) = none

section Capture

variable {env : Surroundings} {w w' : World} {root : Location} {tag description : String} {required : List String}

theorem Ready.scene (h : s.Ready env w root) (ts : Nat) : s.Scene w.files root (idOf ts (w.freshId env)) where
  room := ⟨h.storeDir, noSlash_idOf h.hex, goesDown_idOf, h.fresh ts⟩
  cut := h.cut
  rooted := .inl h.rootDir
  safe := h.safe

/-- The next capture in a world has its scene, under the id that belongs to its timestamp. -/
def Poised (s : SnapshotStore) (env : Surroundings) (w : World) (root : Location) : Prop :=
  ∀ floor, s.nextTimestamp? w.files = some floor →
    s.Scene w.files root (idOf (max (w.now env) floor) (w.freshId env))

theorem Ready.poised (h : s.Ready env w root) : s.Poised env w root := fun _ _ => h.scene _

/-- A capture that succeeds leaves a manifest, and the copies that it names if the names of files are plain. The
timestamp is the clock's reading, or the first one behind the latest snapshot. -/
theorem capture_ok (h : s.Poised env w root) {S : Snapshot}
    (hc : s.capture env w root tag description required = (.ok S, w')) :
    (∃ floor, s.nextTimestamp? w.files = some floor ∧ S.timestamp = max (w.now env) floor) ∧ S.tag = tag ∧
      w' = w.drawn.withFiles w'.files ∧
      s.Shelved w.files root (idOf S.timestamp (w.freshId env)) S w'.files ∧
      (s.Plain w.files root →
        s.Captured env.checksum w.files root required (idOf S.timestamp (w.freshId env)) S w'.files) := by
  rw [capture] at hc
  cases hfloor : s.nextTimestamp? w.files with
  | none => simp [hfloor] at hc
  | some floor =>
    have hscene := h floor hfloor
    simp only [hfloor, hscene.room.dir_eq] at hc
    split at hc
    · rename_i S' files hfill
      simp only [Prod.mk.injEq, Except.ok.injEq] at hc
      obtain ⟨rfl, rfl⟩ := hc
      obtain ⟨hshelved, hts, htag⟩ := fill_shelved hscene hfill
      rw [hts]
      exact ⟨⟨floor, rfl, rfl⟩, htag, rfl, hshelved, fill_captured hscene hfill⟩
    · simp at hc

theorem nextTimestamp?_lt {files : Listing} {floor : Nat} (h : s.nextTimestamp? files = some floor) :
    floor < timestampBound := by
  rw [nextTimestamp?] at h
  split at h
  · obtain rfl := Option.some.inj h
    decide
  · split at h
    · obtain rfl := Option.some.inj h
      assumption
    · simp at h

theorem writable_of_capture (h : s.Poised env w root) (hclock : w.now env < timestampBound)
    (hsize : ((s.filter.walkFiles w.files root).map (·.size)).sum < timestampBound) {S : Snapshot}
    (hc : s.capture env w root tag description required = (.ok S, w')) : S.Writable := by
  obtain ⟨⟨floor, hfloor, hts⟩, -, -, hshelved, -⟩ := capture_ok h hc
  have hbound := nextTimestamp?_lt hfloor
  refine ⟨?_, Nat.lt_of_le_of_lt hshelved.totalBytes_le hsize, hshelved.sorted⟩
  rw [hts]
  exact Nat.max_lt.2 ⟨hclock, hbound⟩

theorem capture_error (h : s.Poised env w root) {e : SnapshotError}
    (hc : s.capture env w root tag description required = (.error e, w')) :
    w'.files = w.files ∧ ∀ id reason, e ≠ .rollbackFailed id reason := by
  rw [capture] at hc
  cases hfloor : s.nextTimestamp? w.files with
  | none =>
    simp only [hfloor, Prod.mk.injEq, Except.error.injEq] at hc
    obtain ⟨rfl, rfl⟩ := hc
    exact ⟨rfl, by simp⟩
  | some floor =>
    have hscene := h floor hfloor
    simp only [hfloor, hscene.room.dir_eq] at hc
    split at hc
    · simp at hc
    · rename_i fault files hfill
      simp only [Prod.mk.injEq, Except.error.injEq] at hc
      obtain ⟨rfl, rfl⟩ := hc
      refine ⟨?_, by simp⟩
      have hgrown := (fill_grown env.checksum required hscene
        ⟨idOf (max (w.now env) floor) (w.freshId env), tag, description, max (w.now env) floor, [], [], 0, []⟩).1
      rw [hfill] at hgrown
      cases hcp : checkPath (s.directory ++ [idOf (max (w.now env) floor) (w.freshId env)]) with
      | ok u => exact hgrown.removeDir hscene.room hcp
      | error f =>
        -- a path that is none makes no directory, and there is none to remove
        have hset : settled (s.directory ++ [idOf (max (w.now env) floor) (w.freshId env)]) =
            s.directory.settled ++ [idOf (max (w.now env) floor) (w.freshId env)] := by
          simpa using hscene.room.settled_eq [] (by simp)
        have hsame : files = w.files := by
          have hcd := createDirs_of_checkPath (t := w.files) (l := s.directory ++
            [idOf (max (w.now env) floor) (w.freshId env)] ++ [filesName]) fun hok => by
              rw [checkPath_of_append hok] at hcp
              simp at hcp
          obtain ⟨fault', hcd⟩ := hcd
          rw [fill, hcd] at hfill
          simpa using (Prod.mk.inj hfill).2.symm
        rw [hsame]
        exact removeDir_of_not_dir (by rw [hset, hscene.room.absent]; simp)

end Capture

/-! ## Reading a snapshot -/

theorem loadPlace_eq (hs : '/' ∉ id.toList) :
    (s.snapshotDir id).join manifestName = s.directory ++ [id] ++ [manifestName] := by
  rw [snapshotDir_eq hs, join_name (by decide)]

theorem noSlash_of_isPlainName (h : isPlainName id = true) : '/' ∉ id.toList := by
  simp only [isPlainName, Bool.and_eq_true, List.all_eq_true, bne_iff_ne] at h
  exact fun hc => (h.2 _ hc).1 rfl

theorem goesDown_of_isPlainName (h : isPlainName id = true) : GoesDown id := by
  simp only [isPlainName, Bool.and_eq_true, bne_iff_ne, Bool.not_eq_true', String.isEmpty_eq_false_iff] at h
  exact ⟨by simp [isVoid, h.1.1.1, h.1.1.2], h.1.2⟩

theorem load_eq_ok {S : Snapshot} (hplain : isPlainName id = true) (hw : S.Writable)
    (hshape : x.shapeAt? (s.directory.settled ++ [id, manifestName]) = some (.file S.bytes))
    (hlead : x.Leads (s.directory ++ [id] ++ [manifestName])) : s.load x id = .ok S := by
  have hset : settled (s.directory ++ [id] ++ [manifestName]) = s.directory.settled ++ [id, manifestName] := by
    rw [List.append_assoc, settled_append_names]
    · rfl
    · intro n hm
      rcases List.mem_cons.1 hm with rfl | hm
      · exact goesDown_of_isPlainName hplain
      · exact goesDown_manifestName n hm
  have hread : x.read (s.directory ++ [id] ++ [manifestName]) = .ok S.bytes :=
    read_eq_ok.2 ⟨hlead, by rw [hset, hshape]⟩
  rw [load, if_neg (by simp [hplain]), loadPlace_eq (noSlash_of_isPlainName hplain), hread]
  simp only [Snapshot.ofBytes?_bytes hw]

theorem isPlainName_of_load {S : Snapshot} (h : s.load x id = .ok S) : isPlainName id = true := by
  rw [load] at h
  split at h
  · simp at h
  · rename_i hplain
    simpa using hplain

theorem load_eq_ok_iff {S : Snapshot} : s.load x id = .ok S ↔
    isPlainName id = true ∧ ∃ bytes, x.read (s.directory ++ [id] ++ [manifestName]) = .ok bytes ∧
      Snapshot.ofBytes? bytes = some S := by
  rw [load]
  split
  · rename_i hplain
    simp_all
  · rename_i hplain
    have hp : isPlainName id = true := by simpa using hplain
    rw [loadPlace_eq (noSlash_of_isPlainName hp)]
    cases hr : x.read (s.directory ++ [id] ++ [manifestName]) with
    | error fault => cases fault <;> simp
    | ok bytes => cases hb : Snapshot.ofBytes? bytes <;> simp [hb, hp]

theorem isDir_of_load {S : Snapshot} (h : s.load x id = .ok S) : x.isDir s.directory = true := by
  obtain ⟨-, bytes, hr, -⟩ := load_eq_ok_iff.1 h
  obtain ⟨⟨hcp, hpass⟩, -⟩ := read_eq_ok.1 hr
  rw [List.append_assoc] at hcp hpass
  rw [Passable.append] at hpass
  exact isDir_eq_true.2 ⟨⟨checkPath_of_append hcp, hpass.1⟩, hpass.2.1⟩

theorem shapeAt?_of_load {S : Snapshot} (h : s.load x id = .ok S) :
    x.shapeAt? (s.directory.settled ++ [id]) = some .dir := by
  obtain ⟨hplain, bytes, hr, -⟩ := load_eq_ok_iff.1 h
  have hshape := (read_eq_ok.1 hr).2
  rw [settled_append_names goesDown_manifestName,
    settled_append_names (by simpa using goesDown_of_isPlainName hplain)] at hshape
  exact shapeAt?_of_append (q := [manifestName]) (by rw [hshape]; simp) (by simp)

theorem load_error {e : SnapshotError} (h : s.load x id = .error e) (emergency reason : String) :
    e ≠ .rollbackFailed emergency reason := by
  rintro rfl
  rw [load] at h
  split at h
  · simp at h
  · split at h
    · simp at h
    · simp at h
    · split at h <;> simp at h

theorem storedFile_eq_ok {S : Snapshot} {key : String} {place : Location} :
    s.storedFile S key = .ok place ↔
      isSafeRelative key = true ∧ ((s.snapshotDir S.id).join filesName).join key = place := by
  rw [storedFile]
  split <;> simp_all

theorem storedFile_ofNames {S : Snapshot} (hid : '/' ∉ S.id.toList) {names : List String} (hne : names ≠ [])
    (hn : ∀ n ∈ names, IsName n) (hp : Key.IsPlain names) :
    s.storedFile S (Key.ofNames names) = .ok (s.directory ++ [S.id] ++ [filesName] ++ names) := by
  refine storedFile_eq_ok.2 ⟨Key.isSafeRelative_ofNames hne hn hp, ?_⟩
  rw [snapshotDir_eq hid, Key.join_ofNames hne hn hp, join_name (by decide)]

theorem settled_stored (hid : GoesDown id) {names : List String} (hn : ∀ n ∈ names, IsName n) :
    settled (s.directory ++ [id] ++ [filesName] ++ names) = s.copiesPlace id ++ names := by
  rw [List.append_assoc, List.append_assoc, settled_append_names]
  · simp [copiesPlace]
  · intro n hm
    rcases List.mem_cons.1 hm with rfl | hm
    · exact hid
    · rcases List.mem_cons.1 hm with rfl | hm
      · exact goesDown_filesName
      · exact (hn n hm).goesDown

end SnapshotStore

end TreeRepair
