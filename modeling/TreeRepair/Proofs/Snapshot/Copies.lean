import TreeRepair.Proofs.Snapshot.Room

/-! Copies of files in the directory of a new snapshot. Copying changes that directory only, and when it
succeeds every file that could be read has its bytes in its place. -/

set_option autoImplicit false

namespace TreeRepair

open Location Listing

namespace Listing

theorem read_of_checkPath_error {t : Listing} {l : Location} {fault : FileFault} (h : checkPath l = .error fault) :
    t.read l = .error fault := by
  simp [read, entryAt, locate, h]

end Listing

namespace SourceFilter

variable {f : SourceFilter} {t : Listing} {root : Location} {names : List String} {c : ByteArray}

theorem Walks.leads (h : f.Walks t root names c) (hn : ∀ n ∈ names, IsName n)
    (hc : checkPath (root ++ names) = .ok ()) : t.Leads (root ++ names) := by
  refine ⟨hc, Passable.append.2 ⟨(isDir_eq_true.1 h.isDir).1.2, passable_names (fun n hm => (hn n hm).goesDown)
    (fun n hm => (hn n hm).short) ?_⟩⟩
  intro hnone
  exact absurd (h.isFile.symm.trans hnone) (by simp)

/-- A file that a walk meets can be read unless its path is too long or no path. -/
theorem Walks.read_eq (h : f.Walks t root names c) (hn : ∀ n ∈ names, IsName n) :
    t.read (root ++ names) = (checkPath (root ++ names)).map fun _ => c := by
  cases hc : checkPath (root ++ names) with
  | error fault => exact read_of_checkPath_error hc
  | ok u =>
    have hset : settled (root ++ names) = root.settled ++ names :=
      settled_append_names (fun n hm => (hn n hm).goesDown) root
    exact read_eq_ok.2 ⟨h.leads hn hc, by rw [hset, h.isFile]⟩

theorem Walks.eq_of_read (h : f.Walks t root names c) (hn : ∀ n ∈ names, IsName n) {c' : ByteArray}
    (hread : t.read (root ++ names) = .ok c') : c = c' := by
  have heq := (h.read_eq hn).symm.trans hread
  cases hc : checkPath (root ++ names) with
  | error fault => simp [hc, Except.map] at heq
  | ok u => simpa [hc, Except.map] using heq

end SourceFilter

namespace Location

theorem IsCut.join {l : Location} (h : l.IsCut) (path : String) : (l.join path).IsCut := by
  unfold Location.join
  have hpath := isCut_splitString path
  split
  · rename_i heq
    rw [heq] at hpath
    exact fun p hp => hpath p (List.mem_cons_of_mem _ hp)
  · intro p hp
    rcases List.mem_append.1 hp with hp | hp
    · exact h p hp
    · exact hpath p hp

theorem IsCut.parent {l : Location} (h : l.IsCut) : l.parent.IsCut :=
  fun p hp => h p (List.mem_of_mem_filter ((List.dropLast_sublist _).subset hp))

theorem IsCut.append_name {l : Location} (h : l.IsCut) {n : String} (hn : '/' ∉ n.toList) : (l ++ [n]).IsCut := by
  intro p hp
  rcases List.mem_append.1 hp with hp | hp
  · exact h p hp
  · rwa [List.mem_singleton.1 hp]

end Location

/-- A manifest with one more copy. -/
def Snapshot.enter (checksum : HashFunction) (snapshot : Snapshot) (copy : String × ByteArray) : Snapshot :=
  { snapshot with
    files := snapshot.files ++ [copy.1]
    checksums := snapshot.checksums.put copy.1 (checksum copy.2)
    totalBytes := snapshot.totalBytes + copy.2.size }

namespace SnapshotStore

variable {s : SnapshotStore} {id : String} {t x y : Listing}

/-- The contents of those among some files that can be read, under their keys. -/
def contents (t : Listing) (fs : List TreeFile) : List (String × ByteArray) :=
  fs.filterMap fun f => (t.read f.location).toOption.map (f.key, ·)

theorem contents_cons_of_ok {f : TreeFile} {c : ByteArray} (h : t.read f.location = .ok c) (fs : List TreeFile) :
    contents t (f :: fs) = (f.key, c) :: contents t fs := by
  simp [contents, h, Except.toOption]

theorem contents_cons_of_error {f : TreeFile} {fault : FileFault} (h : t.read f.location = .error fault)
    (fs : List TreeFile) : contents t (f :: fs) = contents t fs := by
  simp [contents, h, Except.toOption]

/-- The place of the copies in the directory of a snapshot. -/
def copiesPlace (s : SnapshotStore) (id : String) : List String := s.directory.settled ++ [id, filesName]

/-- Files that a walk meets, with safe keys. -/
def Met (s : SnapshotStore) (t : Listing) (root : Location) (f : TreeFile) : Prop :=
  ∃ names c, s.filter.Walks t root names c ∧ isSafeRelative (Key.ofNames names) = true ∧
    f = ⟨root ++ names, Key.ofNames names, c.size⟩

theorem Met.safe {root : Location} {f : TreeFile} (h : s.Met t root f) : isSafeRelative f.key = true := by
  obtain ⟨names, c, -, hk, rfl⟩ := h
  exact hk

theorem goesDown_filesName : GoesDown filesName := ⟨by decide, by decide⟩

section Copy

variable {k : String} (hk : isSafeRelative k = true)

include hk

theorem settled_copyPlace (hid : GoesDown id) :
    settled ((s.directory ++ [id] ++ [filesName]).join k) = s.copiesPlace id ++ Key.steps k := by
  have hset : settled (s.directory ++ [id] ++ [filesName]) = s.copiesPlace id := by
    rw [List.append_assoc, settled_append_names, copiesPlace]
    · rfl
    · intro n hm
      rcases List.mem_cons.1 hm with rfl | hm
      · exact hid
      · rw [List.mem_singleton.1 hm]
        exact goesDown_filesName
  rw [Key.settled_join_of_safe hk, hset]

variable (hr : s.Room t id)

include hr

theorem above_copy {a : Location} (ha : a <+: parent ((s.directory ++ [id] ++ [filesName]).join k)) :
    t.shapeAt? a.settled = some .dir ∨
      ∃ ns, ns ≠ [] ∧ ns <+: id :: filesName :: (Key.steps k).dropLast ∧ a.settled = s.directory.settled ++ ns := by
  have hgo : ∀ n ∈ id :: filesName :: (Key.steps k).dropLast, GoesDown n := by
    intro n hm
    rcases List.mem_cons.1 hm with rfl | hm
    · exact hr.goesDown
    rcases List.mem_cons.1 hm with rfl | hm
    · exact goesDown_filesName
    · exact Key.goesDown_steps hk n ((List.dropLast_sublist _).subset hm)
  have hpar : parent ((s.directory ++ [id] ++ [filesName]).join k) =
      s.directory.components ++ id :: filesName :: (Key.steps k).dropLast := by
    have hfront : components [id, filesName] = [id, filesName] :=
      Key.components_of_goesDown fun n hm => hgo n (by simp at hm ⊢; tauto)
    rw [Key.parent_join hk, List.append_assoc, components, List.filter_append]
    change components s.directory ++ components [id, filesName] ++ _ = _
    rw [hfront]
    simp
  rw [hpar] at ha
  have hd : t.shapeAt? (settled s.directory.components) = some .dir := by rw [settled_components, hr.shapeAt?]
  have hprefix := settled_of_prefix hr.leads.2.components hd hgo ha
  rwa [settled_components] at hprefix

variable (hx : s.Grown id t x)

include hx

theorem Grown.createDirs_copy :
    s.Grown id t (x.createDirs (parent ((s.directory ++ [id] ++ [filesName]).join k))).2 := by
  refine hx.createDirs hr fun a ha => ?_
  rcases above_copy hk hr ha with h | ⟨ns, hnsne, hns, hset⟩
  · exact .inl h
  · refine .inr ?_
    rw [hset]
    obtain ⟨m, ms, rfl⟩ := List.exists_cons_of_ne_nil hnsne
    obtain ⟨rfl, -⟩ := List.cons_prefix_cons.1 hns
    exact ⟨ms, by simp⟩

theorem Grown.write_copy {c : ByteArray}
    (h : x.write ((s.directory ++ [id] ++ [filesName]).join k) c = .ok y) : s.Grown id t y :=
  hx.write hr h (q := filesName :: Key.steps k) (by rw [settled_copyPlace hk hr.goesDown]; simp [copiesPlace]) (by simp)

end Copy

/-! ## Copying -/

section CopyAll

variable (checksum : HashFunction) {root target : Location} (required : List String)

/-- What each directory and each copy that is made keeps, copying keeps, however it ends. -/
theorem copyAll_induct {P : Listing → Prop} {fs : List TreeFile}
    (hmake : ∀ x, P x → ∀ f ∈ fs, P (x.createDirs (parent (target.join f.key))).2)
    (hwrite : ∀ x y c, P x → ∀ f ∈ fs, x.write (target.join f.key) c = .ok y → P y) (snapshot : Snapshot)
    (hx : P x) : P (copyAll checksum target required fs snapshot x).2 := by
  induction fs generalizing snapshot x with
  | nil => exact hx
  | cons f rest ih =>
    have hrest : ∀ x snapshot, P x → P (copyAll checksum target required rest snapshot x).2 := fun x snapshot =>
      ih (fun x hx g hg => hmake x hx g (List.mem_cons_of_mem f hg))
        (fun x y c hx g hg => hwrite x y c hx g (List.mem_cons_of_mem f hg)) snapshot
    rw [copyAll]
    cases hread : x.read f.location with
    | error fault =>
      simp only
      split
      · exact hx
      · exact hrest x snapshot hx
    | ok c =>
      have hmade := hmake x hx f (List.mem_cons_self ..)
      simp only
      cases hcd : x.createDirs (parent (target.join f.key)) with
      | mk res made =>
        rw [hcd] at hmade
        cases res with
        | error fault => exact hmade
        | ok u =>
          simp only
          cases hwr : made.write (target.join f.key) c with
          | error fault => exact hmade
          | ok y => exact hrest y _ (hwrite made y c hmade f (List.mem_cons_self ..) hwr)

theorem copyAll_wellFormed (hcut : target.IsCut) (fs : List TreeFile) (snapshot : Snapshot) (hx : x.WellFormed) :
    (copyAll checksum target required fs snapshot x).2.WellFormed :=
  copyAll_induct checksum required (fun _ hx f _ => hx.createDirs (hcut.join f.key).parent)
    (fun _ _ _ hx f _ hw => hx.write (hcut.join f.key) hw) snapshot hx

theorem copyAll_grown (hr : s.Room t id) {fs : List TreeFile} (hf : ∀ f ∈ fs, isSafeRelative f.key = true)
    (snapshot : Snapshot) (hx : s.Grown id t x) :
    s.Grown id t (copyAll checksum (s.directory ++ [id] ++ [filesName]) required fs snapshot x).2 :=
  copyAll_induct checksum required (fun _ hx f hm => Grown.createDirs_copy (hf f hm) hr hx)
    (fun _ _ _ hx f hm hw => Grown.write_copy (hf f hm) hr hx hw) snapshot hx

/-- Files that are read the same in all trees of a kind, and a kind that copying them does not leave. -/
structure Steady (s : SnapshotStore) (id : String) (t : Listing) (fs : List TreeFile) (P : Listing → Prop) : Prop where
  safe : ∀ f ∈ fs, isSafeRelative f.key = true
  read : ∀ x, P x → ∀ f ∈ fs, x.read f.location = t.read f.location
  make : ∀ x, P x → ∀ f ∈ fs, P (x.createDirs (parent ((s.directory ++ [id] ++ [filesName]).join f.key))).2
  write : ∀ x y c, P x → ∀ f ∈ fs, x.write ((s.directory ++ [id] ++ [filesName]).join f.key) c = .ok y → P y

theorem Steady.tail {f : TreeFile} {fs : List TreeFile} {P : Listing → Prop} (h : s.Steady id t (f :: fs) P) :
    s.Steady id t fs P :=
  ⟨fun g hg => h.safe g (List.mem_cons_of_mem f hg), fun x hx g hg => h.read x hx g (List.mem_cons_of_mem f hg),
    fun x hx g hg => h.make x hx g (List.mem_cons_of_mem f hg),
    fun x y c hx g hg => h.write x y c hx g (List.mem_cons_of_mem f hg)⟩

theorem Grown.read_eq (hr : s.Room t id) (ht : t.WellFormed) (hx : s.Grown id t x) {f : TreeFile}
    (hf : s.Met t root f) : x.read f.location = t.read f.location := by
  obtain ⟨names, c, hw, -, rfl⟩ := hf
  have hn := hw.isName ht
  have hwx : s.filter.Walks x root names c :=
    hw.mono (hx.isDir hr hw.isDir) (by rw [hx.shapeAt?_of_ne_none hr (by simp [hw.isFile]), hw.isFile])
  rw [hwx.read_eq hn, hw.read_eq hn]

theorem Grown.steady (hr : s.Room t id) (ht : t.WellFormed) {fs : List TreeFile} (hf : ∀ f ∈ fs, s.Met t root f) :
    s.Steady id t fs (s.Grown id t) where
  safe f hm := (hf f hm).safe
  read _ hx f hm := hx.read_eq hr ht (hf f hm)
  make _ hx f hm := Grown.createDirs_copy (hf f hm).safe hr hx
  write _ _ _ hx f hm hw := Grown.write_copy (hf f hm).safe hr hx hw

/-- What copying leaves behind when it succeeds. -/
structure Copied (s : SnapshotStore) (id : String) (t : Listing) (required : List String) (fs : List TreeFile)
    (x y : Listing) : Prop where
  read : ∀ f ∈ fs, f.key ∈ required → ∃ c, t.read f.location = .ok c
  dirs : ∀ q, x.shapeAt? q = some .dir → y.shapeAt? q = some .dir
  others : ∀ q c, x.shapeAt? q = some (.file c) → (∀ f ∈ fs, q ≠ s.copiesPlace id ++ Key.steps f.key) →
    y.shapeAt? q = some (.file c)
  copies : fs.Pairwise (fun f g => Key.steps f.key ≠ Key.steps g.key) → ∀ p ∈ contents t fs,
    y.shapeAt? (s.copiesPlace id ++ Key.steps p.1) = some (.file p.2) ∧
      y.Leads ((s.directory ++ [id] ++ [filesName]).join p.1)

/-- A tree with one copy more. -/
structure CopiedOne (s : SnapshotStore) (id k : String) (c : ByteArray) (x z : Listing) : Prop where
  dirs : ∀ q, x.shapeAt? q = some .dir → z.shapeAt? q = some .dir
  others : ∀ q c', x.shapeAt? q = some (.file c') → q ≠ s.copiesPlace id ++ Key.steps k → z.shapeAt? q = some (.file c')
  copy : z.shapeAt? (s.copiesPlace id ++ Key.steps k) = some (.file c)
  leads : z.Leads ((s.directory ++ [id] ++ [filesName]).join k)

theorem copiedOne {k : String} {c : ByteArray} {made z : Listing} (hid : GoesDown id) (hk : isSafeRelative k = true)
    (hmade : made = (x.createDirs (parent ((s.directory ++ [id] ++ [filesName]).join k))).2)
    (hwr : made.write ((s.directory ++ [id] ++ [filesName]).join k) c = .ok z) : s.CopiedOne id k c x z := by
  have hshape := shapeAt?_write hwr
  obtain ⟨hlead, -, hnodir, -⟩ := write_eq_ok hwr
  rw [settled_copyPlace (s := s) hk hid] at hshape hnodir
  have hdirs : ∀ q, made.shapeAt? q = some .dir → z.shapeAt? q = some .dir := by
    intro q hq
    rw [hshape, if_neg (by rintro rfl; exact hnodir hq), hq]
  refine ⟨fun q hq => hdirs q ?_, fun q c' hq hne => ?_, by rw [hshape, if_pos rfl], hlead.mono hdirs⟩
  · rw [hmade]
    exact shapeAt?_createDirs_dir hq
  · rw [hshape, if_neg hne, hmade, shapeAt?_createDirs_file, hq]

section Copied

variable {required} {f : TreeFile} {rest : List TreeFile} {z : Listing}

/-- A file that cannot be read and is not required is passed over. -/
theorem Copied.skip (h : s.Copied id t required rest x y) {fault : FileFault} (hread : t.read f.location = .error fault)
    (hreq : f.key ∉ required) : s.Copied id t required (f :: rest) x y := by
  refine ⟨fun g hg hgreq => ?_, h.dirs, fun q c hq hne => h.others q c hq fun g hg => hne g (List.mem_cons_of_mem f hg),
    fun hpair => ?_⟩
  · rcases List.mem_cons.1 hg with rfl | hg
    · exact absurd hgreq hreq
    · exact h.read g hg hgreq
  · rw [contents_cons_of_error hread rest]
    exact h.copies (List.pairwise_cons.1 hpair).2

theorem Copied.cons (h : s.Copied id t required rest z y) {c : ByteArray} (hread : t.read f.location = .ok c)
    (hone : s.CopiedOne id f.key c x z) : s.Copied id t required (f :: rest) x y := by
  refine ⟨fun g hg hgreq => ?_, fun q hq => h.dirs q (hone.dirs q hq), fun q c' hq hne => ?_, fun hpair p hp => ?_⟩
  · rcases List.mem_cons.1 hg with rfl | hg
    · exact ⟨c, hread⟩
    · exact h.read g hg hgreq
  · exact h.others q c' (hone.others q c' hq (hne f (List.mem_cons_self ..))) fun g hg => hne g (List.mem_cons_of_mem f hg)
  · obtain ⟨hhead, htail⟩ := List.pairwise_cons.1 hpair
    rw [contents_cons_of_ok hread rest] at hp
    rcases List.mem_cons.1 hp with rfl | hp
    · refine ⟨h.others _ _ hone.copy fun g hg heq => ?_, hone.leads.mono h.dirs⟩
      exact hhead g hg (List.append_cancel_left heq)
    · exact h.copies htail p hp

end Copied

/-- Copying that succeeds enters the contents of the files that can be read, and copies them. -/
theorem copyAll_ok (hid : GoesDown id) {P : Listing → Prop} : ∀ (fs : List TreeFile) (snapshot : Snapshot) (x : Listing),
    s.Steady id t fs P → P x → ∀ (filled : Snapshot) (y : Listing),
    copyAll checksum (s.directory ++ [id] ++ [filesName]) required fs snapshot x = (.ok filled, y) →
    filled = (contents t fs).foldl (Snapshot.enter checksum) snapshot ∧ s.Copied id t required fs x y
  | [], snapshot, x, _, _, filled, y, h => by
    simp only [copyAll, Prod.mk.injEq, Except.ok.injEq] at h
    obtain ⟨rfl, rfl⟩ := h
    exact ⟨rfl, by simp, fun q hq => hq, fun q c hq _ => hq, by simp [contents]⟩
  | f :: rest, snapshot, x, hf, hx, filled, y, h => by
    have hsame := hf.read x hx f (List.mem_cons_self ..)
    rw [copyAll] at h
    cases hread : x.read f.location with
    | error fault =>
      rw [hsame] at hread
      simp only [hsame, hread] at h
      split at h
      · cases (Prod.mk.inj h).1
      · rename_i hreq
        obtain ⟨hfold, hcop⟩ := copyAll_ok hid rest snapshot x hf.tail hx _ _ h
        exact ⟨by rw [contents_cons_of_error hread rest, hfold], hcop.skip hread (by simpa using hreq)⟩
    | ok c =>
      have hmade := hf.make x hx f (List.mem_cons_self ..)
      rw [hsame] at hread
      simp only [hsame, hread] at h
      cases hcd : x.createDirs (parent ((s.directory ++ [id] ++ [filesName]).join f.key)) with
      | mk res made =>
        rw [hcd] at h hmade
        cases res with
        | error fault => cases (Prod.mk.inj h).1
        | ok u =>
          simp only at h
          cases hwr : made.write ((s.directory ++ [id] ++ [filesName]).join f.key) c with
          | error fault =>
            rw [hwr] at h
            cases (Prod.mk.inj h).1
          | ok z =>
            simp only [hwr] at h
            have hz := hf.write made z c hmade f (List.mem_cons_self ..) hwr
            obtain ⟨hfold, hcop⟩ := copyAll_ok hid rest _ z hf.tail hz _ _ h
            have hone := copiedOne hid (hf.safe f (List.mem_cons_self ..)) (by rw [hcd]) hwr
            exact ⟨by rw [contents_cons_of_ok hread rest, List.foldl_cons, hfold]; rfl, hcop.cons hread hone⟩

end CopyAll

end SnapshotStore

end TreeRepair
