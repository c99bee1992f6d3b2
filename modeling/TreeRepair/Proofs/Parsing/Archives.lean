import TreeRepair.Proofs.Json.RoundTrip
import TreeRepair.Proofs.Parsing.Host

/-! Archives of parsed units: JSON texts read back, and what the directory of archives holds when a unit is stored in
it, when a cache is opened over it, and when archives come to harm. -/

set_option autoImplicit false

namespace TreeRepair

open Location Listing

/-! ## Archives as JSON texts -/

namespace ArchiveFormat

theorem nullable?_optional {α : Type} {read : Json → Option α} {write : α → Json} (h : ∀ a, read (write a) = some a)
    (hnull : ∀ a, write a ≠ .null) (o : Option α) : nullable? read (Json.optional write o) = some o := by
  cases o with
  | none => rfl
  | some a =>
    rw [Json.optional]
    unfold nullable?
    split
    · rename_i heq
      exact absurd heq (hnull a)
    · rw [h, Option.map_some]

theorem items?_map {α : Type} {read : Json → Option α} {write : α → Json} (h : ∀ a, read (write a) = some a)
    (as : List α) : items? read (.array (as.map write)) = some as := by
  rw [items?]
  induction as with
  | nil => rfl
  | cons a as ih => simp [List.mapM_cons, h, ih]

theorem grammar?_text (g : Grammar) : grammar? (.text g.name) = some g := by
  cases g <;> decide

theorem node?_toJson (n : SyntaxNode) : node? n.toJson = some n := by
  have hfield := @nullable?_optional String Json.text? .text (fun _ => rfl) (by simp) n.field
  have hparent := @nullable?_optional Nat Json.nat? .nat (fun _ => rfl) (by simp) n.parent
  have hchildren := @items?_map Nat Json.nat? .nat (fun _ => rfl) n.children
  simp [node?, SyntaxNode.toJson, hfield, hparent, hchildren, Json.text?, Json.nat?, Json.bool?]

theorem issue?_issueJson (i : ParseIssue) : issue? (issueJson i) = some i := rfl

theorem recovery?_recoveryJson (r : Recovery) : recovery? (recoveryJson r) = some r := rfl

theorem unit?_unitJson (u : ParsedUnit) : unit? (unitJson u) = some u := by
  have hgrammar := nullable?_optional (α := Grammar) grammar?_text (by simp) u.grammar
  have hnodes := items?_map node?_toJson u.nodes.toList
  have herrors := items?_map issue?_issueJson u.errors
  have hrecovery := nullable?_optional recovery?_recoveryJson (by simp [recoveryJson]) u.recovery
  simp [unit?, unitJson, hgrammar, hnodes, herrors, hrecovery, Json.text?]

theorem json_decode {bytes : ByteArray} {text : String} (h : String.fromUTF8? bytes = some text) :
    json.decode bytes = (Json.parse text).bind unit? := by
  simp only [json, h]
  rfl

theorem json_decode_encode {u : ParsedUnit} (h : (unitJson u).Exact) : json.decode (json.encode u) = some u := by
  have hbytes : String.fromUTF8? (json.encode u) = some (unitJson u).compact := Text.fromUTF8?_toUTF8 _
  rw [json_decode hbytes, Json.parse_compact h, Option.bind_some, unit?_unitJson]

end ArchiveFormat

namespace ParseCache

variable {c : ParseCache} {env : Surroundings} {files stored : Listing} {directory : Location} {key : String}

/-! ## Archives in a directory -/

/-- The names on the way to a key's archive. -/
def archiveTrail (directory : Location) (key : String) : List String := directory.settled ++ [key ++ archiveEnding]

/-- The content of a key's archive. -/
def Holds (directory : Location) (files : Listing) (key : String) (bytes : ByteArray) : Prop :=
  isArchiveKey key = true ∧ files.shapeAt? (archiveTrail directory key) = some (.file bytes)

/-- Each archive that can be read holds a unit of a kind. -/
def Archived (env : Surroundings) (directory : Location) (files : Listing) (kind : ParsedUnit → Prop) : Prop :=
  ∀ key bytes u, Holds directory files key bytes → env.archives.decode bytes = some u → kind u

theorem archived_empty {kind : ParsedUnit → Prop} : Archived env directory .empty kind := by
  rintro key bytes u ⟨-, hshape⟩ -
  obtain ⟨name, rest, htrail⟩ := List.exists_cons_of_ne_nil (l := archiveTrail directory key) (by simp [archiveTrail])
  simp [htrail, shapeAt?_eq_file, find?, child?] at hshape

theorem settled_archive (h : isArchiveKey key = true) (ending : String) :
    settled (directory ++ [key ++ ending]) = directory.settled ++ [key ++ ending] :=
  settled_append_names (by simpa using goesDown_archiveName h ending) _

theorem holds_of_read {bytes : ByteArray} (hkey : isArchiveKey key = true)
    (h : files.read (directory ++ [key ++ archiveEnding]) = .ok bytes) : Holds directory files key bytes := by
  refine ⟨hkey, ?_⟩
  rw [archiveTrail, ← settled_archive hkey]
  exact (read_eq_ok.1 h).2

theorem draftName_ne (h : isArchiveKey key = true) {other : String} (ho : isArchiveKey other = true) (process : Nat) :
    other ++ archiveEnding ≠ key ++ archiveEnding ++ ".tmp-" ++ toString process := by
  have hdots : ∀ {k : String}, isArchiveKey k = true → k.toList.count '.' = 0 := by
    intro k hk
    obtain ⟨ch, rest, hlist, hall⟩ := isArchiveKey_head hk
    rw [hlist]
    exact List.count_eq_zero.2 fun hmem => (isHexDigit_ne (hall _ hmem)).2 rfl
  intro heq
  have hcount := congrArg (fun s : String => s.toList.count '.') heq
  have hone : archiveEnding.toList.count '.' = 1 := by decide
  have hmark : ".tmp-".toList.count '.' = 1 := by decide
  simp only [String.toList_append, List.count_append, hdots h, hdots ho, hone, hmark] at hcount
  omega

theorem holds_store (hdir : c.directory = some directory) {u : ParsedUnit} {bytes : ByteArray}
    (h : Holds directory (c.store env files u) key bytes) :
    Holds directory files key bytes ∨ bytes = env.archives.encode u := by
  obtain ⟨hkey, hshape⟩ := h
  unfold store at hshape
  split at hshape
  · rename_i place draft hplace hdraft
    simp only [archive?, draft?, hdir, Option.map_some] at hplace hdraft
    split at hplace
    · rename_i hown
      rw [if_pos hown, Option.some.injEq] at hdraft
      rw [Option.some.injEq] at hplace
      subst hplace hdraft
      have hother : archiveTrail directory key ≠
          settled (directory ++ [u.key ++ archiveEnding ++ ".tmp-" ++ toString env.process]) := by
        rw [String.append_assoc, String.append_assoc, settled_archive hown, ← String.append_assoc,
          ← String.append_assoc]
        intro heq
        exact draftName_ne hown hkey _ (List.singleton_inj.1 (List.append_cancel_left heq))
      cases hw : files.write (directory ++ [u.key ++ archiveEnding ++ ".tmp-" ++ toString env.process])
          (env.archives.encode u) with
      | error fault =>
        simp only [hw] at hshape
        exact .inl ⟨hkey, hshape⟩
      | ok written =>
        simp only [hw] at hshape
        have hwritten := shapeAt?_write hw
        split at hshape
        · rw [hwritten, if_neg hother] at hshape
          exact .inl ⟨hkey, hshape⟩
        · rename_i moved hmoved
          rw [shapeAt?_rename hmoved, if_neg hother] at hshape
          split at hshape
          · rw [hwritten, if_pos rfl, Option.some.injEq, Shape.file.injEq] at hshape
            exact .inr hshape.symm
          · rw [hwritten, if_neg hother] at hshape
            exact .inl ⟨hkey, hshape⟩
    · simp at hplace
  · exact .inl ⟨hkey, hshape⟩

theorem Archived.store {kind : ParsedUnit → Prop} (h : Archived env directory files kind)
    (hdir : c.directory = some directory) {u : ParsedUnit} (hu : kind u)
    (hreads : env.archives.decode (env.archives.encode u) = some u) :
    Archived env directory (c.store env files u) kind := by
  intro key bytes v hbytes hv
  rcases holds_store hdir hbytes with hold | rfl
  · exact h key bytes v hold hv
  · rwa [← Option.some.inj (hreads.symm.trans hv)]

theorem Archived.openAt {kind : ParsedUnit → Prop} (h : Archived env directory files kind)
    (hopen : ParseCache.openAt files directory = .ok (c, stored)) :
    Archived env directory stored kind ∧ c = fresh (some directory) := by
  unfold ParseCache.openAt at hopen
  split at hopen
  · simp at hopen
  · rename_i made hmade
    obtain ⟨rfl, rfl⟩ := Prod.mk.inj (Except.ok.inj hopen)
    have hstored : (files.createDirs directory).2 = made := by rw [hmade]
    refine ⟨fun key bytes u hbytes => h key bytes u ⟨hbytes.1, ?_⟩, rfl⟩
    rw [← shapeAt?_createDirs_file (l := directory), hstored]
    exact hbytes.2

/-- What may befall the archives of a directory. Each that is there afterwards cannot be read, or it has the content
that some archive had before. What else the tree holds may change in any way. -/
def Damaged (env : Surroundings) (directory : Location) (files spoiled : Listing) : Prop :=
  ∀ key bytes, Holds directory spoiled key bytes → env.archives.decode bytes = none ∨ ∃ other, Holds directory files other bytes

theorem Archived.damaged {kind : ParsedUnit → Prop} (h : Archived env directory files kind)
    (hd : Damaged env directory files stored) : Archived env directory stored kind := by
  intro key bytes u hbytes hu
  rcases hd key bytes hbytes with hnone | ⟨other, hold⟩
  · simp [hnone] at hu
  · exact h other bytes u hold hu

/-- A unit that is read from an archive is of the kind of the archived ones, and has the archive's key. -/
theorem Archived.load? {kind : ParsedUnit → Prop} (h : Archived env directory files kind)
    (hdir : c.directory = some directory) {u : ParsedUnit} (hu : c.load? env files key = some u) :
    kind u ∧ u.key = key := by
  refine ⟨?_, load?_key hu⟩
  unfold ParseCache.load? at hu
  split at hu
  · simp at hu
  · rename_i place hplace
    rw [archive?, hdir, Option.map_some] at hplace
    split at hplace
    · rename_i hkey
      obtain rfl := Option.some.inj hplace
      split at hu
      · simp at hu
      · rename_i bytes hread
        have hshape := (read_eq_ok.1 hread).2
        rw [settled_archive hkey] at hshape
        split at hu
        · simp at hu
        · rename_i v hv
          split at hu
          · obtain rfl := Option.some.inj hu
            exact h key bytes v ⟨hkey, hshape⟩ hv
          · simp at hu
    · simp at hplace

/-! ## Storing a unit -/

/-- The name under which a key's archive is written before it is moved. -/
def draftName (process : Nat) (key : String) : String := key ++ archiveEnding ++ ".tmp-" ++ toString process

/-- The names on the way to where a key's archive is written before it is moved. -/
def draftTrail (directory : Location) (process : Nat) (key : String) : List String :=
  directory.settled ++ [draftName process key]

theorem archive?_eq (hdir : c.directory = some directory) (hkey : isArchiveKey key = true) :
    c.archive? key = some (directory ++ [key ++ archiveEnding]) := by
  rw [archive?, if_pos hkey, hdir, Option.map_some]

theorem draft?_eq (hdir : c.directory = some directory) (hkey : isArchiveKey key = true) (process : Nat) :
    c.draft? process key = some (directory ++ [draftName process key]) := by
  rw [draft?, if_pos hkey, hdir, Option.map_some, draftName]

theorem draftName_eq (process : Nat) (key : String) :
    draftName process key = key ++ (archiveEnding ++ ".tmp-" ++ toString process) := by
  simp only [draftName, String.append_assoc]

theorem settled_draft (hkey : isArchiveKey key = true) (process : Nat) :
    settled (directory ++ [draftName process key]) = draftTrail directory process key := by
  rw [draftTrail, draftName_eq, settled_archive hkey]

theorem archiveTrail_ne_draftTrail (hkey : isArchiveKey key = true) {other : String} (ho : isArchiveKey other = true)
    (process : Nat) : archiveTrail directory other ≠ draftTrail directory process key := fun heq =>
  draftName_ne hkey ho process (List.singleton_inj.1 (List.append_cancel_left heq))

theorem store_eq (hdir : c.directory = some directory) (env : Surroundings) (files : Listing) {u : ParsedUnit}
    (hkey : isArchiveKey u.key = true) :
    c.store env files u =
      match files.write (directory ++ [draftName env.process u.key]) (env.archives.encode u) with
      | .error _ => files
      | .ok written =>
        match written.rename (directory ++ [draftName env.process u.key]) (directory ++ [u.key ++ archiveEnding]) with
        | .error _ => written
        | .ok moved => moved := by
  have hplace := archive?_eq hdir hkey
  have hdraft := draft?_eq hdir hkey env.process
  cases hwrite : files.write (directory ++ [draftName env.process u.key]) (env.archives.encode u) with
  | error fault => simp only [store, hplace, hdraft, hwrite]
  | ok written =>
    cases hmove : written.rename (directory ++ [draftName env.process u.key]) (directory ++ [u.key ++ archiveEnding]) with
    | error fault => simp only [store, hplace, hdraft, hwrite, hmove]
    | ok moved => simp only [store, hplace, hdraft, hwrite, hmove]

/-- What storing a unit does. It leaves the files as they are, or it writes a draft, and then it may move the draft. -/
theorem store_cases (hdir : c.directory = some directory) (env : Surroundings) (files : Listing) (u : ParsedUnit) :
    c.store env files u = files ∨ isArchiveKey u.key = true ∧
      ∃ written, files.write (directory ++ [draftName env.process u.key]) (env.archives.encode u) = .ok written ∧
        (c.store env files u = written ∨
          written.rename (directory ++ [draftName env.process u.key]) (directory ++ [u.key ++ archiveEnding]) =
            .ok (c.store env files u)) := by
  by_cases hkey : isArchiveKey u.key = true
  · have hstore := store_eq hdir env files hkey
    cases hwrite : files.write (directory ++ [draftName env.process u.key]) (env.archives.encode u) with
    | error fault =>
      simp only [hwrite] at hstore
      exact .inl hstore
    | ok written =>
      simp only [hwrite] at hstore
      refine .inr ⟨hkey, written, rfl, ?_⟩
      cases hmove : written.rename (directory ++ [draftName env.process u.key])
          (directory ++ [u.key ++ archiveEnding]) with
      | error fault =>
        simp only [hmove] at hstore
        exact .inl hstore
      | ok moved =>
        simp only [hmove] at hstore
        exact .inr (congrArg Except.ok hstore.symm)
  · left
    rw [store, archive?, if_neg hkey]

theorem shapeAt?_store (hdir : c.directory = some directory) {u : ParsedUnit} {q : List String}
    (hq : q ≠ archiveTrail directory u.key) (hdraft : q ≠ draftTrail directory env.process u.key) :
    (c.store env files u).shapeAt? q = files.shapeAt? q := by
  rcases store_cases hdir env files u with hsame | ⟨hkey, written, hwrite, hsame | hmove⟩
  · rw [hsame]
  · rw [hsame, shapeAt?_write hwrite, settled_draft hkey, if_neg hdraft]
  · rw [shapeAt?_rename hmove, settled_draft hkey, if_neg hdraft, settled_archive hkey, ← archiveTrail, if_neg hq,
      shapeAt?_write hwrite, settled_draft hkey, if_neg hdraft]

theorem shapeAt?_store_dir (hdir : c.directory = some directory) {u : ParsedUnit} {q : List String} :
    (c.store env files u).shapeAt? q = some .dir ↔ files.shapeAt? q = some .dir := by
  rcases store_cases hdir env files u with hsame | ⟨hkey, written, hwrite, hsame | hmove⟩
  · rw [hsame]
  · rw [hsame, shapeAt?_write_dir hwrite]
  · rw [shapeAt?_rename_dir hmove, shapeAt?_write_dir hwrite]

theorem leads_store (hdir : c.directory = some directory) {u : ParsedUnit} {l : Location} :
    (c.store env files u).Leads l ↔ files.Leads l :=
  ⟨fun h => h.mono fun _ => (shapeAt?_store_dir hdir).1, fun h => h.mono fun _ => (shapeAt?_store_dir hdir).2⟩

/-- Behind the move of a draft the archive has what was written. -/
theorem holds_of_rename {bytes : ByteArray} {written moved : Listing} (hkey : isArchiveKey key = true)
    (hwrite : files.write (directory ++ [draftName env.process key]) bytes = .ok written)
    (hmove : written.rename (directory ++ [draftName env.process key]) (directory ++ [key ++ archiveEnding]) = .ok moved) :
    Holds directory moved key bytes := by
  refine ⟨hkey, ?_⟩
  rw [shapeAt?_rename hmove, settled_draft hkey, settled_archive hkey, ← archiveTrail,
    if_neg (archiveTrail_ne_draftTrail hkey hkey _), if_pos rfl, shapeAt?_write hwrite, settled_draft hkey, if_pos rfl]

/-- What is read under a key: a unit with the key, from an archive that can be read. -/
theorem load?_eq_some (hdir : c.directory = some directory) {u : ParsedUnit} :
    c.load? env files key = some u ↔
      ∃ bytes, Holds directory files key bytes ∧ files.Leads (directory ++ [key ++ archiveEnding]) ∧
        env.archives.decode bytes = some u ∧ u.key = key := by
  by_cases hkey : isArchiveKey key = true
  · rw [load?, archive?_eq hdir hkey]
    simp only [Holds, hkey, true_and, archiveTrail, ← settled_archive hkey]
    cases hread : files.read (directory ++ [key ++ archiveEnding]) with
    | error fault =>
      have hnone : ∀ bytes, ¬ (files.shapeAt? (settled (directory ++ [key ++ archiveEnding])) = some (.file bytes) ∧
          files.Leads (directory ++ [key ++ archiveEnding])) := by
        rintro bytes ⟨hfile, hleads⟩
        simp [read_eq_ok.2 ⟨hleads, hfile⟩] at hread
      simp only [reduceCtorEq, false_iff, not_exists]
      exact fun bytes h => hnone bytes ⟨h.1, h.2.1⟩
    | ok bytes =>
      obtain ⟨hleads, hfile⟩ := read_eq_ok.1 hread
      simp only [hfile, hleads, true_and, Option.some.injEq, Shape.file.injEq, exists_eq_left']
      cases env.archives.decode bytes with
      | none => simp
      | some v =>
        simp only [Option.ite_none_right_eq_some, Option.some.injEq]
        exact ⟨fun ⟨hv, heq⟩ => ⟨heq, heq ▸ hv⟩, fun ⟨heq, hv⟩ => ⟨heq ▸ hv, heq⟩⟩
  · rw [load?, archive?, if_neg hkey]
    simp [Holds, hkey]

/-- What is read under a key depends on directories and on the key's own archive. -/
theorem load?_congr (hdir : c.directory = some directory) {c' : ParseCache} (hdir' : c'.directory = some directory)
    (hdirs : ∀ q, stored.shapeAt? q = some .dir ↔ files.shapeAt? q = some .dir)
    (hsame : stored.shapeAt? (archiveTrail directory key) = files.shapeAt? (archiveTrail directory key)) :
    c'.load? env stored key = c.load? env files key := by
  have hleads : ∀ l, stored.Leads l ↔ files.Leads l := fun l =>
    ⟨fun h => h.mono fun q => (hdirs q).1, fun h => h.mono fun q => (hdirs q).2⟩
  refine Option.ext fun u => ?_
  rw [load?_eq_some hdir, load?_eq_some hdir']
  simp only [Holds, hleads, hsame]

theorem load?_store_of_ne (hdir : c.directory = some directory) {c' : ParseCache} (hdir' : c'.directory = some directory)
    {u : ParsedUnit} (hne : key ≠ u.key) : c'.load? env (c.store env files u) key = c'.load? env files key := by
  rcases store_cases hdir env files u with hsame | ⟨hkey, -⟩
  · rw [hsame]
  by_cases harchive : isArchiveKey key = true
  · refine load?_congr hdir' hdir' (fun q => shapeAt?_store_dir hdir) (shapeAt?_store hdir ?_ ?_)
    · intro heq
      have hname := List.singleton_inj.1 (List.append_cancel_left heq)
      exact hne (by simpa using hname)
    · intro heq
      exact draftName_ne hkey harchive env.process (List.singleton_inj.1 (List.append_cancel_left heq))
  · rw [load?, load?, archive?, if_neg harchive]

/-- Under the key of a stored unit what is read is the same as before, or the unit. -/
theorem load?_store (hdir : c.directory = some directory) {c' : ParseCache} (hdir' : c'.directory = some directory)
    {u : ParsedUnit} (hreads : env.archives.decode (env.archives.encode u) = some u) :
    c'.load? env (c.store env files u) u.key = c'.load? env files u.key ∨
      c'.load? env (c.store env files u) u.key = some u := by
  rcases store_cases hdir env files u with hsame | ⟨hkey, written, hwrite, hsame | hmove⟩
  · rw [hsame]
    exact .inl rfl
  · refine .inl (load?_congr hdir' hdir' (fun q => shapeAt?_store_dir hdir) ?_)
    rw [hsame, shapeAt?_write hwrite, settled_draft hkey, if_neg (archiveTrail_ne_draftTrail hkey hkey _)]
  · have hholds := holds_of_rename hkey hwrite hmove
    by_cases hleads : files.Leads (directory ++ [u.key ++ archiveEnding])
    · exact .inr ((load?_eq_some hdir').2 ⟨_, hholds, (leads_store hdir).2 hleads, hreads, rfl⟩)
    · refine .inl (Option.ext fun v => ?_)
      rw [load?_eq_some hdir', load?_eq_some hdir', leads_store hdir]
      simp [hleads]

/-- Whether the file system takes a key's archive and its draft: the draft, which has the longer name, is a path with a
name of allowed length, and neither of them is a directory. -/
structure Storable (env : Surroundings) (directory : Location) (files : Listing) (key : String) : Prop where
  hex : isArchiveKey key = true
  path : checkPath (directory ++ [draftName env.process key]) = .ok ()
  name : (draftName env.process key).utf8ByteSize ≤ nameLimit
  archive : files.shapeAt? (archiveTrail directory key) ≠ some .dir
  draft : files.shapeAt? (draftTrail directory env.process key) ≠ some .dir

theorem Storable.congr (h : Storable env directory files key)
    (hdirs : ∀ q, stored.shapeAt? q = some .dir ↔ files.shapeAt? q = some .dir) : Storable env directory stored key :=
  ⟨h.hex, h.path, h.name, fun hd => h.archive ((hdirs _).1 hd), fun hd => h.draft ((hdirs _).1 hd)⟩

/-- The way to a draft is open, and so is the way to its archive, which has a shorter name. -/
theorem Storable.leads (h : Storable env directory files key) (hopen : files.isDir directory = true) :
    files.Leads (directory ++ [draftName env.process key]) ∧ files.Leads (directory ++ [key ++ archiveEnding]) := by
  obtain ⟨⟨-, hpass⟩, hdir⟩ := isDir_eq_true.1 hopen
  have hlead : ∀ ending, checkPath (directory ++ [key ++ ending]) = .ok () →
      (key ++ ending).utf8ByteSize ≤ nameLimit → files.Leads (directory ++ [key ++ ending]) := by
    intro ending hpath hname
    obtain ⟨hvoid, hup⟩ := goesDown_archiveName h.hex ending
    refine ⟨hpath, Passable.append.2 ⟨hpass, hdir, ?_⟩⟩
    simpa [hvoid, hup, Passable] using hname
  have hsplit : draftName env.process key = key ++ archiveEnding ++ (".tmp-" ++ toString env.process) := by
    simp only [draftName, String.append_assoc]
  have hsize : (key ++ archiveEnding).utf8ByteSize ≤ (draftName env.process key).utf8ByteSize := by
    rw [hsplit]
    exact (Nat.le_add_right _ _).trans String.utf8ByteSize_append.ge
  refine ⟨?_, hlead _ ?_ (hsize.trans h.name)⟩
  · rw [draftName_eq]
    exact hlead _ (draftName_eq _ _ ▸ h.path) (draftName_eq _ _ ▸ h.name)
  · obtain ⟨hnul, hlen⟩ := checkPath_eq_ok.1 h.path
    refine checkPath_eq_ok.2 ⟨?_, ?_⟩
    · rw [hsplit] at hnul
      simp only [hasNul, List.any_append, List.any_cons, List.any_nil, String.toList_append, Bool.or_false,
        Bool.or_eq_false_iff] at hnul ⊢
      exact ⟨hnul.1, hnul.2.1⟩
    · rw [byteSize_append] at hlen ⊢
      simp only [byteSize, List.foldl_cons, List.foldl_nil] at hlen ⊢
      omega

/-- Under a key that the file system takes, a stored unit is read again. -/
theorem load?_store_self (hdir : c.directory = some directory) {c' : ParseCache} (hdir' : c'.directory = some directory)
    {u : ParsedUnit} (h : Storable env directory files u.key) (hopen : files.isDir directory = true)
    (hreads : env.archives.decode (env.archives.encode u) = some u) :
    c'.load? env (c.store env files u) u.key = some u := by
  obtain ⟨hdraft, harchive⟩ := h.leads hopen
  have hlast : ∀ name : String, name.utf8ByteSize ≠ 0 → (directory ++ [name]).getLast? ≠ some "" := by
    intro name hname heq
    rw [List.getLast?_concat, Option.some.injEq] at heq
    exact hname (by simp [heq])
  have hsize : archiveEnding.utf8ByteSize = 5 := by decide
  obtain ⟨written, hwrite⟩ : ∃ written,
      files.write (directory ++ [draftName env.process u.key]) (env.archives.encode u) = .ok written :=
    ⟨_, write_of_leads hdraft (hlast _ (by simp [draftName, hsize])) (settled_draft h.hex _ ▸ h.draft) _⟩
  have hwritten : written.shapeAt? (draftTrail directory env.process u.key) = some (.file (env.archives.encode u)) := by
    rw [shapeAt?_write hwrite, settled_draft h.hex, if_pos rfl]
  have hopened : ∀ {l : Location}, files.Leads l → written.Leads l := fun hl =>
    hl.mono fun _ => (shapeAt?_write_dir hwrite).2
  obtain ⟨moved, hmove⟩ := rename_of_leads (hopened hdraft) (settled_draft h.hex env.process ▸ hwritten)
    (hopened harchive) (hlast _ (by simp [hsize]))
    (by rw [Ne, shapeAt?_write_dir hwrite, settled_archive h.hex]; exact h.archive)
    (by rw [settled_draft h.hex, settled_archive h.hex]; exact (archiveTrail_ne_draftTrail h.hex h.hex _).symm)
  have hstore : c.store env files u = moved := by
    rw [store_eq hdir env files h.hex, hwrite]
    simp only [hmove]
  have hholds := holds_of_rename h.hex hwrite hmove
  exact (load?_eq_some hdir').2 ⟨_, hstore ▸ hholds, (leads_store hdir).2 harchive, hreads, rfl⟩

end ParseCache

end TreeRepair
