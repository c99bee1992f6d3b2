import TreeRepair.Proofs.Parsing.Collisions

/-! Two tiers that are one map. A cache is given units under any keys, asked for keys, opened anew, and its archives come
to harm, in any order. Each answer is then a unit that was inserted under its key, the last one as long as the memory or
an unharmed archive has it, and the size of the cache counts the keys of what was inserted or found since it was opened.
Each tier has its invariant: memory holds what was inserted or found since, and archives hold units of the past only. -/

set_option autoImplicit false

namespace TreeRepair.ParseCache

open Location Listing

/-! ## What happens to a cache -/

/-- What may happen to a cache. -/
inductive Event
  | inserted (u : ParsedUnit)
  | found (key : String)
  | missed (key : String)
  | reopened
  | damaged
  deriving DecidableEq

/-- A cache and the files under it. -/
structure Tended where
  cache : ParseCache
  files : Listing

/-- The cache behind an insertion. -/
def Tended.inserting (t : Tended) (env : Surroundings) (u : ParsedUnit) : Tended :=
  ⟨(t.cache.insert env t.files u).1, (t.cache.insert env t.files u).2⟩

/-- How a cache begins: in memory only, or over a directory. -/
inductive Opens (files : Listing) : Option Location → Tended → Prop
  | memory : Opens files none ⟨.fresh none, files⟩
  | directory {d : Location} {c : ParseCache} {made : Listing} (h : openAt files d = .ok (c, made)) :
      Opens files (some d) ⟨c, made⟩

/-- What may befall the files under a cache. Each archive that is there afterwards cannot be read or has the content of
one from before, and directories stay as they are. -/
inductive Harmed (env : Surroundings) (files spoiled : Listing) : Option Location → Prop
  | memory : Harmed env files spoiled none
  | directory {d : Location} (h : Damaged env d files spoiled)
      (hdirs : ∀ q, spoiled.shapeAt? q = some .dir ↔ files.shapeAt? q = some .dir) : Harmed env files spoiled (some d)

inductive Step (env : Surroundings) (place : Option Location) : Event → Tended → Tended → Prop
  | insert (t : Tended) (u : ParsedUnit) : Step env place (.inserted u) t (t.inserting env u)
  | found {t : Tended} {key : String} {u : ParsedUnit} {c : ParseCache}
      (h : t.cache.get? env t.files key = some (u, c)) : Step env place (.found key) t ⟨c, t.files⟩
  | missed {t : Tended} {key : String} (h : t.cache.get? env t.files key = none) : Step env place (.missed key) t t
  | reopen {t t' : Tended} (h : Opens t.files place t') : Step env place .reopened t t'
  | damage {t : Tended} {spoiled : Listing} (h : Harmed env t.files spoiled place) :
      Step env place .damaged t ⟨t.cache, spoiled⟩

/-- Events in turn, the last one in front. -/
inductive Run (env : Surroundings) (place : Option Location) (s : Tended) : List Event → Tended → Prop
  | start : Run env place s [] s
  | step {past : List Event} {e : Event} {t t' : Tended} (hrun : Run env place s past t) (hstep : Step env place e t t') :
      Run env place s (e :: past) t'

/-- The keys that were inserted or found since the cache was opened. -/
def touched : List Event → List String
  | [] => []
  | .inserted u :: past => u.key :: touched past
  | .found key :: past => key :: touched past
  | .missed _ :: past => touched past
  | .reopened :: _ => []
  | .damaged :: past => touched past

/-- What holds of a cache behind a past. -/
structure Tiers (env : Surroundings) (place : Option Location) (past : List Event) (t : Tended) : Prop where
  earlier : ∀ key u c, t.cache.get? env t.files key = some (u, c) → u.key = key ∧ .inserted u ∈ past
  /-- The last unit of a key is found as long as the cache is not opened anew, and behind that as long as nothing is
  harmed, if its archive can be stored. -/
  last : ∀ u later before, past = later ++ .inserted u :: before → (∀ v, .inserted v ∈ later → v.key ≠ u.key) →
    (.reopened ∉ later ∨ .damaged ∉ later ∧ ∃ d, place = some d ∧ Storable env d t.files u.key) →
    ∃ c, t.cache.get? env t.files u.key = some (u, c)
  size : t.cache.size = (touched past).toFinset.card
  /-- Under a key that is no archive's nothing is stored, and what is found does not depend on files. -/
  plain : ∀ key, isArchiveKey key = false →
    (∀ u, u.key = key → (t.inserting env u).files = t.files) ∧
      ∀ files, t.cache.get? env files key = t.cache.get? env t.files key

/-! ## Kinds of harm -/

section

variable {env : Surroundings} {place : Option Location} {d : Location} {files spoiled : Listing}

/-- Junk in place of a file, nothing at all, or the content of an archive. -/
theorem Harmed.write {l : Location} {bytes : ByteArray} (hw : files.write l bytes = .ok spoiled)
    (hbytes : env.archives.decode bytes = none ∨ ∃ other, Holds d files other bytes) :
    Harmed env files spoiled (some d) := by
  refine .directory (fun key content hcontent => ?_) fun q => shapeAt?_write_dir hw
  obtain ⟨hkey, hshape⟩ := hcontent
  rw [shapeAt?_write hw] at hshape
  split at hshape
  · cases hshape
    exact hbytes
  · exact .inr ⟨key, hkey, hshape⟩

theorem Harmed.remove {l : Location} (hr : files.removeFile l = .ok spoiled) : Harmed env files spoiled (some d) := by
  refine .directory (fun key content hcontent => ?_) fun q => ?_
  · obtain ⟨hkey, hshape⟩ := hcontent
    rw [shapeAt?_removeFile hr] at hshape
    split at hshape
    · cases hshape
    · exact .inr ⟨key, hkey, hshape⟩
  · obtain ⟨-, ⟨content, hfile⟩, -⟩ := removeFile_eq_ok hr
    rw [shapeAt?_removeFile hr]
    split
    · rename_i hq
      simp [hq, hfile]
    · rfl

/-- Two archives with each other's contents. -/
theorem Harmed.swap {key other : String} {bytes content : ByteArray} {half : Listing} (hkey : Holds d files key bytes)
    (hother : Holds d files other content)
    (hw : files.write (d ++ [key ++ archiveEnding]) content = .ok half)
    (hw' : half.write (d ++ [other ++ archiveEnding]) bytes = .ok spoiled) : Harmed env files spoiled (some d) := by
  refine .directory (fun k found hfound => .inr ?_) fun q => (shapeAt?_write_dir hw').trans (shapeAt?_write_dir hw)
  obtain ⟨hk, hshape⟩ := hfound
  rw [shapeAt?_write hw', shapeAt?_write hw] at hshape
  split at hshape
  · cases hshape
    exact ⟨key, hkey⟩
  · split at hshape
    · cases hshape
      exact ⟨other, hother⟩
    · exact ⟨k, hk, hshape⟩

/-! ## The tiers -/

variable {past later before : List Event} {s t t' : Tended} {u : ParsedUnit} {c : ParseCache} {e : Event} {key : String}

/-- Memory: units that were inserted, one under each key that was inserted or found since the cache was opened. -/
structure MemoryTier (past : List Event) (c : ParseCache) : Prop where
  entries : ∀ e ∈ c.entries, e.2.key = e.1 ∧ .inserted e.2 ∈ past
  nodup : (c.entries.map (·.1)).Nodup
  keys : ∀ key, key ∈ c.entries.map (·.1) ↔ key ∈ touched past

theorem memoryTier_fresh (place : Option Location) (h : touched past = []) : MemoryTier past (.fresh place) :=
  ⟨by simp [fresh], by simp [fresh], by simp [fresh, h]⟩

theorem MemoryTier.cons (h : MemoryTier past c) (hkeys : touched (e :: past) = touched past) :
    MemoryTier (e :: past) c := by
  refine ⟨fun entry hentry => ?_, h.nodup, fun key => ?_⟩
  · obtain ⟨hkey, hpast⟩ := h.entries entry hentry
    exact ⟨hkey, List.mem_cons_of_mem e hpast⟩
  · rw [hkeys, h.keys]

theorem MemoryTier.remember (h : MemoryTier past c) (hu : u.key = key) (hpast : .inserted u ∈ e :: past)
    (hkeys : touched (e :: past) = key :: touched past) : MemoryTier (e :: past) (c.remember key u) := by
  refine ⟨forall_mem_remember (fun entry hentry => ?_) ⟨hu, hpast⟩, nodup_keys_remember h.nodup key u, fun k => ?_⟩
  · obtain ⟨hkey, hold⟩ := h.entries entry hentry
    exact ⟨hkey, List.mem_cons_of_mem e hold⟩
  · rw [mem_keys_remember, hkeys, List.mem_cons, h.keys]

theorem MemoryTier.size (h : MemoryTier past c) : c.size = (touched past).toFinset.card := by
  have hset : (c.entries.map (·.1)).toFinset = (touched past).toFinset := by
    ext key
    rw [List.mem_toFinset, List.mem_toFinset, h.keys]
  rw [ParseCache.size, ← List.length_map (f := (·.1)), ← List.toFinset_card_of_nodup h.nodup, hset]

/-- Archives: units that were inserted, in a directory that is there. -/
def DiskTier (env : Surroundings) (place : Option Location) (past : List Event) (files : Listing) : Prop :=
  ∀ d, place = some d → files.isDir d = true ∧ Archived env d files fun u => .inserted u ∈ past

theorem Archived.mono {kind kind' : ParsedUnit → Prop} (h : Archived env d files kind) (hsub : ∀ u, kind u → kind' u) :
    Archived env d files kind' := fun key bytes u hbytes hu => hsub u (h key bytes u hbytes hu)

theorem DiskTier.cons (h : DiskTier env place past files) (e : Event) : DiskTier env place (e :: past) files := by
  intro d hd
  obtain ⟨hopen, harchived⟩ := h d hd
  exact ⟨hopen, harchived.mono fun u hu => List.mem_cons_of_mem e hu⟩

theorem DiskTier.store (h : DiskTier env place past files) (hdir : c.directory = place)
    (hreads : env.archives.decode (env.archives.encode u) = some u) :
    DiskTier env place (.inserted u :: past) (c.store env files u) := by
  rintro d rfl
  obtain ⟨hopen, harchived⟩ := h.cons (.inserted u) d rfl
  exact ⟨isDir_of_dirs (fun q => shapeAt?_store_dir hdir) hopen,
    harchived.store hdir (List.mem_cons_self ..) hreads⟩

theorem DiskTier.harmed (h : DiskTier env place past files) (hd : Harmed env files spoiled place) :
    DiskTier env place past spoiled := by
  cases hd with
  | memory => simp [DiskTier]
  | @directory d hdamaged hdirs =>
    rintro _ ⟨⟩
    obtain ⟨hopen, harchived⟩ := h d rfl
    exact ⟨isDir_of_dirs hdirs hopen, harchived.damaged hdamaged⟩

theorem DiskTier.load? (h : DiskTier env place past files) (hdir : c.directory = place)
    (hload : c.load? env files key = some u) : .inserted u ∈ past ∧ u.key = key := by
  cases place with
  | none => simp [ParseCache.load?, archive?, hdir] at hload
  | some d => exact (h d rfl).2.load? hdir hload

theorem isDir_of_openAt {made : Listing} (h : openAt files d = .ok (c, made)) : made.isDir d = true := by
  unfold openAt at h
  split at h
  · cases h
  · rename_i made hmade
    obtain ⟨-, rfl⟩ := Prod.mk.inj (Except.ok.inj h)
    exact isDir_of_createDirs hmade

/-! ## What a step keeps -/

/-- Two tiers that hold units of the past. -/
structure Sound (env : Surroundings) (place : Option Location) (past : List Event) (t : Tended) : Prop where
  directory_eq : t.cache.directory = place
  memory : MemoryTier past t.cache
  disk : DiskTier env place past t.files

/-- A cache that is opened is empty, over a directory that is there, and archives are as they were. -/
theorem Opens.sound (h : Opens files place t)
    (harchives : ∀ d, place = some d → Archived env d files fun u => .inserted u ∈ past) (hpast : touched past = []) :
    Sound env place past t := by
  cases h with
  | memory => exact ⟨rfl, memoryTier_fresh none hpast, by simp [DiskTier]⟩
  | @directory d c made hopen =>
    obtain ⟨hmade, rfl⟩ := (harchives d rfl).openAt hopen
    refine ⟨rfl, memoryTier_fresh (some d) hpast, ?_⟩
    rintro _ ⟨⟩
    exact ⟨isDir_of_openAt hopen, hmade⟩

/-- What is found was inserted, and it is in memory from then on. -/
theorem Sound.get? (h : Sound env place past t) (hget : t.cache.get? env t.files key = some (u, c)) :
    (u.key = key ∧ .inserted u ∈ past) ∧ Sound env place (.found key :: past) ⟨c, t.files⟩ := by
  obtain ⟨hlook, rfl⟩ | ⟨-, hload, rfl⟩ := get?_cases hget
  · have hentry := mem_entries_of_lookup hlook
    have hkey : key ∈ touched past := (h.memory.keys key).1 (List.mem_map_of_mem hentry)
    refine ⟨h.memory.entries _ hentry, h.directory_eq, ⟨?_, h.memory.nodup, fun k => ?_⟩, h.disk.cons _⟩
    · intro entry hmem
      obtain ⟨hown, hold⟩ := h.memory.entries entry hmem
      exact ⟨hown, List.mem_cons_of_mem _ hold⟩
    · -- a key in memory is counted already
      rw [h.memory.keys, touched, List.mem_cons]
      exact (or_iff_right_of_imp fun heq => heq ▸ hkey).symm
  · obtain ⟨hpast, hkey⟩ := h.disk.load? h.directory_eq hload
    exact ⟨⟨hkey, hpast⟩, h.directory_eq, h.memory.remember hkey (List.mem_cons_of_mem _ hpast) rfl, h.disk.cons _⟩

theorem Step.sound (hs : Step env place e t t') (h : Sound env place past t)
    (hreads : ∀ u, e = .inserted u → env.archives.decode (env.archives.encode u) = some u) :
    Sound env place (e :: past) t' := by
  cases hs with
  | insert _ u =>
    exact ⟨h.directory_eq, h.memory.remember rfl (List.mem_cons_self ..) rfl, h.disk.store h.directory_eq (hreads u rfl)⟩
  | found hget => exact (h.get? hget).2
  | missed hget => exact ⟨h.directory_eq, h.memory.cons rfl, h.disk.cons _⟩
  | reopen hopen => exact hopen.sound (fun d hd => (h.disk.cons .reopened d hd).2) rfl
  | damage hd => exact ⟨h.directory_eq, h.memory.cons rfl, (h.disk.harmed hd).cons _⟩

/-- What the tiers hold of a unit after some events behind its insertion. It is in memory until the cache is opened anew;
its archive has it until something is harmed, if it could be stored, and then no other unit of its key is in memory. -/
structure Latest (env : Surroundings) (place : Option Location) (u : ParsedUnit) (later : List Event) (t : Tended) : Prop where
  memory : .reopened ∉ later → t.cache.entries.lookup u.key = some u
  disk : .damaged ∉ later → ∀ d, place = some d → Storable env d t.files u.key →
    t.cache.load? env t.files u.key = some u ∧ ∀ v, t.cache.entries.lookup u.key = some v → v = u

theorem Sound.latest (h : Sound env place past t) (hreads : env.archives.decode (env.archives.encode u) = some u) :
    Latest env place u [] (t.inserting env u) := by
  have hlook : (t.inserting env u).cache.entries.lookup u.key = some u :=
    (lookup_remember t.cache u.key u u.key).trans (if_pos rfl)
  refine ⟨fun _ => hlook, fun _ d hd hfits => ⟨?_, fun v hv => Option.some.inj (hv.symm.trans hlook)⟩⟩
  subst hd
  have hstorable : Storable env d t.files u.key := hfits.congr fun q => (shapeAt?_store_dir h.directory_eq).symm
  exact load?_store_self h.directory_eq h.directory_eq hstorable (h.disk d rfl).1 hreads

/-- What either tier holds of the last unit of a key is what is found. -/
theorem Latest.get? (h : Latest env place u later t)
    (hkept : .reopened ∉ later ∨ .damaged ∉ later ∧ ∃ d, place = some d ∧ Storable env d t.files u.key) :
    ∃ c, t.cache.get? env t.files u.key = some (u, c) := by
  rw [ParseCache.get?]
  obtain hopen | ⟨hwhole, d, hd, hfits⟩ := hkept
  · rw [h.memory hopen]
    exact ⟨t.cache, rfl⟩
  · obtain ⟨hload, hagree⟩ := h.disk hwhole d hd hfits
    cases hlook : t.cache.entries.lookup u.key with
    | none =>
      rw [hload]
      exact ⟨t.cache.remember u.key u, rfl⟩
    | some v =>
      rw [hagree v hlook]
      exact ⟨t.cache, rfl⟩

/-- A cache that is opened over a directory that is there is empty, and no file changes. -/
theorem Opens.again (h : Opens files (some d) t) (hdir : files.isDir d = true) : t = ⟨.fresh (some d), files⟩ := by
  cases h with
  | directory hopen =>
    rw [openAt, createDirs_of_isDir hdir] at hopen
    obtain ⟨rfl, rfl⟩ := Prod.mk.inj (Except.ok.inj hopen)
    rfl

theorem Step.latest (hs : Step env place e t t') (h : Sound env place past t) (hlatest : Latest env place u later t)
    (hother : ∀ v, e = .inserted v → v.key ≠ u.key) : Latest env place u (e :: later) t' := by
  have hbefore : ∀ {x : Event}, x ∉ e :: later → x ∉ later := List.not_mem_of_not_mem_cons
  cases hs with
  | insert _ v =>
    have hne : u.key ≠ v.key := (hother v rfl).symm
    have hlook : (t.inserting env v).cache.entries.lookup u.key = t.cache.entries.lookup u.key :=
      (lookup_remember t.cache v.key v u.key).trans (if_neg hne)
    refine ⟨fun hopen => hlook.trans (hlatest.memory (hbefore hopen)), fun hwhole d hd hfits => ?_⟩
    subst hd
    have hload : (t.inserting env v).cache.load? env (t.inserting env v).files u.key = t.cache.load? env t.files u.key :=
      (load?_store_of_ne h.directory_eq h.directory_eq hne).trans
        (load?_congr h.directory_eq h.directory_eq (fun _ => Iff.rfl) rfl)
    rw [hload, hlook]
    exact hlatest.disk (hbefore hwhole) d rfl (hfits.congr fun q => (shapeAt?_store_dir h.directory_eq).symm)
  | @found _ key v c hget =>
    have hlook := lookup_get? hget u.key
    have hsame : u.key = key → .reopened ∉ later ∨
        .damaged ∉ later ∧ (∃ d, place = some d ∧ Storable env d t.files u.key) → v = u := by
      rintro rfl hkept
      obtain ⟨c', hown⟩ := hlatest.get? hkept
      exact (Prod.mk.inj (Option.some.inj (hget.symm.trans hown))).1
    refine ⟨fun hopen => ?_, fun hwhole d hd hfits => ?_⟩
    · rw [hlook]
      split
      · rename_i hkey
        rw [hsame hkey (.inl (hbefore hopen))]
      · exact hlatest.memory (hbefore hopen)
    · obtain ⟨hload, hagree⟩ := hlatest.disk (hbefore hwhole) d hd hfits
      subst hd
      refine ⟨(load?_congr h.directory_eq (h.get? hget).2.directory_eq (fun _ => Iff.rfl) rfl).trans hload, fun w hw => ?_⟩
      rw [hlook] at hw
      split at hw
      · rename_i hkey
        obtain rfl := Option.some.inj hw
        exact hsame hkey (.inr ⟨hbefore hwhole, d, rfl, hfits⟩)
      · exact hagree w hw
  | missed hget => exact ⟨fun hopen => hlatest.memory (hbefore hopen), fun hwhole => hlatest.disk (hbefore hwhole)⟩
  | reopen hopen =>
    refine ⟨fun hkept => (hkept (List.mem_cons_self ..)).elim, fun hwhole d hd hfits => ?_⟩
    subst hd
    obtain rfl := hopen.again (h.disk d rfl).1
    obtain ⟨hload, -⟩ := hlatest.disk (hbefore hwhole) d rfl hfits
    exact ⟨(load?_congr h.directory_eq rfl (fun _ => Iff.rfl) rfl).trans hload, by simp [fresh]⟩
  | damage hd =>
    exact ⟨fun hopen => hlatest.memory (hbefore hopen), fun hwhole => (hwhole (List.mem_cons_self ..)).elim⟩

/-! ## Runs -/

theorem Run.sound (hrun : Run env place s past t) (hopens : Opens files place s)
    (hfirst : ∀ d, place = some d → Archived env d files fun _ => False)
    (hreads : ∀ u, .inserted u ∈ past → env.archives.decode (env.archives.encode u) = some u) :
    Sound env place past t := by
  induction hrun with
  | start => exact hopens.sound (fun d hd => (hfirst d hd).mono fun _ => False.elim) rfl
  | @step past e _ _ _ hstep ih =>
    refine hstep.sound (ih fun u hu => hreads u (List.mem_cons_of_mem e hu)) fun u hu => hreads u ?_
    exact hu ▸ List.mem_cons_self ..

theorem Run.latest (hopens : Opens files place s) (hfirst : ∀ d, place = some d → Archived env d files fun _ => False)
    (hrun : Run env place s (later ++ .inserted u :: before) t)
    (hreads : ∀ v, .inserted v ∈ later ++ .inserted u :: before → env.archives.decode (env.archives.encode v) = some v)
    (hlast : ∀ v, .inserted v ∈ later → v.key ≠ u.key) : Latest env place u later t := by
  -- the induction is on the events since the insertion, the latest of which is undone first
  induction later generalizing t with
  | nil =>
    cases hrun with
    | step hbefore hstep =>
      have hsound := hbefore.sound hopens hfirst fun v hv => hreads v (List.mem_cons_of_mem _ hv)
      cases hstep
      exact hsound.latest (hreads u (List.mem_cons_self ..))
  | cons e later ih =>
    cases hrun with
    | step hbefore hstep =>
      have hknown : ∀ v, .inserted v ∈ later ++ .inserted u :: before →
          env.archives.decode (env.archives.encode v) = some v := fun v hv => hreads v (List.mem_cons_of_mem e hv)
      have hlatest := ih hbefore hknown fun v hv => hlast v (List.mem_cons_of_mem e hv)
      refine hstep.latest (hbefore.sound hopens hfirst hknown) hlatest fun v hv => hlast v ?_
      exact hv ▸ List.mem_cons_self ..

theorem archive?_plain (c : ParseCache) (h : isArchiveKey key = false) : c.archive? key = none := by
  rw [archive?, if_neg (by simp [h])]

/-- Two tiers are one map. The cache of a run was opened over files without an archive that can be read, and the units
that are inserted read back. Behind each run all that is found was inserted under its key; the last unit of a key is found
if it was inserted since the cache was opened, or else if nothing was harmed since and the file system takes its archive;
the size counts the keys of what was inserted or found since the cache was opened; and keys that are no archive's have
nothing to do with files. -/
theorem tiers_of_run (hopens : Opens files place s) (hfirst : ∀ d, place = some d → Archived env d files fun _ => False)
    (hrun : Run env place s past t)
    (hreads : ∀ u, .inserted u ∈ past → env.archives.decode (env.archives.encode u) = some u) :
    Tiers env place past t := by
  have hsound := hrun.sound hopens hfirst hreads
  refine ⟨fun key u c hget => (hsound.get? hget).1, ?_, hsound.memory.size, fun key hkey => ⟨?_, fun files => ?_⟩⟩
  · rintro u later before rfl hlast hkept
    exact (Run.latest hopens hfirst hrun hreads hlast).get? hkept
  · rintro u rfl
    simp only [Tended.inserting, ParseCache.insert, store, archive?_plain _ hkey]
  · simp only [ParseCache.get?, ParseCache.load?, archive?_plain _ hkey]

end

/-! ## A run with every event -/

open ParserHost (spelling)

/-- The unit of an empty text. -/
def bare (file key : String) : ParsedUnit := ⟨file, key, none, "", #[], [], none⟩

theorem bare_reads (file key : String) :
    spelling.archives.decode (spelling.archives.encode (bare file key)) = some (bare file key) := by
  refine ArchiveFormat.json_decode_encode ?_
  simp [ArchiveFormat.unitJson, bare, Json.optional, Json.Exact, Json.ExactItems]

/-- A cache that is asked for a key. -/
def Tended.getting (t : Tended) (env : Surroundings) (key : String) : Tended :=
  ⟨((t.cache.get? env t.files key).map (·.2)).getD t.cache, t.files⟩

theorem Step.getting {env : Surroundings} {place : Option Location} {t : Tended} {key : String}
    (h : (t.cache.get? env t.files key).isSome = true) : Step env place (.found key) t (t.getting env key) := by
  obtain ⟨⟨u, c⟩, hget⟩ := Option.isSome_iff_exists.1 h
  rw [Tended.getting, hget]
  exact .found hget

/-- A cache that is opened anew over `cache`. -/
def Tended.reopening (t : Tended) : Tended := ⟨.fresh (some ["cache"]), t.files⟩

theorem Step.reopening {env : Surroundings} {t : Tended} (h : t.files.isDir ["cache"] = true) :
    Step env (some ["cache"]) .reopened t t.reopening := by
  refine .reopen (.directory ?_)
  rw [openAt, createDirs_of_isDir h]

/-- Files with another content in the archive of a key, as far as it can be written. -/
def overwritten (files : Listing) (key : String) (bytes : ByteArray) : Listing :=
  (files.write ["cache", key ++ archiveEnding] bytes).toOption.getD files

theorem eq_ok_getD {α ε : Type} {r : Except ε α} (h : r.toOption.isSome = true) (a : α) : r = .ok (r.toOption.getD a) := by
  cases r with
  | error fault => simp [Except.toOption] at h
  | ok value => rfl

theorem write_overwritten {files : Listing} {key : String} {bytes : ByteArray}
    (h : (files.write ["cache", key ++ archiveEnding] bytes).toOption.isSome = true) :
    files.write ["cache", key ++ archiveEnding] bytes = .ok (overwritten files key bytes) := eq_ok_getD h files

def opened : Tended := ⟨.fresh (some ["cache"]), (Listing.empty.createDirs ["cache"]).2⟩

/-- Three units, one of them under a key that is a path. -/
def stocked : Tended :=
  ((opened.inserting spelling (bare "a.js" "ab")).inserting spelling (bare "b.js" "cd")).inserting spelling
    (bare "c.js" "../x")

def halfway : Listing := overwritten stocked.files "ab" (spelling.archives.encode (bare "b.js" "cd"))

/-- One unit found again, and then both archives with each other's contents. -/
def exchanged : Tended :=
  ⟨(stocked.reopening.getting spelling "cd").cache, overwritten halfway "cd" (spelling.archives.encode (bare "a.js" "ab"))⟩

def emptied : Tended := ⟨exchanged.cache, overwritten exchanged.files "ab" .empty⟩

def removed : Tended :=
  ⟨emptied.cache, (emptied.files.removeFile ["cache", "cd" ++ archiveEnding]).toOption.getD emptied.files⟩

/-- Another unit for the first key, found again by a new cache. -/
def restocked : Tended := (removed.inserting spelling (bare "d.js" "ab")).reopening.getting spelling "ab"

def stockedPast : List Event :=
  [.inserted (bare "c.js" "../x"), .inserted (bare "b.js" "cd"), .inserted (bare "a.js" "ab")]

def restockedPast : List Event :=
  [.found "ab", .reopened, .inserted (bare "d.js" "ab"), .damaged, .damaged, .missed "ab", .damaged, .found "cd",
    .reopened] ++ stockedPast

theorem run_restocked : Run spelling (some ["cache"]) opened restockedPast restocked := by
  have hstocked : Run spelling (some ["cache"]) opened stockedPast stocked :=
    ((Run.start.step (.insert opened (bare "a.js" "ab"))).step (.insert _ (bare "b.js" "cd"))).step
      (.insert _ (bare "c.js" "../x"))
  have hfetched : Step spelling (some ["cache"]) (.found "cd") stocked.reopening
      (stocked.reopening.getting spelling "cd") := .getting (by decide +kernel)
  have hab : Holds ["cache"] stocked.files "ab" (spelling.archives.encode (bare "a.js" "ab")) :=
    holds_of_read (by decide) (by decide +kernel)
  have hcd : Holds ["cache"] stocked.files "cd" (spelling.archives.encode (bare "b.js" "cd")) :=
    holds_of_read (by decide) (by decide +kernel)
  have hhalfway : stocked.files.write ["cache", "ab" ++ archiveEnding] (spelling.archives.encode (bare "b.js" "cd")) =
      .ok halfway := write_overwritten (by decide +kernel)
  have hexchanged : Harmed spelling stocked.files exchanged.files (some ["cache"]) :=
    .swap hab hcd hhalfway (write_overwritten (by decide +kernel))
  have hmissed : Step spelling (some ["cache"]) (.missed "ab") exchanged exchanged := .missed (by decide +kernel)
  have hempty : exchanged.files.write ["cache", "ab" ++ archiveEnding] .empty = .ok emptied.files :=
    write_overwritten (by decide +kernel)
  have hemptied : Harmed spelling exchanged.files emptied.files (some ["cache"]) := .write hempty (.inl (by decide +kernel))
  have hgone : emptied.files.removeFile ["cache", "cd" ++ archiveEnding] = .ok removed.files :=
    eq_ok_getD (by decide +kernel) emptied.files
  have hremoved : Harmed spelling emptied.files removed.files (some ["cache"]) := .remove hgone
  have hharmed := (((hstocked.step (.reopening (by decide +kernel))).step hfetched).step (.damage hexchanged)).step hmissed
  have hrestocked := ((hharmed.step (.damage hemptied)).step (.damage hremoved)).step (.insert removed (bare "d.js" "ab"))
  exact (hrestocked.step (.reopening (by decide +kernel))).step (.getting (by decide +kernel))

theorem restocked_tiers :
    Opens .empty (some ["cache"]) opened ∧
      (∀ d, some ["cache"] = some d → Archived spelling d .empty fun _ => False) ∧
      Run spelling (some ["cache"]) opened restockedPast restocked ∧
      (∀ u, .inserted u ∈ restockedPast → spelling.archives.decode (spelling.archives.encode u) = some u) ∧
      restocked.cache.size = 1 ∧ (∃ c, restocked.cache.get? spelling restocked.files "ab" = some (bare "d.js" "ab", c)) ∧
      Tiers spelling (some ["cache"]) restockedPast restocked := by
  have hopens : Opens .empty (some ["cache"]) opened := .directory rfl
  have hfirst : ∀ d, some ["cache"] = some d → Archived spelling d .empty fun _ => False := fun _ _ => archived_empty
  have hreads : ∀ u, .inserted u ∈ restockedPast → spelling.archives.decode (spelling.archives.encode u) = some u := by
    intro u hu
    simp only [restockedPast, stockedPast, List.cons_append, List.nil_append, List.mem_cons, List.not_mem_nil, or_false,
      reduceCtorEq, false_or, Event.inserted.injEq] at hu
    rcases hu with rfl | rfl | rfl | rfl <;> exact bare_reads _ _
  have htiers := tiers_of_run hopens hfirst run_restocked hreads
  have hfile : Holds ["cache"] restocked.files "ab" (spelling.archives.encode (bare "d.js" "ab")) :=
    holds_of_read (by decide) (by decide +kernel)
  have hdraft : (restocked.files.shapeAt? (draftTrail ["cache"] spelling.process "ab")).isNone = true := by decide +kernel
  have hfits : Storable spelling ["cache"] restocked.files "ab" :=
    ⟨by decide, by decide, by decide, by simp [hfile.2], by simp [Option.isNone_iff_eq_none.1 hdraft]⟩
  refine ⟨hopens, hfirst, run_restocked, hreads, htiers.size.trans (by decide), ?_, htiers⟩
  exact htiers.last (bare "d.js" "ab") [.found "ab", .reopened] _ rfl (by simp) (.inr ⟨by decide, _, rfl, hfits⟩)

end TreeRepair.ParseCache
