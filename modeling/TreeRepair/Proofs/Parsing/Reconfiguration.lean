import TreeRepair.Proofs.Parsing.Collisions

/-! A cache and the limit for refused texts. What a unit of a refused text keeps depends on the limit of the host that
parsed it, and its key does not: a host with another limit is served the unit from the archives. So a second host answers
with what is archived, and else with its own unit; the two are the same exactly for a text that a grammar accepts, or of
which both limits keep the same. What carries this is the invariant of one host: in its memory are its answers, and for
what it was not asked for the archives are as it found them. -/

set_option autoImplicit false

namespace TreeRepair.ParserHost

open Listing ParseCache

/-! ## Hosts one behind another -/

/-- What a host answers to requests in turn, and the files behind them. -/
def attend (env : Surroundings) : ParserHost → Listing → List Request → List ParsedUnit × Listing
  | _, files, [] => ([], files)
  | h, files, r :: rs =>
    let p := h.parse env files r.file r.text
    let rest := attend env p.host p.files rs
    (p.unit :: rest.1, rest.2)

/-- What a new host over a directory answers to requests, and the files behind them. -/
def session (env : Surroundings) (directory : Location) (limit : Nat) (files : Listing) (rs : List Request) :
    Except FileFault (List ParsedUnit × Listing) :=
  (ParseCache.openAt files directory).map fun (cache, made) => attend env (.fresh cache limit) made rs

/-- The unit that is archived for a request. -/
def archived? (env : Surroundings) (directory : Location) (files : Listing) (r : Request) : Option ParsedUnit :=
  (ParseCache.fresh (some directory)).load? env files (r.key env)

/-- The unit that is archived for a request, or else the one that parsing gives. -/
def served (env : Surroundings) (directory : Location) (files : Listing) (limit : Nat) (r : Request) : ParsedUnit :=
  (archived? env directory files r).getD (r.plainUnit env limit)

/-- Whether two limits keep the same of a text. -/
def SameStart (text : String) (p q : Nat) : Prop := Text.takeBytes text.toList p = Text.takeBytes text.toList q

instance (text : String) (p q : Nat) : Decidable (SameStart text p q) :=
  inferInstanceAs (Decidable (Text.takeBytes text.toList p = Text.takeBytes text.toList q))

section

variable {env : Surroundings} {directory : Location} {limit p q : Nat} {files first made left : Listing}
  {known : Set Request} {asked rs ss : List Request} {us : List ParsedUnit} {h : ParserHost} {r : Request}

theorem unit_parse_empty (limit : Nat) (files : Listing) (r : Request) :
    ((fresh (.fresh none) limit).parse env files r.file r.text).unit = r.plainUnit env limit := by
  have hget : (ParseCache.fresh none).get? env files (contentKey env.contentHash r.text.toUTF8 r.file) = none := by
    simp [ParseCache.get?, ParseCache.fresh, ParseCache.load?, ParseCache.archive?]
  simp only [parse, fresh, hget]
  rfl

theorem plainUnit_eq_iff : r.plainUnit env p = r.plainUnit env q ↔
    (env.grammars.accepting? r.text).isSome ∨ SameStart r.text p q := by
  unfold Request.plainUnit parseText
  cases env.grammars.accepting? r.text with
  | some found => simp
  | none =>
    simp only [Option.isSome_none, Bool.false_eq_true, false_or, SameStart]
    constructor
    · intro heq
      exact String.ofList_injective (congrArg ParsedUnit.source heq)
    · intro hsame
      rw [recoveryUnit, recoveryUnit, hsame]

/-! ## What one host does -/

/-- What the archives hold for a request, in terms of what they held first. It is the same, or the host was asked for
what was not archived and has stored its answer; and what the file system takes it has stored. -/
structure Filed (env : Surroundings) (directory : Location) (limit : Nat) (first : Listing) (asked : List Request)
    (files : Listing) (r : Request) : Prop where
  same_or : archived? env directory files r = archived? env directory first r ∨
    r ∈ asked ∧ archived? env directory first r = none ∧ archived? env directory files r = some (r.plainUnit env limit)
  stored : r ∈ asked → archived? env directory first r = none → Storable env directory first (r.key env) →
    archived? env directory files r = some (r.plainUnit env limit)

/-- A host that was asked for some requests since it found the first files. -/
structure Serves (env : Surroundings) (directory : Location) (limit : Nat) (first : Listing) (known : Set Request)
    (asked : List Request) (h : ParserHost) (files : Listing) : Prop where
  limit_eq : h.recoveryLimit = limit
  directory_eq : h.cache.directory = some directory
  dirs : ∀ place, files.shapeAt? place = some .dir ↔ first.shapeAt? place = some .dir
  memory : ∀ r ∈ known, h.cache.entries.lookup (r.key env) =
    if r ∈ asked then some (served env directory first limit r) else none
  filed : ∀ r ∈ known, Filed env directory limit first asked files r

theorem Filed.of_notMem (hr : r ∉ asked) (h : archived? env directory files r = archived? env directory first r) :
    Filed env directory limit first asked files r :=
  ⟨.inl h, fun hmem => absurd hmem hr⟩

theorem serves_fresh : Serves env directory limit first known [] (.fresh (.fresh (some directory)) limit) first :=
  ⟨rfl, rfl, fun _ => Iff.rfl, by simp [fresh, ParseCache.fresh], fun _ _ => .of_notMem (by simp) rfl⟩

theorem load?_eq_archived? (hdir : h.cache.directory = some directory) (files : Listing) (r : Request) :
    h.cache.load? env files (r.key env) = archived? env directory files r :=
  load?_congr rfl hdir (fun _ => Iff.rfl) rfl

/-- Behind storing the unit of a request the archive of it is what it was, or that unit. -/
theorem archived?_store (hdir : h.cache.directory = some directory)
    (hreads : env.archives.decode (env.archives.encode (r.plainUnit env limit)) = some (r.plainUnit env limit)) :
    archived? env directory (h.cache.store env files (r.plainUnit env limit)) r = archived? env directory files r ∨
      archived? env directory (h.cache.store env files (r.plainUnit env limit)) r = some (r.plainUnit env limit) := by
  have hkey : (r.plainUnit env limit).key = r.key env := r.key_plainUnit
  rw [archived?, archived?, ← hkey]
  exact load?_store hdir rfl hreads

theorem archived?_store_self (hdir : h.cache.directory = some directory) (hfits : Storable env directory files (r.key env))
    (hopen : files.isDir directory = true)
    (hreads : env.archives.decode (env.archives.encode (r.plainUnit env limit)) = some (r.plainUnit env limit)) :
    archived? env directory (h.cache.store env files (r.plainUnit env limit)) r = some (r.plainUnit env limit) := by
  have hkey : (r.plainUnit env limit).key = r.key env := r.key_plainUnit
  rw [← hkey] at hfits
  rw [archived?, ← hkey]
  exact load?_store_self hdir rfl hfits hopen hreads

/-- A host that is asked for a request once more. -/
theorem Serves.again (hs : Serves env directory limit first known asked h files) (hr : r ∈ asked) {host : ParserHost}
    (hlimit : host.recoveryLimit = limit) (hcache : host.cache = h.cache) :
    Serves env directory limit first known (asked ++ [r]) host files := by
  have hmem : ∀ s, s ∈ asked ++ [r] ↔ s ∈ asked := by
    intro s
    simp only [List.mem_append, List.mem_singleton, or_iff_left_iff_imp]
    rintro rfl
    exact hr
  refine ⟨hlimit, by rw [hcache, hs.directory_eq], hs.dirs, fun s hknown => ?_, fun s hknown => ?_⟩
  · simp only [hcache, hs.memory s hknown, hmem]
  · obtain ⟨hsame, hstored⟩ := hs.filed s hknown
    exact ⟨by rwa [hmem], by rwa [hmem]⟩

/-- A host that is asked for something new remembers the answer, and the archives change for that alone. -/
theorem Serves.remember (hs : Serves env directory limit first known asked h files)
    (hkeys : Set.InjOn (Request.key env) known) (hr : r ∈ known) {host : ParserHost}
    (hlimit : host.recoveryLimit = limit)
    (hcache : host.cache = h.cache.remember (r.key env) (served env directory first limit r))
    (hdirs : ∀ place, left.shapeAt? place = some .dir ↔ files.shapeAt? place = some .dir)
    (hself : Filed env directory limit first (asked ++ [r]) left r)
    (hother : ∀ s ∈ known, s ≠ r → archived? env directory left s = archived? env directory files s) :
    Serves env directory limit first known (asked ++ [r]) host left := by
  have hmem : ∀ s, s ≠ r → (s ∈ asked ++ [r] ↔ s ∈ asked) := by
    intro s hne
    simp [hne]
  refine ⟨hlimit, by rw [hcache]; exact hs.directory_eq, fun place => (hdirs place).trans (hs.dirs place),
    fun s hknown => ?_, fun s hknown => ?_⟩
  · rw [hcache, lookup_remember]
    by_cases hsr : s = r
    · rw [hsr, if_pos rfl, if_pos (List.mem_append_right _ (List.mem_singleton_self _))]
    · rw [if_neg fun hkey => hsr (hkeys hknown hr hkey), hs.memory s hknown]
      simp only [hmem s hsr]
  · by_cases hsr : s = r
    · exact hsr ▸ hself
    · obtain ⟨hsame, hstored⟩ := hs.filed s hknown
      exact ⟨by rwa [hother s hknown hsr, hmem s hsr], by rwa [hother s hknown hsr, hmem s hsr]⟩

/-- What the cache of a host has for a request. -/
theorem Serves.get?_eq (hs : Serves env directory limit first known asked h files) (hr : r ∈ known) :
    h.cache.get? env files (r.key env) =
      if r ∈ asked then some (served env directory first limit r, h.cache)
      else (archived? env directory first r).map fun u => (u, h.cache.remember (r.key env) u) := by
  have hmemory := hs.memory r hr
  split
  · rename_i hasked
    rw [if_pos hasked] at hmemory
    rw [ParseCache.get?, hmemory]
  · rename_i hasked
    have hfirst := (hs.filed r hr).same_or.resolve_right fun h => hasked h.1
    rw [if_neg hasked] at hmemory
    rw [ParseCache.get?, hmemory, load?_eq_archived? hs.directory_eq, hfirst]

/-- What a host answers is what was archived first, or else its own unit. -/
theorem Serves.parse (hs : Serves env directory limit first known asked h files)
    (hkeys : Set.InjOn (Request.key env) known) (hopen : first.isDir directory = true) (hr : r ∈ known)
    (hreads : env.archives.decode (env.archives.encode (r.plainUnit env limit)) = some (r.plainUnit env limit)) :
    (h.parse env files r.file r.text).unit = served env directory first limit r ∧
      Serves env directory limit first known (asked ++ [r]) (h.parse env files r.file r.text).host
        (h.parse env files r.file r.text).files := by
  have hget : h.cache.get? env files (contentKey env.contentHash r.text.toUTF8 r.file) = _ := hs.get?_eq hr
  by_cases hasked : r ∈ asked
  · rw [if_pos hasked] at hget
    simp only [ParserHost.parse, hget]
    exact ⟨trivial, hs.again hasked hs.limit_eq rfl⟩
  · rw [if_neg hasked] at hget
    have hfirst := (hs.filed r hr).same_or.resolve_right fun h => hasked h.1
    cases harchived : archived? env directory first r with
    | some u =>
      have hserved : served env directory first limit r = u := by rw [served, harchived, Option.getD_some]
      rw [harchived, Option.map_some] at hget
      simp only [ParserHost.parse, hget]
      refine ⟨hserved.symm, hs.remember hkeys hr hs.limit_eq (by rw [hserved]; rfl) (fun _ => Iff.rfl) ?_
        fun _ _ _ => rfl⟩
      exact ⟨.inl hfirst, fun _ hnone => by simp [harchived] at hnone⟩
    | none =>
      have hserved : served env directory first limit r = r.plainUnit env limit := by
        rw [served, harchived, Option.getD_none]
      have hkey : (r.plainUnit env limit).key = r.key env := r.key_plainUnit
      rw [harchived, Option.map_none] at hget
      simp only [ParserHost.parse, hget, hs.limit_eq]
      refine ⟨hserved.symm, hs.remember hkeys hr hs.limit_eq ?_ (fun _ => shapeAt?_store_dir hs.directory_eq) ?_
        fun s hknown hne => ?_⟩
      · rw [hserved, ← hkey]
        rfl
      · refine ⟨?_, fun _ _ hfits => ?_⟩
        · exact (archived?_store hs.directory_eq hreads).imp (fun hsame => hsame.trans hfirst) fun hnew =>
            ⟨List.mem_append_right _ (List.mem_singleton_self _), harchived, hnew⟩
        · exact archived?_store_self hs.directory_eq (hfits.congr hs.dirs) (isDir_of_dirs hs.dirs hopen) hreads
      · exact load?_store_of_ne hs.directory_eq rfl fun heq => hne (hkeys hknown hr (heq.trans hkey))

/-- What a host answers to requests in turn is what was archived first, or else its own units. -/
theorem Serves.attend (hs : Serves env directory limit first known asked h files)
    (hkeys : Set.InjOn (Request.key env) known) (hopen : first.isDir directory = true) (hknown : ∀ r ∈ rs, r ∈ known)
    (hreads : ∀ r ∈ rs,
      env.archives.decode (env.archives.encode (r.plainUnit env limit)) = some (r.plainUnit env limit)) :
    (attend env h files rs).1 = rs.map (served env directory first limit) ∧
      ∃ h', Serves env directory limit first known (asked ++ rs) h' (attend env h files rs).2 := by
  induction rs generalizing h files asked with
  | nil => exact ⟨rfl, h, by rwa [List.append_nil]⟩
  | cons r rs ih =>
    obtain ⟨hr, hrest⟩ := List.forall_mem_cons.1 hknown
    obtain ⟨hread, hreads'⟩ := List.forall_mem_cons.1 hreads
    obtain ⟨hunit, hserves⟩ := hs.parse hkeys hopen hr hread
    obtain ⟨hunits, h', hserves'⟩ := ih hserves hrest hreads'
    rw [List.append_assoc, List.singleton_append] at hserves'
    refine ⟨?_, h', hserves'⟩
    rw [ParserHost.attend, List.map_cons, hunit, hunits]

/-- A host over a directory that can be made answers with what is archived there, or else with its own units. -/
theorem session_serves (hkeys : Set.InjOn (Request.key env) known) (hmade : files.createDirs directory = (.ok (), made))
    (hknown : ∀ r ∈ rs, r ∈ known)
    (hreads : ∀ r ∈ rs,
      env.archives.decode (env.archives.encode (r.plainUnit env limit)) = some (r.plainUnit env limit)) :
    ∃ h left, session env directory limit files rs = .ok (rs.map (served env directory made limit), left) ∧
      Serves env directory limit made known rs h left := by
  have hfresh : Serves env directory limit made known [] (.fresh (.fresh (some directory)) limit) made := serves_fresh
  obtain ⟨hunits, h, hserves⟩ := hfresh.attend hkeys (isDir_of_createDirs hmade) hknown hreads
  refine ⟨h, _, ?_, hserves⟩
  rw [← hunits, session, ParseCache.openAt, hmade]
  rfl

theorem createDirs_of_session (h : session env directory limit files rs = .ok (us, left)) :
    files.createDirs directory = (.ok (), (files.createDirs directory).2) := by
  rw [session, ParseCache.openAt] at h
  split at h
  · cases h
  · rename_i made hmade
    rw [hmade]

/-! ## Two hosts -/

/-- Whether a unit is one that parsing gives for a known request, with whatever limit. -/
def KnownAt (env : Surroundings) (known : Set Request) (u : ParsedUnit) : Prop :=
  ∃ r ∈ known, ∃ limit, u = r.plainUnit env limit

/-- What two hosts with the limits `p` and `q` answer, one behind the other, over the directory that the first one finds
in `opened` and leaves in `left`. -/
structure Reconfigured (env : Surroundings) (directory : Location) (p q : Nat) (opened : Listing) (rs ss : List Request)
    (us : List ParsedUnit) (left : Listing) : Prop where
  first : us = rs.map (served env directory opened p)
  second : ∃ last, session env directory q left ss = .ok (ss.map (served env directory left q), last)
  /-- What the second host finds is what the first one found or has stored. -/
  between : ∀ r ∈ ss, archived? env directory left r = archived? env directory opened r ∨
    r ∈ rs ∧ archived? env directory opened r = none ∧ archived? env directory left r = some (r.plainUnit env p)
  stored : ∀ r ∈ rs, archived? env directory opened r = none → Storable env directory opened (r.key env) →
    archived? env directory left r = some (r.plainUnit env p)
  /-- It is the unit that some limit gives. -/
  archived : ∀ r ∈ ss, archived? env directory left r = none ∨
    ∃ limit, archived? env directory left r = some (r.plainUnit env limit)
  current : ∀ r ∈ ss, served env directory left q r = r.plainUnit env q ↔
    ∀ limit, archived? env directory left r = some (r.plainUnit env limit) →
      (env.grammars.accepting? r.text).isSome ∨ SameStart r.text limit q

theorem archived?_known (harchives : Archived env directory files (KnownAt env known))
    (hkeys : Set.InjOn (Request.key env) known) (hr : r ∈ known) :
    archived? env directory files r = none ∨ ∃ limit, archived? env directory files r = some (r.plainUnit env limit) := by
  cases hu : archived? env directory files r with
  | none => exact .inl rfl
  | some u =>
    obtain ⟨⟨s, hs, limit, rfl⟩, hkey⟩ := harchives.load? rfl hu
    rw [Request.key_plainUnit] at hkey
    obtain rfl := hkeys hs hr hkey
    exact .inr ⟨limit, rfl⟩

theorem served_eq_iff (h : archived? env directory files r = none ∨
      ∃ limit, archived? env directory files r = some (r.plainUnit env limit)) :
    served env directory files q r = r.plainUnit env q ↔
      ∀ limit, archived? env directory files r = some (r.plainUnit env limit) →
        (env.grammars.accepting? r.text).isSome ∨ SameStart r.text limit q := by
  simp only [← plainUnit_eq_iff]
  rcases h with hnone | ⟨limit, hsome⟩
  · simp [served, hnone]
  · simp only [served, hsome, Option.getD_some, Option.some.injEq]
    exact ⟨fun heq limit' h' => h'.symm.trans heq, fun h => h limit rfl⟩

/-- A host behind one with another limit. Where the archives that can be read hold units of known requests, whatever the
limits of the hosts that stored them, a second host answers with what is archived by then, and else with the unit of its
own limit. The answers are all those of its own limit exactly if each of them that comes from an archive is the unit of a
text that a grammar accepts, or of which both limits keep the same. Keys of known requests do not collide, and what the
hosts write reads back. -/
theorem session_reconfigured (harchives : Archived env directory files (KnownAt env known))
    (hfile : ∀ r ∈ known, '\x00' ∉ r.file.toList) (hhash : Set.InjOn env.contentHash (Request.keyBytes '' known))
    (hknown : ∀ r ∈ rs ++ ss, r ∈ known)
    (hreads : ∀ r ∈ rs, env.archives.decode (env.archives.encode (r.plainUnit env p)) = some (r.plainUnit env p))
    (hreads' : ∀ r ∈ ss, env.archives.decode (env.archives.encode (r.plainUnit env q)) = some (r.plainUnit env q))
    (h : session env directory p files rs = .ok (us, left)) :
    Reconfigured env directory p q (files.createDirs directory).2 rs ss us left ∧
      (ss.map (served env directory left q) = ss.map (·.plainUnit env q) ↔
        ∀ r ∈ ss, ∀ limit, archived? env directory left r = some (r.plainUnit env limit) →
          (env.grammars.accepting? r.text).isSome ∨ SameStart r.text limit q) := by
  have hkeys := Request.key_injOn hhash hfile
  have hrs : ∀ r ∈ rs, r ∈ known := fun r hr => hknown r (List.mem_append_left _ hr)
  have hss : ∀ r ∈ ss, r ∈ known := fun r hr => hknown r (List.mem_append_right _ hr)
  have hmade := createDirs_of_session h
  obtain ⟨host, left', hsession, hserves⟩ := session_serves hkeys hmade hrs hreads
  obtain ⟨rfl, rfl⟩ := Prod.mk.inj (Except.ok.inj (h.symm.trans hsession))
  have hopened : Archived env directory (files.createDirs directory).2 (KnownAt env known) := by
    have hopen : ParseCache.openAt files directory = .ok (.fresh (some directory), (files.createDirs directory).2) := by
      rw [ParseCache.openAt, hmade]
    exact (harchives.openAt hopen).1
  have hagain := createDirs_of_isDir (isDir_of_dirs hserves.dirs (isDir_of_createDirs hmade))
  obtain ⟨host', last, hsecond, -⟩ := session_serves hkeys hagain hss hreads'
  have hfound : ∀ r ∈ ss, archived? env directory left r = none ∨
      ∃ limit, archived? env directory left r = some (r.plainUnit env limit) := by
    intro r hr
    rcases (hserves.filed r (hss r hr)).same_or with hsame | ⟨-, -, hnew⟩
    · rw [hsame]
      exact archived?_known hopened hkeys (hss r hr)
    · exact .inr ⟨p, hnew⟩
  have hcurrent := fun r hr => served_eq_iff (q := q) (hfound r hr)
  refine ⟨⟨rfl, ⟨last, hsecond⟩, fun r hr => (hserves.filed r (hss r hr)).same_or,
    fun r hr => (hserves.filed r (hrs r hr)).stored hr, hfound, hcurrent⟩, ?_⟩
  rw [List.map_inj_left]
  exact forall₂_congr hcurrent

/-! ## A unit that is served with too little of its text -/

/-- The directory of archives, new. -/
def shelved : Listing := (Listing.empty.createDirs ["cache"]).2

/-- What a host that keeps three bytes of a refused text leaves, asked for one. -/
def shortened : Listing := (attend spelling (.fresh (.fresh (some ["cache"])) 3) shelved [markup]).2

theorem session_shortened :
    session spelling ["cache"] 3 .empty [markup] =
      .ok ((attend spelling (.fresh (.fresh (some ["cache"])) 3) shelved [markup]).1, shortened) := by
  have hmade : (Listing.empty.createDirs ["cache"]).1 = .ok () := by decide
  have hopen : Listing.empty.createDirs ["cache"] = (.ok (), shelved) := by rw [← hmade, shelved]
  rw [session, ParseCache.openAt, hopen]
  rfl

theorem session_reconfigured_markup :
    Archived spelling ["cache"] .empty (KnownAt spelling {markup, blank}) ∧
      ∃ last, session spelling ["cache"] 16 shortened [markup, blank] =
          .ok ([markup.plainUnit spelling 3, blank.plainUnit spelling 16], last) ∧
        markup.plainUnit spelling 3 ≠ markup.plainUnit spelling 16 := by
  have harchives : Archived spelling ["cache"] .empty (KnownAt spelling {markup, blank}) := archived_empty
  have hfile : ∀ r ∈ ({markup, blank} : Set Request), '\x00' ∉ r.file.toList := by
    rintro r (rfl | rfl) <;> decide
  have hhash : Set.InjOn spelling.contentHash (Request.keyBytes '' {markup, blank}) := by
    rintro b ⟨r, rfl | rfl, rfl⟩ c ⟨s, rfl | rfl, rfl⟩ h
    · rfl
    · exact absurd h (by decide)
    · exact absurd h (by decide)
    · rfl
  have hknown : ∀ r ∈ [markup] ++ [markup, blank], r ∈ ({markup, blank} : Set Request) := by simp
  have hreads : ∀ r ∈ [markup],
      spelling.archives.decode (spelling.archives.encode (r.plainUnit spelling 3)) = some (r.plainUnit spelling 3) := by
    intro r hr
    obtain rfl := List.mem_singleton.1 hr
    exact refused_reads "unexpected `let a = <`" "let" 3 true (by decide) (by decide +kernel)
  have hreads' : ∀ r ∈ [markup, blank],
      spelling.archives.decode (spelling.archives.encode (r.plainUnit spelling 16)) = some (r.plainUnit spelling 16) := by
    intro r hr
    rcases List.mem_pair.1 hr with rfl | rfl
    · exact spelling_reads "unexpected `let a = <`" 9 (by decide) (by decide +kernel)
    · exact spelling_reads "unexpected ``" 0 (by decide) (by decide +kernel)
  obtain ⟨hboth, -⟩ := session_reconfigured harchives hfile hhash hknown hreads hreads' session_shortened
  have hnone : ∀ r ∈ [markup, blank], archived? spelling ["cache"] shelved r = none := by
    intro r hr
    rcases List.mem_pair.1 hr with rfl | rfl <;> exact Option.isNone_iff_eq_none.1 (by decide)
  have hstorable : Storable spelling ["cache"] shelved (markup.key spelling) := by
    have hvacant : ∀ place, (shelved.shapeAt? place).isNone = true → shelved.shapeAt? place ≠ some .dir := by
      intro place hplace hdir
      simp [hdir] at hplace
    exact ⟨by decide, by decide, by decide, hvacant _ (by decide), hvacant _ (by decide)⟩
  have hmarkup := hboth.stored markup (by simp) (hnone markup (by simp)) hstorable
  have hblank : archived? spelling ["cache"] shortened blank = none := by
    rcases hboth.between blank (by simp) with hsame | ⟨hmem, -⟩
    · rw [hsame]
      exact hnone blank (by simp)
    · exact absurd hmem (by decide)
  obtain ⟨last, hsecond⟩ := hboth.second
  simp only [List.map_cons, List.map_nil, served, hmarkup, hblank, Option.getD_some, Option.getD_none] at hsecond
  refine ⟨harchives, last, hsecond, fun heq => ?_⟩
  rcases plainUnit_eq_iff.1 heq with haccepted | hstart
  · exact absurd haccepted (by decide)
  · exact absurd hstart (by decide)

end

end TreeRepair.ParserHost
