import Mathlib.Data.Finset.Card
import Mathlib.Data.Finset.Dedup
import Mathlib.Logic.Relation
import TreeRepair.Proofs.Parsing.Archives
import TreeRepair.Syntax.Table

/-! A cache that does not show. Hosts over one directory of archives are asked for texts in any order, new ones are
opened over the directory, and the archives come to harm; still each unit is the one that parsing without a cache
gives, and the counts of a host are those of what it was asked for. What carries this is that an archive that can be
read holds the unit of some text that was asked for, wherever it lies: the key in it tells which. -/

set_option autoImplicit false

namespace TreeRepair.ParserHost

open Listing ParseCache

/-! ## Requests -/

/-- A text that is asked for, and the file that it belongs to. -/
structure Request where
  file : String
  text : String
  deriving DecidableEq, Repr

namespace Request

/-- The bytes that the content key is the hash of. -/
def keyBytes (r : Request) : ByteArray := contentKeyBytes r.text.toUTF8 r.file toolVersion

/-- The content key. -/
def key (env : Surroundings) (r : Request) : String := contentKey env.contentHash r.text.toUTF8 r.file

/-- The unit that parsing without a cache gives. -/
def plainUnit (env : Surroundings) (limit : Nat) (r : Request) : ParsedUnit :=
  parseText env.grammars limit r.file (r.key env) r.text

end Request

/-- A request with what came of it. -/
structure Asked where
  request : Request
  /-- Whether the text was parsed, and not found in the cache. -/
  parsed : Bool
  unit : ParsedUnit

/-- A host with all that it was asked for. -/
structure Attended where
  host : ParserHost
  asked : List Asked

/-- What is asked of a host once more. -/
def Attended.asking (a : Attended) (env : Surroundings) (files : Listing) (r : Request) (p : Parsed) : Attended :=
  ⟨p.host, a.asked ++ [⟨r, (a.host.cache.get? env files (r.key env)).isNone, p.unit⟩]⟩

/-- Files, and hosts over them. -/
structure Shared where
  files : Listing
  hosts : List Attended

/-- All that the hosts were asked for. -/
def Shared.requests (d : Shared) : Set Request := {r | ∃ a ∈ d.hosts, ∃ q ∈ a.asked, q.request = r}

/-- What may happen next. A host is opened over the directory of archives, a host is asked for a text or for a file, or
archives come to harm. -/
inductive Step (env : Surroundings) (directory : Location) (limit : Nat) : Shared → Shared → Prop
  | reopen {d : Shared} {cache : ParseCache} {files : Listing} (h : ParseCache.openAt d.files directory = .ok (cache, files)) :
      Step env directory limit d ⟨files, d.hosts ++ [⟨.fresh cache limit, []⟩]⟩
  | parse {d : Shared} {i : Nat} {a : Attended} (h : d.hosts[i]? = some a) (r : Request) :
      Step env directory limit d ⟨(a.host.parse env d.files r.file r.text).files,
        d.hosts.set i (a.asking env d.files r (a.host.parse env d.files r.file r.text))⟩
  | parseFile {d : Shared} {i : Nat} {a : Attended} (h : d.hosts[i]? = some a) {root : Location} {file : String}
      {bytes : ByteArray} (hfile : d.files.entryAt (root.join file) = .ok (.file bytes)) {p : Parsed}
      (hp : a.host.parseFile env d.files root file = .ok p) :
      Step env directory limit d ⟨p.files, d.hosts.set i (a.asking env d.files ⟨file, Text.decodeLossy bytes⟩ p)⟩
  | damage {d : Shared} {files : Listing} (h : Damaged env directory d.files files) :
      Step env directory limit d ⟨files, d.hosts⟩

/-- What a host gave is what parsing without a cache gives, and its counts are those of what it was asked for. -/
structure Attended.Counted (env : Surroundings) (limit : Nat) (a : Attended) : Prop where
  unit_eq : ∀ q ∈ a.asked, q.unit = q.request.plainUnit env limit
  filesParsed : a.host.metrics.filesParsed = (a.asked.filter (·.parsed)).length
  calls : a.host.metrics.filesParsed + a.host.metrics.cacheHits = a.asked.length
  totalErrors : a.host.metrics.totalErrors = ((a.asked.filter (·.parsed)).map (·.unit.errors.length)).sum

/-- A host whose cache does not show, but for its size: one key for each text of a file. -/
structure Attended.Transparent (env : Surroundings) (limit : Nat) (a : Attended) : Prop extends a.Counted env limit where
  size : a.host.cache.size = (a.asked.map (·.request)).toFinset.card

/-! ## Keys tell requests apart -/

theorem append_mark_inj {α : Type} {m : α} {a b c d : List α} (hb : m ∉ b) (hd : m ∉ d)
    (h : a ++ m :: b = c ++ m :: d) : a = c ∧ b = d := by
  rcases List.append_eq_append_iff.1 h with ⟨e, rfl, he⟩ | ⟨e, rfl, he⟩
  · cases e with
    | nil => exact ⟨(List.append_nil _).symm, (List.cons.inj he).2⟩
    | cons x e => exact absurd ((List.cons.inj he).2 ▸ by simp) hb
  · cases e with
    | nil => exact ⟨List.append_nil _, (List.cons.inj he).2.symm⟩
    | cons x e => exact absurd ((List.cons.inj he).2 ▸ by simp) hd

theorem zero_notMem_toUTF8 {s : String} (h : '\x00' ∉ s.toList) : 0 ∉ s.toUTF8.data.toList := by
  rw [← String.ofList_toList (s := s)]
  refine Text.notMem_toUTF8 (by decide) fun c hc h0 => h ?_
  rwa [← Char.ofNat_toNat c, h0] at hc

theorem contentKeyBytes_data (content : ByteArray) (identity version : String) :
    (contentKeyBytes content identity version).data.toList =
      (content.data.toList ++ 0 :: identity.toUTF8.data.toList) ++ 0 :: version.toUTF8.data.toList := by
  simp [contentKeyBytes]

theorem toUTF8_data_inj {s t : String} (h : s.toUTF8.data.toList = t.toUTF8.data.toList) : s = t := by
  have hbytes : s.toUTF8 = t.toUTF8 := ByteArray.ext (Array.toList_inj.1 h)
  exact String.toByteArray_inj.1 hbytes

theorem Request.keyBytes_inj {r s : Request} (hr : '\x00' ∉ r.file.toList) (hs : '\x00' ∉ s.file.toList)
    (h : r.keyBytes = s.keyBytes) : r = s := by
  have hdata := congrArg (fun b : ByteArray => b.data.toList) h
  simp only [keyBytes, contentKeyBytes_data] at hdata
  have hversion : 0 ∉ toolVersion.toUTF8.data.toList := zero_notMem_toUTF8 (by decide)
  obtain ⟨hfront, -⟩ := append_mark_inj hversion hversion hdata
  obtain ⟨htext, hfile⟩ := append_mark_inj (zero_notMem_toUTF8 hr) (zero_notMem_toUTF8 hs) hfront
  obtain ⟨rfile, rtext⟩ := r
  obtain ⟨sfile, stext⟩ := s
  exact congrArg₂ Request.mk (toUTF8_data_inj hfile) (toUTF8_data_inj htext)

section

variable {env : Surroundings} {directory : Location} {limit : Nat} {files : Listing} {known : Set Request}

theorem Request.key_plainUnit (r : Request) : (r.plainUnit env limit).key = r.key env := parseText_key ..

theorem Request.key_injOn (hhash : Set.InjOn env.contentHash (Request.keyBytes '' known))
    (hfile : ∀ r ∈ known, '\x00' ∉ r.file.toList) : Set.InjOn (Request.key env) known := fun r hr s hs h =>
  keyBytes_inj (hfile r hr) (hfile s hs) (hhash ⟨r, hr, rfl⟩ ⟨s, hs, rfl⟩ h)

/-! ## What the two tiers hold -/

/-- Whether a unit is that of a known request. -/
def Known (env : Surroundings) (limit : Nat) (known : Set Request) (u : ParsedUnit) : Prop :=
  ∃ r ∈ known, u = r.plainUnit env limit

/-- A cache that holds, under their keys, the units of the requests made of it. -/
structure Tracks (env : Surroundings) (directory : Location) (limit : Nat) (known : Set Request) (asked : List Request)
    (c : ParseCache) : Prop where
  directory_eq : c.directory = some directory
  entries : ∀ e ∈ c.entries, ∃ r ∈ known, e = (r.key env, r.plainUnit env limit)
  nodup : (c.entries.map (·.1)).Nodup
  keys : ∀ key, key ∈ c.entries.map (·.1) ↔ ∃ r ∈ asked, r.key env = key

variable {asked : List Request} {c : ParseCache} {r : Request}

theorem tracks_fresh : Tracks env directory limit known [] (.fresh (some directory)) :=
  ⟨rfl, by simp [ParseCache.fresh], by simp [ParseCache.fresh], by simp [ParseCache.fresh]⟩

theorem Tracks.again (h : Tracks env directory limit known asked c) (hmem : r.key env ∈ c.entries.map (·.1)) :
    Tracks env directory limit known (asked ++ [r]) c := by
  refine ⟨h.directory_eq, h.entries, h.nodup, fun key => ⟨fun hkey => ?_, ?_⟩⟩
  · obtain ⟨s, hs, rfl⟩ := (h.keys key).1 hkey
    exact ⟨s, List.mem_append_left _ hs, rfl⟩
  · rintro ⟨s, hs, rfl⟩
    rcases List.mem_append.1 hs with hs | hs
    · exact (h.keys _).2 ⟨s, hs, rfl⟩
    · rwa [List.mem_singleton.1 hs]

theorem Tracks.remember (h : Tracks env directory limit known asked c) (hr : r ∈ known) :
    Tracks env directory limit known (asked ++ [r]) (c.remember (r.key env) (r.plainUnit env limit)) := by
  refine ⟨h.directory_eq, forall_mem_remember h.entries ⟨r, hr, rfl⟩, nodup_keys_remember h.nodup _ _, fun key => ?_⟩
  rw [mem_keys_remember, h.keys]
  constructor
  · rintro (rfl | ⟨s, hs, rfl⟩)
    · exact ⟨r, by simp, rfl⟩
    · exact ⟨s, List.mem_append_left _ hs, rfl⟩
  · rintro ⟨s, hs, rfl⟩
    rcases List.mem_append.1 hs with hs | hs
    · exact .inr ⟨s, hs, rfl⟩
    · exact .inl (by rw [List.mem_singleton.1 hs])

/-- What is found under the key of a known request is its unit. -/
theorem Tracks.get? (h : Tracks env directory limit known asked c) (hkeys : Set.InjOn (Request.key env) known)
    (harchives : Archived env directory files (Known env limit known)) (hr : r ∈ known) {u : ParsedUnit} {c' : ParseCache}
    (hget : c.get? env files (r.key env) = some (u, c')) :
    u = r.plainUnit env limit ∧ Tracks env directory limit known (asked ++ [r]) c' := by
  obtain ⟨hlook, rfl⟩ | ⟨-, hload, rfl⟩ := get?_cases hget
  · have hentry := mem_entries_of_lookup hlook
    obtain ⟨s, hs, heq⟩ := h.entries _ hentry
    obtain ⟨hkey, rfl⟩ := Prod.mk.inj heq
    obtain rfl := hkeys hr hs hkey
    exact ⟨rfl, h.again (List.mem_map_of_mem hentry)⟩
  · obtain ⟨⟨s, hs, rfl⟩, hkey⟩ := harchives.load? h.directory_eq hload
    rw [Request.key_plainUnit] at hkey
    obtain rfl := hkeys hs hr hkey
    exact ⟨rfl, h.remember hr⟩

theorem Tracks.size (h : Tracks env directory limit known asked c) (hkeys : Set.InjOn (Request.key env) known)
    (hknown : ∀ r ∈ asked, r ∈ known) : c.size = asked.toFinset.card := by
  have hset : (c.entries.map (·.1)).toFinset = asked.toFinset.image (Request.key env) := by
    ext key
    rw [List.mem_toFinset, h.keys]
    simp
  rw [ParseCache.size, ← List.length_map (f := (·.1)), ← List.toFinset_card_of_nodup h.nodup, hset]
  exact Finset.card_image_of_injOn fun r hr s hs => hkeys (hknown r (by simpa using hr)) (hknown s (by simpa using hs))

/-! ## One host -/

/-- A host that has given and counted what it should, with a cache that holds what it was asked for. -/
structure Attended.Sound (env : Surroundings) (directory : Location) (limit : Nat) (known : Set Request)
    (a : Attended) : Prop where
  limit_eq : a.host.recoveryLimit = limit
  tracks : Tracks env directory limit known (a.asked.map (·.request)) a.host.cache
  counted : a.Counted env limit

theorem sound_fresh : Attended.Sound env directory limit known ⟨.fresh (.fresh (some directory)) limit, []⟩ :=
  ⟨rfl, tracks_fresh, ⟨by simp, rfl, rfl, rfl⟩⟩

theorem Attended.Counted.asking {a : Attended} (h : a.Counted env limit) {host : ParserHost} {parsed : Bool}
    {u : ParsedUnit} (hu : u = r.plainUnit env limit)
    (hm : host.metrics =
      if parsed then ⟨a.host.metrics.filesParsed + 1, a.host.metrics.cacheHits, a.host.metrics.totalErrors + u.errors.length⟩
      else ⟨a.host.metrics.filesParsed, a.host.metrics.cacheHits + 1, a.host.metrics.totalErrors⟩) :
    Attended.Counted env limit ⟨host, a.asked ++ [⟨r, parsed, u⟩]⟩ := by
  obtain ⟨hunit, hparsed, hcalls, herrors⟩ := h
  have hunits : ∀ q ∈ a.asked ++ [⟨r, parsed, u⟩], q.unit = q.request.plainUnit env limit := by
    intro q hq
    rcases List.mem_append.1 hq with hq | hq
    · exact hunit q hq
    · rw [List.mem_singleton.1 hq]
      exact hu
  cases parsed with
  | true => exact ⟨hunits, by simp [hm, hparsed], by simp [hm, ← hcalls]; omega, by simp [hm, herrors]⟩
  | false => exact ⟨hunits, by simp [hm, hparsed], by simp [hm, ← hcalls]; omega, by simp [hm, herrors]⟩

/-- A host that is asked once more gives and counts what it should, and leaves archives that hold units of known
requests. -/
theorem Attended.Sound.asking {a : Attended} (h : a.Sound env directory limit known)
    (hkeys : Set.InjOn (Request.key env) known) (harchives : Archived env directory files (Known env limit known))
    (hr : r ∈ known)
    (hreads : env.archives.decode (env.archives.encode (r.plainUnit env limit)) = some (r.plainUnit env limit)) :
    (a.asking env files r (a.host.parse env files r.file r.text)).Sound env directory limit known ∧
      Archived env directory (a.host.parse env files r.file r.text).files (Known env limit known) := by
  obtain ⟨rfl, htracks, hcounted⟩ := h
  unfold Attended.asking ParserHost.parse
  cases hget : a.host.cache.get? env files (r.key env) with
  | some found =>
    obtain ⟨u, c'⟩ := found
    rw [Request.key] at hget
    simp only [hget]
    obtain ⟨hu, htracks'⟩ := htracks.get? hkeys harchives hr hget
    refine ⟨⟨rfl, ?_, hcounted.asking hu rfl⟩, harchives⟩
    rw [List.map_append]
    exact htracks'
  | none =>
    rw [Request.key] at hget
    simp only [hget]
    refine ⟨⟨rfl, ?_, hcounted.asking rfl rfl⟩, harchives.store htracks.directory_eq ⟨r, hr, rfl⟩ hreads⟩
    rw [List.map_append]
    have hstored := htracks.remember hr
    rwa [← r.key_plainUnit] at hstored

/-! ## Runs -/

/-- Archives and hosts as they should be. -/
def Shared.Sound (env : Surroundings) (directory : Location) (limit : Nat) (known : Set Request) (d : Shared) : Prop :=
  Archived env directory d.files (Known env limit known) ∧ ∀ a ∈ d.hosts, a.Sound env directory limit known

theorem parseFile_eq {h : ParserHost} {root : Location} {file : String} {bytes : ByteArray} {p : Parsed}
    (hfile : files.entryAt (root.join file) = .ok (.file bytes)) (hp : h.parseFile env files root file = .ok p) :
    p = h.parse env files file (Text.decodeLossy bytes) := by
  rw [parseFile, hfile] at hp
  exact (Except.ok.inj hp).symm

theorem Shared.Sound.asking {d : Shared} {i : Nat} {a : Attended} (h : d.Sound env directory limit known)
    (hi : d.hosts[i]? = some a) (hkeys : Set.InjOn (Request.key env) known) (hr : r ∈ known)
    (hreads : env.archives.decode (env.archives.encode (r.plainUnit env limit)) = some (r.plainUnit env limit)) :
    Shared.Sound env directory limit known ⟨(a.host.parse env d.files r.file r.text).files,
      d.hosts.set i (a.asking env d.files r (a.host.parse env d.files r.file r.text))⟩ := by
  obtain ⟨hsound, harchives⟩ := (h.2 a (List.mem_of_getElem? hi)).asking hkeys h.1 hr hreads
  refine ⟨harchives, fun b hb => ?_⟩
  rcases List.mem_or_eq_of_mem_set hb with hb | rfl
  · exact h.2 b hb
  · exact hsound

theorem mem_requests_asking {d : Shared} {i : Nat} {a : Attended} {p : Parsed} (hi : d.hosts[i]? = some a)
    {stored : Listing} {s : Request} (hs : s ∈ d.requests ∨ s = r) :
    s ∈ Shared.requests ⟨stored, d.hosts.set i (a.asking env files r p)⟩ := by
  have hlt : i < d.hosts.length := (List.getElem?_eq_some_iff.1 hi).1
  have hset : a.asking env files r p ∈ d.hosts.set i (a.asking env files r p) := List.mem_set hlt _
  rcases hs with ⟨b, hb, q, hq, rfl⟩ | rfl
  · obtain ⟨j, hj⟩ := List.getElem?_of_mem hb
    by_cases hij : i = j
    · obtain rfl : a = b := Option.some.inj (hi.symm.trans (hij ▸ hj))
      exact ⟨_, hset, q, List.mem_append_left _ hq, rfl⟩
    · refine ⟨b, List.mem_of_getElem? (i := j) ?_, q, hq, rfl⟩
      rwa [List.getElem?_set_ne hij]
  · exact ⟨_, hset, _, List.mem_append_right _ (List.mem_singleton_self _), rfl⟩

/-- A step keeps archives and hosts as they should be, if all that the hosts were asked for behind it is known. -/
theorem Step.sound {x y : Shared} (hs : Step env directory limit x y) (h : x.Sound env directory limit known)
    (hkeys : Set.InjOn (Request.key env) known)
    (hreads : ∀ r ∈ known,
      env.archives.decode (env.archives.encode (r.plainUnit env limit)) = some (r.plainUnit env limit))
    (hknown : y.requests ⊆ known) : y.Sound env directory limit known := by
  cases hs with
  | reopen hopen =>
    obtain ⟨harchives, rfl⟩ := h.1.openAt hopen
    refine ⟨harchives, fun a ha => ?_⟩
    rcases List.mem_append.1 ha with ha | ha
    · exact h.2 a ha
    · rw [List.mem_singleton.1 ha]
      exact sound_fresh
  | parse hi r =>
    have hr : r ∈ known := hknown (mem_requests_asking hi (.inr rfl))
    exact h.asking hi hkeys hr (hreads r hr)
  | @parseFile i a hi root file bytes hfile p hp =>
    obtain rfl := parseFile_eq hfile hp
    have hr : ⟨file, Text.decodeLossy bytes⟩ ∈ known := hknown (mem_requests_asking hi (.inr rfl))
    exact h.asking (r := ⟨file, Text.decodeLossy bytes⟩) hi hkeys hr (hreads _ hr)
  | damage hd => exact ⟨h.1.damaged hd, h.2⟩

theorem Step.requests_subset {x y : Shared} (hs : Step env directory limit x y) : x.requests ⊆ y.requests := by
  cases hs with
  | reopen hopen =>
    rintro r ⟨a, ha, hr⟩
    exact ⟨a, List.mem_append_left _ ha, hr⟩
  | parse hi r => exact fun s hs => mem_requests_asking hi (.inl hs)
  | parseFile hi hfile hp => exact fun s hs => mem_requests_asking hi (.inl hs)
  | damage hd => exact fun s hs => hs

/-- A run from archives that cannot be read keeps archives and hosts as they should be. -/
theorem sound_of_run {x y : Shared} (hrun : Relation.ReflTransGen (Step env directory limit) x y)
    (hx : x.Sound env directory limit known) (hkeys : Set.InjOn (Request.key env) known)
    (hreads : ∀ r ∈ known,
      env.archives.decode (env.archives.encode (r.plainUnit env limit)) = some (r.plainUnit env limit))
    (hknown : y.requests ⊆ known) : y.Sound env directory limit known := by
  induction hrun with
  | refl => exact hx
  | tail _ hstep ih => exact hstep.sound (ih (hstep.requests_subset.trans hknown)) hkeys hreads hknown

/-- Behind any run the cache of no host shows. The first files have no archive that can be read; what is written for
the requests of the run reads back; and the hash has no collision on their content keys. -/
theorem transparent_of_run {d : Shared} (hfirst : Archived env directory files fun _ => False)
    (hrun : Relation.ReflTransGen (Step env directory limit) ⟨files, []⟩ d)
    (hfile : ∀ r ∈ d.requests, '\x00' ∉ r.file.toList)
    (hhash : Set.InjOn env.contentHash (Request.keyBytes '' d.requests))
    (hreads : ∀ r ∈ d.requests,
      env.archives.decode (env.archives.encode (r.plainUnit env limit)) = some (r.plainUnit env limit)) :
    ∀ a ∈ d.hosts, a.Transparent env limit := by
  intro a ha
  have hkeys := Request.key_injOn hhash hfile
  have hstart : Shared.Sound env directory limit d.requests ⟨files, []⟩ :=
    ⟨fun key bytes u hb hu => (hfirst key bytes u hb hu).elim, by simp⟩
  have hsound := (sound_of_run hrun hstart hkeys hreads subset_rfl).2 a ha
  refine ⟨hsound.counted, hsound.tracks.size hkeys fun r hr => ?_⟩
  obtain ⟨q, hq, rfl⟩ := List.mem_map.1 hr
  exact ⟨a, ha, q, hq, rfl⟩

/-! ## A run with a misplaced archive -/

/-- Surroundings where every text is refused, and the hash of bytes is their hexadecimal text. -/
def spelling : Surroundings where
  grammars _ text := .refusal text
  contentHash bytes := Digest.hexText bytes.data.toList
  checksum bytes := Digest.hexText bytes.data.toList
  archives := .json
  process := 1
  clock n := 1700000000000 + n
  freshId n := toString n

/-- The hosts behind a request of one of them. -/
def Shared.asking (env : Surroundings) (d : Shared) (i : Nat) (r : Request) : Shared :=
  match d.hosts[i]? with
  | none => d
  | some a => ⟨(a.host.parse env d.files r.file r.text).files,
      d.hosts.set i (a.asking env d.files r (a.host.parse env d.files r.file r.text))⟩

theorem Step.asking {d : Shared} {i : Nat} (h : i < d.hosts.length) (r : Request) :
    Step env directory limit d (d.asking env i r) := by
  have hi := List.getElem?_eq_getElem h
  simp only [Shared.asking, hi]
  exact .parse hi r

/-- The hosts with a new one over `cache`, which may keep 16 bytes of a refused text. -/
def Shared.reopened (d : Shared) : Shared :=
  ⟨(d.files.createDirs ["cache"]).2, d.hosts ++ [⟨.fresh (.fresh (some ["cache"])) 16, []⟩]⟩

theorem Step.reopened {d : Shared} (h : (d.files.createDirs ["cache"]).1 = .ok ()) : Step env ["cache"] 16 d d.reopened := by
  have hopen : ParseCache.openAt d.files ["cache"] = .ok (.fresh (some ["cache"]), (d.files.createDirs ["cache"]).2) := by
    rw [ParseCache.openAt]
    split
    · rename_i fault made hmade
      simp [hmade] at h
    · rename_i made hmade
      rw [hmade]
  exact .reopen hopen

def markup : Request := ⟨"a.js", "let a = <"⟩

def blank : Request := ⟨"b.js", ""⟩

/-- A host over a new directory, asked for two texts. -/
def twoTexts : Shared := (((⟨.empty, []⟩ : Shared).reopened).asking spelling 0 markup).asking spelling 0 blank

/-- The directory with the second archive in place of the first as well. -/
def misplaced : Listing :=
  .dir "cache"
    (.file (markup.key spelling ++ archiveEnding) (spelling.archives.encode (blank.plainUnit spelling 16))
      (.file (blank.key spelling ++ archiveEnding) (spelling.archives.encode (blank.plainUnit spelling 16)) .empty))
    .empty

/-- The host and a new one behind it, asked for the texts again. -/
def fourTexts : Shared :=
  (((⟨misplaced, twoTexts.hosts⟩ : Shared).reopened).asking spelling 1 markup).asking spelling 1 blank

theorem holds_twoTexts : Holds ["cache"] twoTexts.files (blank.key spelling)
    (spelling.archives.encode (blank.plainUnit spelling 16)) := holds_of_read (by decide) (by decide +kernel)

theorem damaged_misplaced : Damaged spelling ["cache"] twoTexts.files misplaced := by
  rintro key bytes ⟨-, hshape⟩
  refine .inr ⟨blank.key spelling, ?_⟩
  have hcache : Location.settled ["cache"] = ["cache"] := by decide
  rw [archiveTrail, hcache, shapeAt?_eq_file] at hshape
  simp only [misplaced, List.cons_append, List.nil_append, find?, child?, if_true] at hshape
  have hbytes : bytes = spelling.archives.encode (blank.plainUnit spelling 16) := by
    split at hshape
    · simp at hshape
    · rename_i content hchild
      split at hchild
      · grind
      · grind
    · simp at hshape
  rw [hbytes]
  exact holds_twoTexts

theorem fourTexts_transparent :
    Archived spelling ["cache"] .empty (fun _ => False) ∧
      Relation.ReflTransGen (Step spelling ["cache"] 16) ⟨.empty, []⟩ fourTexts ∧
      (∀ r ∈ fourTexts.requests, '\x00' ∉ r.file.toList) ∧
      Set.InjOn spelling.contentHash (Request.keyBytes '' fourTexts.requests) ∧
      (∀ r ∈ fourTexts.requests,
        spelling.archives.decode (spelling.archives.encode (r.plainUnit spelling 16)) = some (r.plainUnit spelling 16)) ∧
      fourTexts.hosts.map (·.host.metrics) = [⟨2, 0, 2⟩, ⟨1, 1, 1⟩] ∧
      ∀ a ∈ fourTexts.hosts, a.Transparent spelling 16 := by
  have hfirst : Archived spelling ["cache"] .empty fun _ => False := by
    rintro key bytes u ⟨-, hshape⟩ -
    simp [archiveTrail, Location.settled, Location.settleFrom, Location.isVoid, shapeAt?_eq_file, find?, child?] at hshape
  have hrun : Relation.ReflTransGen (Step spelling ["cache"] 16) ⟨.empty, []⟩ fourTexts :=
    .head (.reopened (by decide)) <| .head (.asking (by decide) _) <|
      .head (.asking (by decide) _) <| .head (.damage damaged_misplaced) <|
      .head (.reopened (by decide)) <| .head (.asking (by decide) _) <|
      .single (.asking (by decide) _)
  have hrequests : ∀ r ∈ fourTexts.requests, r = markup ∨ r = blank := by
    rintro r ⟨a, ha, q, hq, rfl⟩
    have hall : fourTexts.hosts.all (fun a => a.asked.all fun q => q.request = markup ∨ q.request = blank) = true := by
      decide
    simpa using List.all_eq_true.1 (List.all_eq_true.1 hall a ha) q hq
  have hfile : ∀ r ∈ fourTexts.requests, '\x00' ∉ r.file.toList := by
    intro r hr
    rcases hrequests r hr with rfl | rfl <;> decide
  have hhash : Set.InjOn spelling.contentHash (Request.keyBytes '' fourTexts.requests) := by
    rintro b ⟨r, hr, rfl⟩ c ⟨s, hs, rfl⟩ h
    rcases hrequests r hr with rfl | rfl <;> rcases hrequests s hs with rfl | rfl
    · rfl
    · exact absurd h (by decide)
    · exact absurd h (by decide)
    · rfl
  have hreads : ∀ r ∈ fourTexts.requests,
      spelling.archives.decode (spelling.archives.encode (r.plainUnit spelling 16)) = some (r.plainUnit spelling 16) := by
    intro r hr
    refine ArchiveFormat.json_decode_encode ?_
    rcases hrequests r hr with rfl | rfl
    · have hunit : markup.plainUnit spelling 16 = ⟨"a.js", markup.key spelling, none, "let a = <", #[],
          [⟨"unexpected `let a = <`", 1, 0⟩], some ⟨"unexpected `let a = <`", 1, 0, 9, false⟩⟩ := by decide +kernel
      rw [hunit]
      simp [ArchiveFormat.unitJson, ArchiveFormat.issueJson, ArchiveFormat.recoveryJson, Json.optional, Json.Exact, Json.ExactItems]
    · have hunit : blank.plainUnit spelling 16 = ⟨"b.js", blank.key spelling, none, "", #[],
          [⟨"unexpected ``", 1, 0⟩], some ⟨"unexpected ``", 1, 0, 0, false⟩⟩ := by decide +kernel
      rw [hunit]
      simp [ArchiveFormat.unitJson, ArchiveFormat.issueJson, ArchiveFormat.recoveryJson, Json.optional, Json.Exact, Json.ExactItems]
  exact ⟨hfirst, hrun, hfile, hhash, hreads, by decide +kernel, transparent_of_run hfirst hrun hfile hhash hreads⟩

end

end TreeRepair.ParserHost
