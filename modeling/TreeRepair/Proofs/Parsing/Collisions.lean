import TreeRepair.Proofs.Parsing.Transparency

/-! Content keys that agree. A key is the hash of a content and an identity with a zero byte behind each, and both may hold
zeros, so the end of the content can be moved into the identity. Two inputs that differ have the same bytes exactly if one
is the other with this end moved; then a host that has met the one answers the other with its unit. -/

set_option autoImplicit false

namespace TreeRepair

/-- The first content and identity are the second ones with the end of the content moved into the identity: what stood
behind a zero byte there stands in front of a zero character here. -/
def Moved (content : ByteArray) (identity : String) (content' : ByteArray) (identity' : String) : Prop :=
  ∃ front : String, identity = front ++ "\x00" ++ identity' ∧ content' = content ++ ⟨#[0]⟩ ++ front.toUTF8

/-! ## Bytes of keys -/

theorem contentKeyBytes_inj {a b : ByteArray} {s t : String} (version : String) :
    contentKeyBytes a s version = contentKeyBytes b t version ↔
      a.data.toList ++ 0 :: s.toUTF8.data.toList = b.data.toList ++ 0 :: t.toUTF8.data.toList := by
  rw [ByteArray.ext_iff, ← Array.toList_inj, ParserHost.contentKeyBytes_data, ParserHost.contentKeyBytes_data, List.append_cancel_right_eq]

theorem moved_iff {a b : ByteArray} {s t : String} : Moved a s b t ↔
    ∃ x, b.data.toList = a.data.toList ++ 0 :: x ∧ s.toUTF8.data.toList = x ++ 0 :: t.toUTF8.data.toList := by
  constructor
  · rintro ⟨front, rfl, rfl⟩
    have hzero : "\x00".toList.flatMap String.utf8EncodeChar = [0] := by decide
    refine ⟨front.toUTF8.data.toList, by simp, ?_⟩
    simp only [Text.data_toUTF8, String.toList_append, List.flatMap_append, hzero, List.append_assoc,
      List.singleton_append]
  · rintro ⟨x, hcontent, hidentity⟩
    rw [Text.data_toUTF8] at hidentity
    obtain ⟨l, r, hs, rfl, hr⟩ := Text.eq_append_of_encode_zero hidentity
    refine ⟨String.ofList l, ?_, ?_⟩
    · have ht : r = t.toList := by
        rw [← Text.decodeChars_encode ' ' r, hr, Text.data_toUTF8, Text.decodeChars_encode]
      rw [← String.toList_inj, hs, ht]
      simp
    · rw [ByteArray.ext_iff, ← Array.toList_inj, hcontent]
      simp [← Text.data_toUTF8_ofList]

/-- Two lists with a mark in each are the same exactly if the marks are at one place, or one stands in what is behind or
in front of the other. -/
theorem append_mark_eq_iff {α : Type} {m : α} {a b s t : List α} : a ++ m :: s = b ++ m :: t ↔
    a = b ∧ s = t ∨ (∃ x, b = a ++ m :: x ∧ s = x ++ m :: t) ∨ ∃ x, a = b ++ m :: x ∧ t = x ++ m :: s := by
  constructor
  · intro h
    rcases List.append_eq_append_iff.1 h with ⟨e, rfl, he⟩ | ⟨e, rfl, he⟩
    · cases e with
      | nil => exact .inl ⟨(List.append_nil a).symm, (List.cons.inj he).2⟩
      | cons d e =>
        obtain ⟨rfl, hs⟩ := List.cons.inj he
        exact .inr (.inl ⟨e, rfl, hs⟩)
    · cases e with
      | nil => exact .inl ⟨List.append_nil b, (List.cons.inj he).2.symm⟩
      | cons d e =>
        obtain ⟨rfl, ht⟩ := List.cons.inj he
        exact .inr (.inr ⟨e, rfl, ht⟩)
  · rintro (⟨rfl, rfl⟩ | ⟨x, rfl, rfl⟩ | ⟨x, rfl, rfl⟩)
    · rfl
    · rw [List.append_assoc, List.cons_append]
    · rw [List.append_assoc, List.cons_append]

theorem contentKeyBytes_eq_iff {a b : ByteArray} {s t : String} (version : String) :
    contentKeyBytes a s version = contentKeyBytes b t version ↔ a = b ∧ s = t ∨ Moved a s b t ∨ Moved b t a s := by
  have hcontent : a.data.toList = b.data.toList ↔ a = b := by rw [ByteArray.ext_iff, Array.toList_inj]
  have hidentity : s.toUTF8.data.toList = t.toUTF8.data.toList ↔ s = t :=
    ⟨ParserHost.toUTF8_data_inj, fun h => h ▸ rfl⟩
  rw [contentKeyBytes_inj, append_mark_eq_iff, moved_iff, moved_iff, hcontent, hidentity]

theorem Moved.zero_mem {a b : ByteArray} {s t : String} (h : Moved a s b t) : '\x00' ∈ s.toList := by
  obtain ⟨front, rfl, -⟩ := h
  simp

theorem Moved.ne {a b : ByteArray} {s t : String} (h : Moved a s b t) : s ≠ t := by
  obtain ⟨front, rfl, -⟩ := h
  intro heq
  have hlen := congrArg String.length heq
  simp at hlen

theorem contentKeyBytes_eq_iff_of_notMem {a b : ByteArray} {s t : String} (version : String) (hs : '\x00' ∉ s.toList)
    (ht : '\x00' ∉ t.toList) : contentKeyBytes a s version = contentKeyBytes b t version ↔ a = b ∧ s = t := by
  have hmoved : ¬Moved a s b t := fun h => hs h.zero_mem
  have hback : ¬Moved b t a s := fun h => ht h.zero_mem
  rw [contentKeyBytes_eq_iff, or_iff_left (not_or_intro hmoved hback)]

/-! ## The memory of a cache -/

namespace ParseCache

theorem lookup_filter_ne {key k : String} (hne : k ≠ key) (entries : List (String × ParsedUnit)) :
    (entries.filter (·.1 != key)).lookup k = entries.lookup k := by
  induction entries with
  | nil => rfl
  | cons e rest ih =>
    by_cases he : e.1 = key
    · have hskip : (k == e.1) = false := beq_false_of_ne (he ▸ hne)
      rw [List.filter_cons_of_neg (by simpa using he), ih, List.lookup_cons, hskip]
    · rw [List.filter_cons_of_pos (by simpa using he), List.lookup_cons, List.lookup_cons, ih]

theorem lookup_remember (c : ParseCache) (key : String) (u : ParsedUnit) (k : String) :
    (c.remember key u).entries.lookup k = if k = key then some u else c.entries.lookup k := by
  rw [remember, List.lookup_cons]
  by_cases hk : k = key
  · rw [hk, beq_self_eq_true, if_pos rfl]
  · rw [beq_false_of_ne hk, if_neg hk, lookup_filter_ne hk]

theorem lookup_get? {c c' : ParseCache} {env : Surroundings} {files : Listing} {key : String} {u : ParsedUnit}
    (h : c.get? env files key = some (u, c')) (k : String) :
    c'.entries.lookup k = if k = key then some u else c.entries.lookup k := by
  obtain ⟨hlook, rfl⟩ | ⟨-, -, rfl⟩ := get?_cases h
  · split
    · rename_i hk
      rw [hk, hlook]
    · rfl
  · exact lookup_remember c key u k

end ParseCache

namespace ParserHost

open Listing ParseCache

/-- An answer is in memory from then on, and so is what was there. -/
theorem lookup_parse (h : ParserHost) (env : Surroundings) (files : Listing) (file text key : String) :
    (h.parse env files file text).host.cache.entries.lookup key =
      if key = contentKey env.contentHash text.toUTF8 file then some (h.parse env files file text).unit
      else h.cache.entries.lookup key := by
  unfold parse
  simp only
  split
  · rename_i u cache hget
    exact lookup_get? hget key
  · refine (lookup_remember ..).trans ?_
    rw [parseText_key]

theorem unit_parse_of_lookup {h : ParserHost} {env : Surroundings} {file text : String} {u : ParsedUnit}
    (hu : h.cache.entries.lookup (contentKey env.contentHash text.toUTF8 file) = some u) (files : Listing) :
    (h.parse env files file text).unit = u := by
  simp only [parse, get?, hu]

/-! ## Requests with one key -/

namespace Request

/-- Whether a request is another one with the end of its text moved into the file. -/
def Shifted (r s : Request) : Prop := Moved r.text.toUTF8 r.file s.text.toUTF8 s.file

theorem keyBytes_eq_iff {r s : Request} : r.keyBytes = s.keyBytes ↔ r = s ∨ r.Shifted s ∨ s.Shifted r := by
  rw [keyBytes, keyBytes, contentKeyBytes_eq_iff]
  refine or_congr_left ?_
  constructor
  · rintro ⟨htext, hfile⟩
    obtain ⟨rfile, rtext⟩ := r
    obtain ⟨sfile, stext⟩ := s
    exact congrArg₂ Request.mk hfile (String.toByteArray_inj.1 htext)
  · rintro rfl
    exact ⟨rfl, rfl⟩

theorem plainUnit_file (env : Surroundings) (limit : Nat) (r : Request) : (r.plainUnit env limit).file = r.file := by
  unfold plainUnit parseText
  split
  · rfl
  · rfl

theorem Shifted.plainUnit_ne {env : Surroundings} {limit : Nat} {r s : Request} (h : r.Shifted s) :
    r.plainUnit env limit ≠ s.plainUnit env limit := by
  intro heq
  have hfile := congrArg ParsedUnit.file heq
  rw [plainUnit_file, plainUnit_file] at hfile
  exact h.ne hfile

theorem key_eq_iff {env : Surroundings} {known : Set Request} {r s : Request}
    (hhash : Set.InjOn env.contentHash (Request.keyBytes '' known)) (hr : r ∈ known) (hs : s ∈ known) :
    r.key env = s.key env ↔ r = s ∨ r.Shifted s ∨ s.Shifted r := by
  rw [← keyBytes_eq_iff]
  exact ⟨fun h => hhash ⟨r, hr, rfl⟩ ⟨s, hs, rfl⟩ h, fun h => congrArg env.contentHash h⟩

end Request

/-! ## Hosts that know keys only -/

section

variable {env : Surroundings} {directory : Location} {limit : Nat} {files : Listing} {known : Set Request}
  {c : ParseCache} {r : Request}

/-- A cache over a directory, with units of known requests under their keys. -/
structure Keyed (env : Surroundings) (directory : Location) (limit : Nat) (known : Set Request) (c : ParseCache) : Prop where
  directory_eq : c.directory = some directory
  entries : ∀ e ∈ c.entries, ∃ r ∈ known, e = (r.key env, r.plainUnit env limit)

theorem Keyed.remember (h : Keyed env directory limit known c) (hr : r ∈ known) :
    Keyed env directory limit known (c.remember (r.key env) (r.plainUnit env limit)) :=
  ⟨h.directory_eq, forall_mem_remember h.entries ⟨r, hr, rfl⟩⟩

theorem Keyed.get? (h : Keyed env directory limit known c) (harchives : Archived env directory files (Known env limit known))
    {key : String} {u : ParsedUnit} {c' : ParseCache} (hget : c.get? env files key = some (u, c')) :
    Keyed env directory limit known c' := by
  obtain ⟨-, rfl⟩ | ⟨-, hload, rfl⟩ := get?_cases hget
  · exact h
  · obtain ⟨⟨s, hs, rfl⟩, hkey⟩ := harchives.load? h.directory_eq hload
    rw [← hkey, Request.key_plainUnit]
    exact h.remember hs

/-- A host whose memory holds units of known requests under their keys, and each of its answers under the key of what
it was asked for. -/
structure Attended.Keyed (env : Surroundings) (directory : Location) (limit : Nat) (known : Set Request)
    (a : Attended) : Prop where
  limit_eq : a.host.recoveryLimit = limit
  cache : ParserHost.Keyed env directory limit known a.host.cache
  answers : ∀ q ∈ a.asked, a.host.cache.entries.lookup (q.request.key env) = some q.unit

theorem keyed_fresh : Attended.Keyed env directory limit known ⟨.fresh (.fresh (some directory)) limit, []⟩ :=
  ⟨rfl, ⟨rfl, by simp [fresh, ParseCache.fresh]⟩, by simp⟩

theorem Attended.Keyed.unit_eq {a : Attended} (h : a.Keyed env directory limit known) {q : Asked} (hq : q ∈ a.asked) :
    ∃ r ∈ known, r.key env = q.request.key env ∧ q.unit = r.plainUnit env limit := by
  obtain ⟨r, hr, heq⟩ := h.cache.entries (q.request.key env, q.unit) (mem_entries_of_lookup (h.answers q hq))
  obtain ⟨hkey, hunit⟩ := Prod.mk.inj heq
  exact ⟨r, hr, hkey.symm, hunit⟩

/-- What has one key is answered with one unit. -/
theorem Attended.Keyed.agree {a : Attended} (h : a.Keyed env directory limit known) {q q' : Asked} (hq : q ∈ a.asked)
    (hq' : q' ∈ a.asked) (hkey : q.request.key env = q'.request.key env) : q.unit = q'.unit := by
  have hfirst := h.answers q hq
  rw [hkey, h.answers q' hq'] at hfirst
  exact (Option.some.inj hfirst).symm

theorem Attended.Keyed.asking {a : Attended} (h : a.Keyed env directory limit known)
    (harchives : Archived env directory files (Known env limit known)) (hr : r ∈ known)
    (hreads : env.archives.decode (env.archives.encode (r.plainUnit env limit)) = some (r.plainUnit env limit)) :
    (a.asking env files r (a.host.parse env files r.file r.text)).Keyed env directory limit known ∧
      Archived env directory (a.host.parse env files r.file r.text).files (Known env limit known) := by
  have hstep : (a.host.parse env files r.file r.text).host.recoveryLimit = limit ∧
      ParserHost.Keyed env directory limit known (a.host.parse env files r.file r.text).host.cache ∧
      Archived env directory (a.host.parse env files r.file r.text).files (Known env limit known) := by
    obtain ⟨rfl, hcache, -⟩ := h
    unfold ParserHost.parse
    simp only
    split
    · rename_i u cache hget
      exact ⟨rfl, hcache.get? harchives hget, harchives⟩
    · have hstored := hcache.remember hr
      rw [← r.key_plainUnit] at hstored
      exact ⟨rfl, hstored, harchives.store hcache.directory_eq ⟨r, hr, rfl⟩ hreads⟩
  refine ⟨⟨hstep.1, hstep.2.1, fun q hq => ?_⟩, hstep.2.2⟩
  rw [Attended.asking, lookup_parse]
  rcases List.mem_append.1 hq with hq | hq
  · have hkept := h.answers q hq
    split
    · rename_i hkey
      rw [hkey] at hkept
      rw [unit_parse_of_lookup hkept]
    · exact hkept
  · rw [List.mem_singleton.1 hq]
    exact if_pos rfl

/-! ## Runs of hosts that know keys only -/

/-- Archives that hold units of known requests, and hosts that know keys only. -/
def Shared.Keyed (env : Surroundings) (directory : Location) (limit : Nat) (known : Set Request) (d : Shared) : Prop :=
  Archived env directory d.files (Known env limit known) ∧ ∀ a ∈ d.hosts, a.Keyed env directory limit known

theorem Shared.Keyed.asking {d : Shared} {i : Nat} {a : Attended} (h : d.Keyed env directory limit known)
    (hi : d.hosts[i]? = some a) (hr : r ∈ known)
    (hreads : env.archives.decode (env.archives.encode (r.plainUnit env limit)) = some (r.plainUnit env limit)) :
    Shared.Keyed env directory limit known ⟨(a.host.parse env d.files r.file r.text).files,
      d.hosts.set i (a.asking env d.files r (a.host.parse env d.files r.file r.text))⟩ := by
  obtain ⟨hkeyed, harchives⟩ := (h.2 a (List.mem_of_getElem? hi)).asking h.1 hr hreads
  refine ⟨harchives, fun b hb => ?_⟩
  rcases List.mem_or_eq_of_mem_set hb with hb | rfl
  · exact h.2 b hb
  · exact hkeyed

/-- What a step keeps, whether keys collide or not. -/
theorem Step.keyed {x y : Shared} (hs : Step env directory limit x y) (h : x.Keyed env directory limit known)
    (hreads : ∀ r ∈ known,
      env.archives.decode (env.archives.encode (r.plainUnit env limit)) = some (r.plainUnit env limit))
    (hknown : y.requests ⊆ known) : y.Keyed env directory limit known := by
  cases hs with
  | reopen hopen =>
    obtain ⟨harchives, rfl⟩ := h.1.openAt hopen
    refine ⟨harchives, fun a ha => ?_⟩
    rcases List.mem_append.1 ha with ha | ha
    · exact h.2 a ha
    · rw [List.mem_singleton.1 ha]
      exact keyed_fresh
  | parse hi r =>
    have hr : r ∈ known := hknown (mem_requests_asking hi (.inr rfl))
    exact h.asking hi hr (hreads r hr)
  | @parseFile i a hi root file bytes hfile p hp =>
    obtain rfl := parseFile_eq hfile hp
    have hr : ⟨file, Text.decodeLossy bytes⟩ ∈ known := hknown (mem_requests_asking hi (.inr rfl))
    exact h.asking (r := ⟨file, Text.decodeLossy bytes⟩) hi hr (hreads _ hr)
  | damage hd => exact ⟨h.1.damaged hd, h.2⟩

theorem keyed_of_run {x y : Shared} (hrun : Relation.ReflTransGen (Step env directory limit) x y)
    (hx : x.Keyed env directory limit known)
    (hreads : ∀ r ∈ known,
      env.archives.decode (env.archives.encode (r.plainUnit env limit)) = some (r.plainUnit env limit))
    (hknown : y.requests ⊆ known) : y.Keyed env directory limit known := by
  induction hrun with
  | refl => exact hx
  | tail _ hstep ih => exact hstep.keyed (ih (hstep.requests_subset.trans hknown)) hreads hknown

/-- How far keys separate inputs. Two inputs have the same bytes exactly if they are the same or one is the other with the
end of its content moved into the identity, so that bytes tell apart what has no zero character in its identity. Behind a
run without collisions of the hash, each answer of a host is the unit of what was asked for or of a request that is it but
for such a move; and what differs by a move has one answer, so that one of the two has the unit of another request. The
first files have no archive that can be read, and what is written for the requests of the run reads back. -/
theorem answers_of_run {d : Shared} (hfirst : Archived env directory files fun _ => False)
    (hrun : Relation.ReflTransGen (Step env directory limit) ⟨files, []⟩ d)
    (hhash : Set.InjOn env.contentHash (Request.keyBytes '' d.requests))
    (hreads : ∀ r ∈ d.requests,
      env.archives.decode (env.archives.encode (r.plainUnit env limit)) = some (r.plainUnit env limit)) :
    (∀ (content content' : ByteArray) (identity identity' : String),
      (contentKeyBytes content identity toolVersion = contentKeyBytes content' identity' toolVersion ↔
        content = content' ∧ identity = identity' ∨
          Moved content identity content' identity' ∨ Moved content' identity' content identity) ∧
      ('\x00' ∉ identity.toList → '\x00' ∉ identity'.toList →
        (contentKeyBytes content identity toolVersion = contentKeyBytes content' identity' toolVersion ↔
          content = content' ∧ identity = identity'))) ∧
    ∀ a ∈ d.hosts, ∀ q ∈ a.asked,
      (∃ r ∈ d.requests, q.unit = r.plainUnit env limit ∧
        (r = q.request ∨ r.Shifted q.request ∨ q.request.Shifted r)) ∧
      ((∀ r ∈ d.requests, ¬r.Shifted q.request ∧ ¬q.request.Shifted r) → q.unit = q.request.plainUnit env limit) ∧
      ∀ q' ∈ a.asked, q.request.Shifted q'.request → q.unit = q'.unit ∧
        (q.unit ≠ q.request.plainUnit env limit ∨ q'.unit ≠ q'.request.plainUnit env limit) := by
  refine ⟨fun content content' identity identity' =>
    ⟨contentKeyBytes_eq_iff toolVersion, contentKeyBytes_eq_iff_of_notMem toolVersion⟩, fun a ha q hq => ?_⟩
  have hstart : Shared.Keyed env directory limit d.requests ⟨files, []⟩ :=
    ⟨fun key bytes u hb hu => (hfirst key bytes u hb hu).elim, by simp⟩
  have hkeyed := (keyed_of_run hrun hstart hreads subset_rfl).2 a ha
  have hmem : ∀ q ∈ a.asked, q.request ∈ d.requests := fun q hq => ⟨a, ha, q, hq, rfl⟩
  obtain ⟨r, hr, hkey, hunit⟩ := hkeyed.unit_eq hq
  have hsame := (Request.key_eq_iff hhash hr (hmem q hq)).1 hkey
  refine ⟨⟨r, hr, hunit, hsame⟩, fun halone => ?_, fun q' hq' hshifted => ?_⟩
  · obtain rfl := hsame.resolve_right (not_or_intro (halone r hr).1 (halone r hr).2)
    exact hunit
  · have hagree : q.unit = q'.unit :=
      hkeyed.agree hq hq' ((Request.key_eq_iff hhash (hmem q hq) (hmem q' hq')).2 (.inr (.inl hshifted)))
    exact ⟨hagree, not_and_or.1 fun ⟨hown, hown'⟩ => hshifted.plainUnit_ne (hown.symm.trans (hagree.trans hown'))⟩

/-! ## A text that is served for another -/

def parted : Request := ⟨"b", "x\x00a"⟩

/-- The request before with the end of its text moved into the file. -/
def joined : Request := ⟨"a\x00b", "x"⟩

/-- A host over a new directory, asked for both. -/
def bothTexts : Shared := (((⟨.empty, []⟩ : Shared).reopened).asking spelling 0 joined).asking spelling 0 parted

theorem shifted_joined : joined.Shifted parted := ⟨"a", by decide, by decide⟩

/-- The unit of a refused text with one issue reads back. -/
theorem refused_reads {r : Request} {limit : Nat} (message source : String) (size : Nat) (truncated : Bool)
    (hsize : size < 2 ^ 64)
    (hunit : r.plainUnit spelling limit =
      ⟨r.file, r.key spelling, none, source, #[], [⟨message, 1, 0⟩], some ⟨message, 1, 0, size, truncated⟩⟩) :
    spelling.archives.decode (spelling.archives.encode (r.plainUnit spelling limit)) =
      some (r.plainUnit spelling limit) := by
  refine ArchiveFormat.json_decode_encode ?_
  rw [hunit]
  simpa [ArchiveFormat.unitJson, ArchiveFormat.issueJson, ArchiveFormat.recoveryJson, Json.optional, Json.Exact,
    Json.ExactItems] using hsize

theorem spelling_reads {r : Request} (message : String) (size : Nat) (hsize : size < 2 ^ 64)
    (hunit : r.plainUnit spelling 16 =
      ⟨r.file, r.key spelling, none, r.text, #[], [⟨message, 1, 0⟩], some ⟨message, 1, 0, size, false⟩⟩) :
    spelling.archives.decode (spelling.archives.encode (r.plainUnit spelling 16)) = some (r.plainUnit spelling 16) :=
  refused_reads message r.text size false hsize hunit

theorem bothTexts_answers :
    Archived spelling ["cache"] .empty (fun _ => False) ∧
      Relation.ReflTransGen (Step spelling ["cache"] 16) ⟨.empty, []⟩ bothTexts ∧
      Set.InjOn spelling.contentHash (Request.keyBytes '' bothTexts.requests) ∧
      (∀ r ∈ bothTexts.requests,
        spelling.archives.decode (spelling.archives.encode (r.plainUnit spelling 16)) = some (r.plainUnit spelling 16)) ∧
      bothTexts.hosts.map (fun a => a.asked.map (·.request)) = [[joined, parted]] ∧
      ∀ a ∈ bothTexts.hosts, ∀ q ∈ a.asked, q.unit = joined.plainUnit spelling 16 := by
  have hfirst : Archived spelling ["cache"] .empty fun _ => False := archived_empty
  have hrun : Relation.ReflTransGen (Step spelling ["cache"] 16) ⟨.empty, []⟩ bothTexts :=
    .head (.reopened (by decide)) <| .head (.asking (by decide) _) <| .single (.asking (by decide) _)
  have hrequests : ∀ r ∈ bothTexts.requests, r = joined ∨ r = parted := by
    rintro r ⟨a, ha, q, hq, rfl⟩
    have hall : bothTexts.hosts.all (fun a => a.asked.all fun q => q.request = joined ∨ q.request = parted) = true := by
      decide
    simpa using List.all_eq_true.1 (List.all_eq_true.1 hall a ha) q hq
  have hbytes : joined.keyBytes = parted.keyBytes := Request.keyBytes_eq_iff.2 (.inr (.inl shifted_joined))
  have hhash : Set.InjOn spelling.contentHash (Request.keyBytes '' bothTexts.requests) := by
    rintro b ⟨r, hr, rfl⟩ c ⟨s, hs, rfl⟩ -
    rcases hrequests r hr with rfl | rfl <;> rcases hrequests s hs with rfl | rfl
    · rfl
    · exact hbytes
    · exact hbytes.symm
    · rfl
  have hreads : ∀ r ∈ bothTexts.requests,
      spelling.archives.decode (spelling.archives.encode (r.plainUnit spelling 16)) = some (r.plainUnit spelling 16) := by
    intro r hr
    rcases hrequests r hr with rfl | rfl
    · exact spelling_reads "unexpected `x`" 1 (by decide) (by decide +kernel)
    · exact spelling_reads "unexpected `x\x00a`" 3 (by decide) (by decide +kernel)
  refine ⟨hfirst, hrun, hhash, hreads, by decide, fun a ha q hq => ?_⟩
  obtain ⟨r, hr, hunit, -⟩ := ((answers_of_run hfirst hrun hhash hreads).2 a ha q hq).1
  have hall : bothTexts.hosts.all (fun a => a.asked.all fun q => q.unit.file = joined.file) = true := by decide
  have hfile : q.unit.file = joined.file := by simpa using List.all_eq_true.1 (List.all_eq_true.1 hall a ha) q hq
  rw [hunit, Request.plainUnit_file] at hfile
  rcases hrequests r hr with rfl | rfl
  · exact hunit
  · exact absurd hfile (by decide)

end

end ParserHost

end TreeRepair
