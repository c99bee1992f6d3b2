import TreeRepair.Proofs.Ledger.Append
import TreeRepair.Proofs.Ledger.Chain
import TreeRepair.Proofs.Snapshot.Emergency
import TreeRepair.Proofs.Text.Lines

/-! A ledger that is kept in a file and opened anew now and then. The file holds one line a record, and
the lines are read back whatever texts the records hold. -/

set_option autoImplicit false

namespace TreeRepair.ProofLedger

open Location Listing

/-! ## Lines -/

/-- The bytes of a file with a line for each record. -/
def storedBytes (rs : List ProofRecord) : List UInt8 :=
  (rs.map fun r => r.line.toUTF8.data.toList).flatMap (· ++ [10])

theorem exists_line_eq (r : ProofRecord) : ∃ cs, r.line.toList = '\x7b' :: cs :=
  ⟨_, by rw [ProofRecord.line, Json.compact, String.toList_ofList, ProofRecord.toJson, Json.compactChars_object]⟩

theorem line_append_end (r : ProofRecord) :
    (r.line ++ "\n").toUTF8.data.toList = r.line.toUTF8.data.toList ++ [10] := by
  have hend : "\n".toByteArray.data.toList = [10] := rfl
  simp [hend]

theorem storedBytes_concat (rs : List ProofRecord) (r : ProofRecord) :
    storedBytes (rs ++ [r]) = storedBytes rs ++ (r.line ++ "\n").toUTF8.data.toList := by
  rw [line_append_end, storedBytes, storedBytes, List.map_append, List.flatMap_append]
  simp

theorem readLines_cons {r : ProofRecord} (h : r.Storable) (n : Nat) (rest : List (List UInt8)) :
    readLines n (r.line.toUTF8.data.toList :: rest) = (readLines (n + 1) rest).map (r :: ·) := by
  have hbytes : r.line.toUTF8.data.toList.toByteArray = r.line.toUTF8 :=
    ByteArray.ext (by rw [List.data_toByteArray])
  obtain ⟨cs, hcs⟩ := exists_line_eq r
  have htext : (Text.trim r.line.toList).isEmpty = false := by
    rw [hcs, List.isEmpty_eq_false_iff]
    exact Text.trim_ne_nil (by decide) cs
  rw [readLines, hbytes, Text.fromUTF8?_toUTF8]
  simp only [htext, Bool.false_eq_true, if_false, ProofRecord.ofLine?_line h]

theorem readLines_map {rs : List ProofRecord} (h : ∀ r ∈ rs, r.Storable) (n : Nat) :
    readLines n (rs.map fun r => r.line.toUTF8.data.toList) = .ok rs := by
  induction rs generalizing n with
  | nil => rfl
  | cons r rest ih =>
    rw [List.map_cons, readLines_cons (h r (List.mem_cons_self ..)), ih fun s hs => h s (List.mem_cons_of_mem r hs)]
    rfl

theorem readRecords_storedBytes {rs : List ProofRecord} (h : ∀ r ∈ rs, r.Storable) {bytes : ByteArray}
    (hb : bytes.data.toList = storedBytes rs) : readRecords bytes = .ok rs := by
  have hlines : ∀ b : UInt8, b.toNat < 32 → ∀ l ∈ rs.map (fun r => r.line.toUTF8.data.toList), b ∉ l := by
    intro b hb l hl
    obtain ⟨r, hr, rfl⟩ := List.mem_map.1 hl
    exact (h r hr).notMem_line hb
  rw [readRecords, fileLines, hb, storedBytes, Text.cutAt_flatMap (hlines 10 (by decide)),
    Text.closeLines_concat (hlines 13 (by decide)), readLines_map h]

/-! ## Appending to the file -/

section Store

variable {env : Surroundings} {place : Location} {t : Listing} {l : ProofLedger} {r : ProofRecord}

/-- What a ledger and its file have in common: the file holds a line for each record, or it is missing
and there is none. -/
structure Stored (hash : HashFunction) (place : Location) (t : Listing) (l : ProofLedger) : Prop where
  file : l.file = some place
  storable : ∀ r ∈ l.records, r.Storable
  chained : Chained hash genesisHash l.records
  content : t.shapeAt? place.settled = none ∧ l.records = [] ∨
    ∃ bytes, t.read place = .ok bytes ∧ bytes.data.toList = storedBytes l.records

theorem Stored.open?_eq (h : Stored env.contentHash place t l) : open? t place = .ok l := by
  obtain ⟨records, file⟩ := l
  obtain rfl : file = some place := h.file
  rcases h.content with ⟨hnone, rfl⟩ | ⟨bytes, hread, hbytes⟩
  · have hthere : t.isThere place = false := by
      rw [Bool.eq_false_iff]
      exact fun hthere => (isThere_eq_true.1 hthere).2 hnone
    rw [open?, hthere]
    rfl
  · have hthere : t.isThere place = true := by
      obtain ⟨hlead, hfile⟩ := read_eq_ok.1 hread
      exact isThere_eq_true.2 ⟨hlead, by simp [hfile]⟩
    rw [open?, hthere, if_pos rfl, hread]
    simp only [readRecords_storedBytes h.storable hbytes]
    rfl

/-- The file can take a line at its end. -/
def Takes (place : Location) (t : Listing) (r : ProofRecord) : Prop :=
  ∃ made written, t.createDirs place.parent = (.ok (), made) ∧
    made.append place (r.line ++ "\n").toUTF8 = .ok written

theorem read_persist (hfile : l.file = some place) (ht : Takes place t r) {bytes : ByteArray}
    (hold : t.shapeAt? place.settled = none ∧ bytes = .empty ∨ t.read place = .ok bytes) :
    (l.persist t r).read place = .ok (bytes ++ (r.line ++ "\n").toUTF8) := by
  obtain ⟨made, written, hmade, hwritten⟩ := ht
  have hpersist : l.persist t r = written := by simp only [persist, hfile, hmade, hwritten]
  obtain ⟨hlead, -, hdir, -⟩ := write_eq_ok hwritten
  have hfile : ∀ q c, made.shapeAt? q = some (.file c) ↔ t.shapeAt? q = some (.file c) := by
    intro q c
    rw [← shapeAt?_createDirs_file (t := t) (l := place.parent), hmade]
  -- making the directories above leaves what the file held
  have hsame : (made.read place).toOption.getD .empty = bytes := by
    rcases hold with ⟨hnone, rfl⟩ | hread
    · have hno : ∀ c, made.read place ≠ .ok c := by
        intro c hc
        have := (hfile _ _).1 (read_eq_ok.1 hc).2
        rw [hnone] at this
        cases this
      cases hm : made.read place with
      | error fault => rfl
      | ok c => exact absurd hm (hno c)
    · have hm : made.read place = .ok bytes := read_eq_ok.2 ⟨hlead, (hfile _ _).2 (read_eq_ok.1 hread).2⟩
      rw [hm]
      rfl
  have hshape := shapeAt?_write hwritten
  rw [hsame] at hshape
  rw [hpersist]
  refine read_eq_ok.2 ⟨hlead.mono fun q hq => ?_, by rw [hshape, if_pos rfl]⟩
  rw [hshape, if_neg, hq]
  rintro rfl
  exact hdir hq

theorem Stored.read_persist (h : Stored env.contentHash place t l) (ht : Takes place t r) :
    ∃ bytes, (l.persist t r).read place = .ok bytes ∧ bytes.data.toList = storedBytes (l.records ++ [r]) := by
  obtain ⟨bytes, hold, hbytes⟩ : ∃ bytes, (t.shapeAt? place.settled = none ∧ bytes = .empty ∨ t.read place = .ok bytes) ∧
      bytes.data.toList = storedBytes l.records := by
    rcases h.content with ⟨hnone, hnil⟩ | ⟨bytes, hread, hbytes⟩
    · exact ⟨.empty, .inl ⟨hnone, rfl⟩, by rw [hnil]; rfl⟩
    · exact ⟨bytes, .inr hread, hbytes⟩
  refine ⟨_, ProofLedger.read_persist h.file ht hold, ?_⟩
  rw [storedBytes_concat, ByteArray.data_append, Array.toList_append, hbytes]

end Store

/-! ## Calls on a ledger -/

/-- A call on a ledger that is kept in a file: an append, or opening the file anew. -/
inductive Call where
  | append (rule context : String) (verdict : Verdict) (duration : Nat)
  | reopen

/-- A ledger, the world that it is in, and the records that appends have given. -/
structure Course where
  ledger : ProofLedger
  world : World
  given : List ProofRecord

/-- The course after a call. -/
def Course.call (env : Surroundings) (place : Location) (s : Course) : Call → Except Error Course
  | .append rule context verdict duration =>
    let a := s.ledger.append env s.world rule context verdict duration
    .ok ⟨a.ledger, a.world, s.given ++ [a.entry]⟩
  | .reopen => (open? s.world.files place).map fun l => ⟨l, s.world, s.given⟩

/-- The course after calls. -/
def Course.calls (env : Surroundings) (place : Location) (s : Course) : List Call → Except Error Course
  | [] => .ok s
  | c :: rest =>
    match s.call env place c with
    | .error e => .error e
    | .ok s' => s'.calls env place rest

/-- The file takes the line of the record that a call appends, and the record's numbers have 64 bits. -/
def Course.Takes (env : Surroundings) (place : Location) (s : Course) : Call → Prop
  | .append rule context verdict duration =>
    let r := (s.ledger.append env s.world rule context verdict duration).entry
    r.Storable ∧ ProofLedger.Takes place s.world.files r
  | .reopen => True

/-- The file takes the lines of all calls. -/
def Course.TakesAll (env : Surroundings) (place : Location) (s : Course) : List Call → Prop
  | [] => True
  | c :: rest => s.Takes env place c ∧ ∀ s', s.call env place c = .ok s' → s'.TakesAll env place rest

section Course

variable {env : Surroundings} {place : Location} {s : Course}

/-- A course whose ledger is what the appends have given, in memory and in the file. -/
structure Course.Kept (env : Surroundings) (place : Location) (s : Course) : Prop where
  stored : Stored env.contentHash place s.world.files s.ledger
  given : s.ledger.records = s.given

/-- A call gives a course, and it is kept. -/
theorem Course.Kept.call (h : s.Kept env place) {c : Call} (ht : s.Takes env place c) :
    ∃ s', s.call env place c = .ok s' ∧ s'.Kept env place := by
  cases c with
  | append rule context verdict duration =>
    refine ⟨_, rfl, ?_, ?_⟩
    · refine ⟨h.stored.file, ?_, chained_push h.stored.chained .., .inr (h.stored.read_persist ht.2)⟩
      intro r hr
      rcases List.mem_append.1 hr with hr | hr
      · exact h.stored.storable r hr
      · rw [List.mem_singleton.1 hr]
        exact ht.1
    · exact congrArg (· ++ [_]) h.given
  | reopen =>
    refine ⟨s, ?_, h⟩
    rw [Course.call, h.stored.open?_eq]
    rfl

/-- Calls give a course, and it is kept. -/
theorem Course.Kept.calls (h : s.Kept env place) {cs : List Call} (ht : s.TakesAll env place cs) :
    ∃ s', s.calls env place cs = .ok s' ∧ s'.Kept env place := by
  induction cs generalizing s with
  | nil => exact ⟨s, rfl, h⟩
  | cons c rest ih =>
    obtain ⟨s', hcall, hkept⟩ := h.call ht.1
    obtain ⟨s'', hcalls, hkept'⟩ := ih hkept (ht.2 s' hcall)
    refine ⟨s'', ?_, hkept'⟩
    rw [Course.calls, hcall]
    exact hcalls

/-- Whatever is appended to a ledger with a new file, and however often the file is opened anew in
between: memory and file agree on the records that the appends have given, in order, and these hold
together. -/
theorem calls_persist {w : World} {cs : List Call} (hnew : w.files.shapeAt? place.settled = none)
    (ht : ∀ l, open? w.files place = .ok l → Course.TakesAll env place ⟨l, w, []⟩ cs) :
    ∃ l s, open? w.files place = .ok l ∧ Course.calls env place ⟨l, w, []⟩ cs = .ok s ∧
      s.ledger.records = s.given ∧ open? s.world.files place = .ok ⟨s.given, some place⟩ ∧
      s.ledger.checkChain env.contentHash = .ok s.given.length := by
  have hstored : Stored env.contentHash place w.files ⟨[], some place⟩ :=
    ⟨rfl, by simp, trivial, .inl ⟨hnew, rfl⟩⟩
  have hkept : Course.Kept env place ⟨⟨[], some place⟩, w, []⟩ := ⟨hstored, rfl⟩
  obtain ⟨s, hcalls, hkept'⟩ := hkept.calls (ht _ hstored.open?_eq)
  refine ⟨_, s, hstored.open?_eq, hcalls, hkept'.given, ?_, ?_⟩
  · rw [hkept'.stored.open?_eq, ← hkept'.given, ← hkept'.stored.file]
  · rw [checkChain_of_chained hkept'.stored.chained, hkept'.given]

theorem Course.Kept.takesAll {cs : List Call} (h : s.Kept env place)
    (ht : ∀ s' : Course, s'.Kept env place → ∀ c ∈ cs, s'.Takes env place c) : s.TakesAll env place cs := by
  induction cs generalizing s with
  | nil => trivial
  | cons c rest ih =>
    have htakes := ht s h c (List.mem_cons_self ..)
    refine ⟨htakes, fun s' hcall => ?_⟩
    obtain ⟨s'', hcall', hkept⟩ := h.call htakes
    obtain rfl : s'' = s' := Except.ok.inj (hcall'.symm.trans hcall)
    exact ih hkept fun s₁ h₁ d hd => ht s₁ h₁ d (List.mem_cons_of_mem c hd)

theorem append_storable {w : World} {l : ProofLedger} (rule context : String) {verdict : Verdict} {duration : Nat}
    (hb : verdict.errorsBefore < 2 ^ 64) (ha : verdict.errorsAfter < 2 ^ 64) (ht : w.now env < 2 ^ 64)
    (hd : duration < 2 ^ 64) : (l.append env w rule context verdict duration).entry.Storable :=
  ⟨hb, ha, ht, hd⟩

theorem takes_root {n : String} {t : Listing} (hn : GoesDown n) (hc : checkPath [n] = .ok ())
    (hs : n.utf8ByteSize ≤ nameLimit) (hnodir : t.shapeAt? (settled [n]) ≠ some .dir) (r : ProofRecord) :
    Takes [n] t r := by
  have hparent : parent [n] = [] := by
    rw [parent, Key.components_of_goesDown (by simpa using hn)]
    rfl
  have hroot : t.isDir (parent [n]) = true := by
    rw [hparent]
    exact isDir_eq_true.2 ⟨⟨rfl, trivial⟩, rfl⟩
  have hlead : t.Leads [n] := by
    refine ⟨hc, rfl, ?_⟩
    rw [hn.1, if_neg (by simp), if_neg hn.2]
    exact ⟨hs, trivial⟩
  refine ⟨t, _, createDirs_of_isDir hroot, write_of_leads hlead ?_ hnodir _⟩
  rintro heq
  obtain rfl : n = "" := by simpa using heq
  exact absurd hn.1 (by decide)

theorem Course.Kept.not_dir (h : s.Kept env place) : s.world.files.shapeAt? place.settled ≠ some .dir := by
  rcases h.stored.content with ⟨hnone, -⟩ | ⟨bytes, hread, -⟩
  · simp [hnone]
  · simp [(read_eq_ok.1 hread).2]

/-- Two appends with line feeds, quotation marks and control characters in their texts, and the file opened
anew behind each. -/
def twoCalls : List Call :=
  [.append "rule\n" "a \"b\".js" ⟨.strayText, true, true, false, true, false, 1, 0, "one\r\ntwo\t"⟩ 3, .reopen,
    .append "\x7frule\\" "ü\n" ⟨.renderBinding, false, true, true, false, false, 2, 2, "\x00"⟩ 0, .reopen]

theorem twoCalls_persist :
    ∃ l s, open? .empty ["ledger.jsonl"] = .ok l ∧
      Course.calls SnapshotStore.still ["ledger.jsonl"] ⟨l, ⟨.empty, 0, 0⟩, []⟩ twoCalls = .ok s ∧
      s.ledger.records = s.given ∧ open? s.world.files ["ledger.jsonl"] = .ok ⟨s.given, some ["ledger.jsonl"]⟩ ∧
      s.ledger.checkChain SnapshotStore.still.contentHash = .ok s.given.length := by
  refine calls_persist (w := ⟨.empty, 0, 0⟩) rfl fun l hl => ?_
  obtain rfl : ⟨[], some ["ledger.jsonl"]⟩ = l := Except.ok.inj hl
  have hkept : Course.Kept SnapshotStore.still ["ledger.jsonl"] ⟨⟨[], some ["ledger.jsonl"]⟩, ⟨.empty, 0, 0⟩, []⟩ :=
    ⟨⟨rfl, by simp, trivial, .inl ⟨rfl, rfl⟩⟩, rfl⟩
  refine hkept.takesAll fun (s : Course) hs c hc => ?_
  have htakes := takes_root ⟨by decide, by decide⟩ (by decide) (by decide) hs.not_dir
  simp only [twoCalls, List.mem_cons, List.not_mem_nil, or_false] at hc
  have hclock : s.world.now SnapshotStore.still < 2 ^ 64 := (by decide : 1700000000000 < 2 ^ 64)
  rcases hc with rfl | rfl | rfl | rfl
  · exact ⟨append_storable _ _ (by decide) (by decide) hclock (by decide), htakes _⟩
  · trivial
  · exact ⟨append_storable _ _ (by decide) (by decide) hclock (by decide), htakes _⟩
  · trivial

end Course

end TreeRepair.ProofLedger
