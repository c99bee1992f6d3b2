import TreeRepair.Proofs.Json.Extension
import TreeRepair.Proofs.Ledger.History

/-! Appending to a file that need not have been written record by record: lines may end with a carriage return,
blank lines may stand in between, and the last line may lack its end. The new record comes back if only blanks
follow the last line feed. Otherwise it ends up on the line of another record, and the file no longer opens. -/

set_option autoImplicit false

namespace TreeRepair.ProofLedger

open Location Listing

/-! ## Lines -/

/-- What a file holds behind its last line feed. -/
def lastLine (bytes : ByteArray) : List UInt8 := (Text.cutAt 10 bytes.data.toList).getLastD []

/-- Behind the last line feed there are only blanks of the format, so that a record can follow. -/
def Ended (bytes : ByteArray) : Prop :=
  ∃ cs, Json.Blank cs ∧ lastLine bytes = (String.ofList cs).toUTF8.data.toList

theorem readLines_append (n : Nat) (a b : List (List UInt8)) :
    readLines n (a ++ b) = (readLines n a).bind fun rs => (readLines (n + a.length) b).map (rs ++ ·) := by
  induction a generalizing n with
  | nil =>
    cases hb : readLines n b <;> simp [readLines, Except.bind, Except.map, hb]
  | cons line rest ih =>
    have hlen : n + (line :: rest).length = n + 1 + rest.length := by simp [Nat.add_comm, Nat.add_left_comm]
    rw [List.cons_append, readLines, readLines, hlen, ih]
    split
    · rfl
    · split
      · rfl
      · split
        · rfl
        · cases readLines (n + 1) rest with
          | error e => rfl
          | ok rs => cases readLines (n + 1 + rest.length) b <;> rfl

section Append

variable {bytes : ByteArray} {ls : List (List UInt8)} {t : List UInt8} {rs : List ProofRecord} {r : ProofRecord}

theorem exists_pieces (bytes : ByteArray) : ∃ ls, Text.cutAt 10 bytes.data.toList = ls ++ [lastLine bytes] := by
  refine ⟨(Text.cutAt 10 bytes.data.toList).dropLast, ?_⟩
  have hne := Text.cutAt_ne_nil 10 bytes.data.toList
  rw [lastLine, List.getLastD_eq_getLast?, List.getLast?_eq_some_getLast hne, Option.getD_some,
    List.dropLast_append_getLast hne]

theorem line_ne_nil (r : ProofRecord) : r.line.toUTF8.data.toList ≠ [] := by
  obtain ⟨cs, hcs⟩ := exists_line_eq r
  rw [← String.ofList_toList (s := r.line), hcs, Text.data_toUTF8_ofList, List.flatMap_cons]
  exact List.append_ne_nil_of_left_ne_nil (by decide) _

theorem fileLines_append (hr : r.Storable) (hb : Text.cutAt 10 bytes.data.toList = ls ++ [t]) :
    fileLines (bytes ++ (r.line ++ "\n").toUTF8) =
      ls.map (Text.dropMark 13) ++ [t ++ r.line.toUTF8.data.toList] := by
  have hline : Text.cutAt 10 (r.line.toUTF8.data.toList ++ [10]) = [r.line.toUTF8.data.toList, []] :=
    Text.cutAt_append (hr.notMem_line (by decide)) []
  rw [fileLines, ByteArray.data_append, Array.toList_append, line_append_end, Text.cutAt_append_cons hb hline, List.append_cons,
    Text.closeLines_append_singleton, if_pos rfl, List.append_nil, List.map_append, List.map_singleton,
    Text.dropMark_append (line_ne_nil r), Text.dropMark_of_notMem (hr.notMem_line (by decide))]

/-! ## The last line -/

theorem readLines_text (n : Nat) (text : String) :
    readLines n [text.toUTF8.data.toList] =
      if (Text.trim text.toList).isEmpty then .ok []
      else match ProofRecord.ofLine? text with
        | none => .error (.corrupt n)
        | some r => .ok [r] := by
  have hbytes : text.toUTF8.data.toList.toByteArray = text.toUTF8 := ByteArray.ext (by rw [List.data_toByteArray])
  rw [readLines, hbytes, Text.fromUTF8?_toUTF8]
  dsimp only
  split
  · rfl
  · cases ProofRecord.ofLine? text <;> rfl

theorem toUTF8_append (a b : String) :
    a.toUTF8.data.toList ++ b.toUTF8.data.toList = (a ++ b).toUTF8.data.toList := by
  simp

theorem trim_append_line (a : String) (r : ProofRecord) : (Text.trim (a ++ r.line).toList).isEmpty = false := by
  obtain ⟨cs, hcs⟩ := exists_line_eq r
  rw [Bool.eq_false_iff, ne_eq, List.isEmpty_iff]
  intro hnil
  have hblank := Text.trim_eq_nil_iff.1 hnil '\x7b' (by simp [String.toList_append, hcs])
  exact absurd hblank (by decide)

theorem readLines_of_ended (hr : r.Storable) {cs : List Char} (hcs : Json.Blank cs)
    (ht : t = (String.ofList cs).toUTF8.data.toList) (n : Nat) :
    readLines n (if t = [] then [] else [t]) = .ok [] ∧ readLines n [t ++ r.line.toUTF8.data.toList] = .ok [r] := by
  have hblank : ∀ c ∈ cs, Text.isBlank c = true := by
    intro c hc
    have hspace := hcs c hc
    simp only [Json.isSpace, Bool.or_eq_true, beq_iff_eq] at hspace
    rcases hspace with ((rfl | rfl) | rfl) | rfl <;> decide
  constructor
  · split
    · rfl
    · rw [ht, readLines_text, String.toList_ofList, Text.trim_eq_nil_iff.2 hblank]
      rfl
  · have hparse : Json.parse (String.ofList cs ++ r.line) = some r.toJson :=
      Json.parse_blank_append (by rwa [String.toList_ofList]) (Json.parse_compact hr.exact)
    rw [ht, toUTF8_append, readLines_text, trim_append_line]
    simp [ProofRecord.ofLine?, hparse, ProofRecord.ofJson?_toJson]

theorem readLines_of_not_ended {n : Nat} (h : readLines n (if t = [] then [] else [t]) = .ok rs)
    (hnot : ¬ ∃ cs, Json.Blank cs ∧ t = (String.ofList cs).toUTF8.data.toList) :
    t ≠ [] ∧ readLines n [t ++ r.line.toUTF8.data.toList] = .error (.corrupt n) := by
  have hne : t ≠ [] := by
    rintro rfl
    exact hnot ⟨[], by simp [Json.Blank], rfl⟩
  refine ⟨hne, ?_⟩
  rw [if_neg hne] at h
  obtain ⟨text, rfl⟩ : ∃ text : String, t = text.toUTF8.data.toList := by
    cases htext : String.fromUTF8? t.toByteArray with
    | none => simp [readLines, htext] at h
    | some text => exact ⟨text, by rw [Text.toUTF8_of_fromUTF8? htext, List.data_toByteArray]⟩
  obtain ⟨cs, hcs⟩ := exists_line_eq r
  have hnone : ProofRecord.ofLine? (text ++ r.line) = none := by
    rw [readLines_text] at h
    by_cases htrim : Text.trim text.toList = []
    · -- blanks, but one of them is not allowed in front of a value
      obtain ⟨c, cs', hc⟩ : ∃ c cs', Json.skipSpace text.toList = c :: cs' := by
        refine List.exists_cons_of_ne_nil fun hnil => hnot ⟨text.toList, ?_, by rw [String.ofList_toList]⟩
        exact List.dropWhile_eq_nil_iff.1 hnil
      have hmem : c ∈ text.toList := (List.dropWhile_sublist _).subset (hc ▸ List.mem_cons_self ..)
      rw [ProofRecord.ofLine?, Json.parse_eq_none_of_isBlank hc (Text.trim_eq_nil_iff.1 htrim c hmem), Option.bind_none]
    · rw [if_neg (by simpa using htrim)] at h
      cases hv : Json.parse text with
      | none => simp [ProofRecord.ofLine?, hv] at h
      | some v =>
        have hends : Json.EndsNumber r.line.toList := by
          rintro d ds heq
          rw [hcs] at heq
          obtain ⟨rfl, -⟩ := List.cons.inj heq
          decide
        rw [ProofRecord.ofLine?, Json.parse_append_eq_none hv hcs (by decide) hends, Option.bind_none]
  rw [toUTF8_append, readLines_text, trim_append_line, hnone]
  rfl

/-! ## The file -/

/-- A record behind the records of a file: it comes back with them if the last line has its end, and otherwise the
last line is corrupt. -/
theorem readRecords_append (hr : r.Storable) (h : readRecords bytes = .ok rs) :
    (Ended bytes → readRecords (bytes ++ (r.line ++ "\n").toUTF8) = .ok (rs ++ [r])) ∧
      (¬ Ended bytes → readRecords (bytes ++ (r.line ++ "\n").toUTF8) = .error (.corrupt (fileLines bytes).length)) := by
  obtain ⟨ls, hls⟩ := exists_pieces bytes
  rw [readRecords, fileLines, hls, Text.closeLines_append_singleton, readLines_append] at h
  rw [readRecords, fileLines_append hr hls, readLines_append, fileLines, hls, Text.closeLines_append_singleton]
  cases hfirst : readLines 1 (ls.map (Text.dropMark 13)) with
  | error e => simp [hfirst, Except.bind] at h
  | ok front =>
    rw [hfirst] at h
    simp only [Except.bind] at h ⊢
    constructor
    · rintro ⟨cs, hcs, ht⟩
      obtain ⟨hold, hnew⟩ := readLines_of_ended hr hcs ht (1 + (ls.map (Text.dropMark 13)).length)
      rw [hold] at h
      rw [hnew, ← Except.ok.inj h]
      simp [Except.map]
    · intro hnot
      cases hlast : readLines (1 + (ls.map (Text.dropMark 13)).length)
          (if lastLine bytes = [] then [] else [lastLine bytes]) with
      | error e =>
        rw [hlast] at h
        simp [Except.map] at h
      | ok back =>
        obtain ⟨hne, hbad⟩ := readLines_of_not_ended (r := r) hlast hnot
        rw [hbad, if_neg hne, List.length_append, List.length_singleton, Nat.add_comm 1]
        rfl

/-- What comes of an append to the file of a ledger that has been opened: the file opens again with the records it
had and the new one behind them, or else its last line is corrupt; the end of that line decides. -/
theorem reopened_append {env : Surroundings} {place : Location} {w : World} {l : ProofLedger} {a : Appended}
    {rule context : String} {verdict : Verdict} {duration : Nat} (hread : w.files.read place = .ok bytes)
    (hopen : open? w.files place = .ok l) (happend : l.append env w rule context verdict duration = a)
    (hr : a.entry.Storable) (ht : Takes place w.files a.entry) :
    (Ended bytes → open? a.world.files place = .ok ⟨l.records ++ [a.entry], some place⟩) ∧
      (¬ Ended bytes → open? a.world.files place = .error (.corrupt (fileLines bytes).length)) := by
  have hopened : ∀ {x : Listing} {c : ByteArray}, x.read place = .ok c →
      open? x place = (readRecords c).map fun records => ⟨records, some place⟩ := by
    intro x c hc
    obtain ⟨hlead, hfile⟩ := read_eq_ok.1 hc
    rw [open?, if_pos (isThere_eq_true.2 ⟨hlead, by simp [hfile]⟩), hc]
  rw [hopened hread] at hopen
  cases hrs : readRecords bytes with
  | error e => simp [hrs, Except.map] at hopen
  | ok rs =>
    rw [hrs] at hopen
    obtain rfl : ⟨rs, some place⟩ = l := Except.ok.inj hopen
    have hfiles : a.world.files = persist ⟨rs, some place⟩ w.files a.entry := by
      rw [← happend]
      rfl
    obtain ⟨hgood, hbad⟩ := readRecords_append hr hrs
    rw [hfiles, hopened (read_persist rfl ht (.inr hread))]
    exact ⟨fun he => by rw [hgood he]; rfl, fun hn => by rw [hbad hn]; rfl⟩

end Append

/-! ## A line without its end -/

section OpenEnded

variable {r : ProofRecord} (h : r.Storable)

include h

theorem cutAt_line : Text.cutAt 10 r.line.toUTF8.data.toList = [r.line.toUTF8.data.toList] :=
  Text.cutAt_of_notMem (h.notMem_line (by decide))

theorem not_ended_line : ¬ Ended r.line.toUTF8 := by
  rintro ⟨cs, hcs, hlast⟩
  rw [lastLine, cutAt_line h, List.getLastD_cons, List.getLastD_nil, Array.toList_inj] at hlast
  have heq : r.line = String.ofList cs := by
    rw [← String.toByteArray_inj, ← String.toUTF8_eq_toByteArray, ← String.toUTF8_eq_toByteArray]
    exact ByteArray.ext hlast
  obtain ⟨ds, hds⟩ := exists_line_eq r
  rw [heq, String.toList_ofList] at hds
  exact absurd (hcs '\x7b' (by simp [hds])) (by decide)

theorem fileLines_line : fileLines r.line.toUTF8 = [r.line.toUTF8.data.toList] := by
  rw [fileLines, cutAt_line h, Text.closeLines, if_neg (line_ne_nil r)]

theorem readRecords_line : readRecords r.line.toUTF8 = .ok [r] := by
  rw [readRecords, fileLines_line h]
  exact @readLines_map [r] (by simpa using h) 1

end OpenEnded

theorem firstRepair_storable : firstRepair.Storable := ⟨by decide, by decide, by decide, by decide⟩

/-- A file in which the line of the only record has lost its end. -/
def openEnded : World := ⟨.file "ledger.jsonl" firstRepair.line.toUTF8 .empty, 0, 0⟩

/-- A second record for that file. -/
def openEndedAppend : Appended :=
  append ⟨[firstRepair], some ["ledger.jsonl"]⟩ SnapshotStore.still openEnded "comment-stray-text" "b.js"
    ⟨.strayText, true, true, false, true, false, 1, 0, "held"⟩ 0

theorem openEnded_corrupt :
    open? openEnded.files ["ledger.jsonl"] = .ok ⟨[firstRepair], some ["ledger.jsonl"]⟩ ∧
      open? openEndedAppend.world.files ["ledger.jsonl"] = .error (.corrupt 1) := by
  have hread : openEnded.files.read ["ledger.jsonl"] = .ok firstRepair.line.toUTF8 := rfl
  have hopen : open? openEnded.files ["ledger.jsonl"] = .ok ⟨[firstRepair], some ["ledger.jsonl"]⟩ := by
    have hthere : openEnded.files.isThere ["ledger.jsonl"] = true := rfl
    rw [open?, if_pos hthere, hread]
    simp only [readRecords_line firstRepair_storable]
    rfl
  have hstorable : openEndedAppend.entry.Storable := append_storable _ _ (by decide) (by decide) (by decide) (by decide)
  have htakes : Takes ["ledger.jsonl"] openEnded.files openEndedAppend.entry :=
    takes_root ⟨by decide, by decide⟩ (by decide) (by decide) (by simp [(read_eq_ok.1 hread).2]) _
  have hcorrupt := (reopened_append hread hopen rfl hstorable htakes).2 (not_ended_line firstRepair_storable)
  rw [fileLines_line firstRepair_storable] at hcorrupt
  exact ⟨hopen, hcorrupt⟩

end TreeRepair.ProofLedger
