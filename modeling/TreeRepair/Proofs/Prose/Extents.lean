import TreeRepair.Proofs.Prose.Bytes
import TreeRepair.Proofs.Prose.Placement

/-! Where lines of prose stand in a text, to the byte. Every line of the text has its entry among the line starts, and
what is told of a line of prose is where its text without the blanks around stands, inside that line and no other. -/

set_option autoImplicit false

namespace TreeRepair.Prose

open Text Scanner

/-- What is told of a line of prose is so: its bytes lie between characters, they are its text, they lie in the line
with its number, and blanks stand at neither end. -/
structure StrayLine.StandsIn (l : StrayLine) (source : List Char) : Prop where
  lt : l.start < l.stop
  boundaries : isBoundary source l.start = true ∧ isBoundary source l.stop = true
  slice : slice? source l.start l.stop = some l.text.toList
  line : ∃ fore raw back, splitLines source = fore ++ raw :: back ∧ l.line = fore.length + 1 ∧
    bytesBefore fore ≤ l.start ∧ l.stop ≤ bytesBefore fore + byteLength raw
  trimmed : ∀ c, l.text.toList.head? = some c ∨ l.text.toList.getLast? = some c → isBlank c = false

variable {n offset : Nat} {s : Scanner} {l : StrayLine} {source raw : List Char} {fore back lines : List (List Char)}

/-! ## Lines of a text -/

theorem length_scopes (s : Scanner) (lines : List (List Char)) : (s.scopes lines).length = lines.length := by
  induction lines generalizing s with
  | nil => rfl
  | cons raw rest ih => rw [scopes, List.length_cons, List.length_cons, ih]

theorem length_moduleScopeLineStarts (source : List Char) :
    (moduleScopeLineStarts source).length = (splitLines source).length := by
  rw [moduleScopeLineStarts_eq, length_scopes]

/-- A line without its leading blanks is what trimming leaves of it, with more behind. -/
theorem exists_trim_append (raw : List Char) : ∃ tail, raw = raw.takeWhile isBlank ++ (trim raw ++ tail) := by
  obtain ⟨tail, htail⟩ := trimEnd_isPrefix (trimStart raw)
  refine ⟨tail, ?_⟩
  rw [trim, htail, trimStart, List.takeWhile_append_dropWhile]

/-! ## Lines of prose -/

theorem standsIn_ofLine (h : splitLines source = fore ++ raw :: back) (hprose : readsLikeProse (trim raw) = true) :
    (StrayLine.ofLine (fore.length + 1) (bytesBefore fore) raw).StandsIn source := by
  obtain ⟨tail, hraw⟩ := exists_trim_append raw
  obtain ⟨rest, hrest⟩ := exists_joinLines_cons raw back
  have hlen : byteLength raw = byteLength (raw.takeWhile isBlank) + (byteLength (trim raw) + byteLength tail) := by
    conv_lhs => rw [hraw, byteLength_append, byteLength_append]
  -- the text around what trimming leaves of the line
  have hsource : source = (fore.flatMap (· ++ ['\n']) ++ raw.takeWhile isBlank) ++ trim raw ++ (tail ++ rest) := by
    rw [← joinLines_splitLines source, h, joinLines_append_cons, hrest]
    conv_lhs => rw [hraw]
    simp only [List.append_assoc]
  have hstart : byteLength (fore.flatMap (· ++ ['\n']) ++ raw.takeWhile isBlank) =
      bytesBefore fore + byteLength (raw.takeWhile isBlank) := byteLength_append _ _
  obtain ⟨c, cs, htrim⟩ := List.exists_cons_of_ne_nil (trim_ne_nil_of_readsLikeProse hprose)
  have hpos : 0 < byteLength (trim raw) := by
    have := c.utf8Size_pos
    rw [htrim, byteLength]
    omega
  refine ⟨Nat.lt_add_of_pos_right hpos, ⟨?_, ?_⟩, ?_, ⟨fore, raw, back, h, rfl, Nat.le_add_right _ _, ?_⟩, ?_⟩
  · rw [isBoundary, hsource, List.append_assoc, StrayLine.ofLine]
    simp only [← hstart, splitAt?_append, Option.isSome_some]
  · rw [isBoundary, hsource, StrayLine.ofLine]
    simp only [← hstart, ← byteLength_append, splitAt?_append, Option.isSome_some]
  · rw [hsource, StrayLine.ofLine]
    simp only [← hstart, slice?_append, String.toList_ofList]
  · rw [StrayLine.ofLine]
    simp only
    omega
  · intro d hd
    rw [StrayLine.ofLine, String.toList_ofList] at hd
    rcases hd with hd | hd
    · exact isBlank_of_head?_trim hd
    · exact isBlank_of_getLast?_trimEnd hd

theorem strayAmong_pairwise (n offset : Nat) (s : Scanner) (lines : List (List Char)) :
    (strayAmong n offset (s.scopes lines) lines).Pairwise fun k l => k.line < l.line ∧ k.stop < l.start := by
  induction lines generalizing n offset s with
  | nil => exact List.Pairwise.nil
  | cons raw rest ih =>
    rw [strayAmong_scopes_cons, List.pairwise_append]
    refine ⟨by split <;> simp, ih _ _ _, fun k hk l hl => ?_⟩
    split at hk
    · obtain rfl : k = .ofLine n offset raw := List.mem_singleton.1 hk
      obtain ⟨fore, m, back, -, -, -, rfl⟩ := ofLine_of_mem_strayAmong hl
      obtain ⟨tail, hraw⟩ := exists_trim_append raw
      have hlen := congrArg byteLength hraw
      rw [byteLength_append, byteLength_append] at hlen
      simp only [StrayLine.ofLine]
      omega
    · exact absurd hk List.not_mem_nil

/-- Lines of prose are told where they are. The scanner, which may as well read the bytes of the text, gives one line
start for each line of it; every line of prose stands where it is told to stand; and the lines of prose come in the
order of the text, each one behind the end of the one before it. -/
theorem strayLines_located (text : String) :
    moduleScopeLineStarts (text.toUTF8.data.toList.map Char.ofUInt8) = moduleScopeLineStarts text.toList ∧
    (moduleScopeLineStarts text.toList).length = (splitLines text.toList).length ∧
    (∀ l ∈ strayLines text, l.StandsIn text.toList) ∧
    (strayLines text).Pairwise fun k l => k.line < l.line ∧ k.stop < l.start := by
  refine ⟨?_, length_moduleScopeLineStarts _, fun l hl => ?_, ?_⟩
  · rw [data_toUTF8]
    exact moduleScopeLineStarts_byteChars text.toList
  · rw [strayLines_eq] at hl
    obtain ⟨fore, raw, back, hlines, -, hprose, rfl⟩ := ofLine_of_mem_strayAmong hl
    rw [Nat.add_comm 1, Nat.zero_add]
    exact standsIn_ofLine hlines hprose
  · rw [strayLines_eq]
    exact strayAmong_pairwise 1 0 .start _

/-- Two lines of prose behind a string that goes on over an escaped line feed, the first of them between wide blanks and
in front of a carriage return. -/
theorem strayLines_located_wide :
    let text := "let a = '\\\né';\n\u3000Größe zählt hier nicht.\u2003\r\nThis is plain.\n"
    let first : StrayLine := ⟨3, 19, 45, "Größe zählt hier nicht."⟩
    let second : StrayLine := ⟨4, 50, 64, "This is plain."⟩
    strayLines text = [first, second] ∧ first.StandsIn text.toList ∧ second.StandsIn text.toList := by
  intro text first second
  obtain ⟨-, -, hstands, -⟩ := strayLines_located text
  have hfound : strayLines text = [first, second] := by decide +kernel
  exact ⟨hfound, hstands first (by simp [hfound]), hstands second (by simp [hfound])⟩

end TreeRepair.Prose
