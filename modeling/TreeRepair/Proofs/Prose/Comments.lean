import TreeRepair.Defect
import TreeRepair.Proofs.Prose.Scopes
import TreeRepair.Proofs.Text.Splicing

/-! Prose commented out. A comment mark is put in front of every line of prose at module scope; no other line
changes, every line begins in the scope in which it began before, and nothing is left to comment out. -/

set_option autoImplicit false

namespace TreeRepair.Prose

open Text

variable {n offset : Nat} {scopes : List Bool} {lines : List (List Char)} {raw tail out : List Char} {l : StrayLine}

/-- A line with a comment mark behind its leading blanks. -/
def commentOut (raw : List Char) : List Char := raw.takeWhile isBlank ++ ("// ".toList ++ raw.dropWhile isBlank)

/-- Lines that are given with their scopes, the prose among them commented out. -/
def commentAmong : List Bool → List (List Char) → List (List Char)
  | _, [] => []
  | scopes, raw :: rest =>
    (if scopes.headD false && readsLikeProse (trim raw) then commentOut raw else raw) :: commentAmong scopes.tail rest

/-- Puts a comment mark in front of a line of prose. -/
def StrayLine.comment (l : StrayLine) : Edit := .insert l.start "// "

theorem StrayLine.start_comment (l : StrayLine) : l.comment.start = l.start := rfl

theorem StrayLine.stop_comment (l : StrayLine) : l.comment.stop = l.start := rfl

/-! ## Lines of prose -/

theorem all_takeWhile_isBlank (raw : List Char) : ∀ c ∈ raw.takeWhile isBlank, isBlank c = true :=
  List.all_eq_true.1 List.all_takeWhile

theorem trim_ne_nil_of_readsLikeProse (h : readsLikeProse (trim raw) = true) : trim raw ≠ [] := by
  intro hnil
  rw [hnil] at h
  exact absurd h (by decide)

theorem trim_commentOut (h : trim raw ≠ []) : trim (commentOut raw) = "// ".toList ++ trim raw := by
  have hstart : trimStart (commentOut raw) = "// ".toList ++ raw.dropWhile isBlank := by
    rw [trimStart, commentOut, List.dropWhile_append_of_pos (all_takeWhile_isBlank raw)]
    exact List.dropWhile_cons_of_neg (by decide)
  rw [trim, hstart]
  exact trimEnd_append _ h

theorem readsLikeProse_commentOut (raw : List Char) : readsLikeProse (trim (commentOut raw)) = false :=
  readsLikeProse_of_slash (by simp [commentOut])

theorem notMem_commentOut (h : '\n' ∉ raw) : '\n' ∉ commentOut raw := by
  have hmem : '\n' ∉ raw.takeWhile isBlank ++ raw.dropWhile isBlank := by rwa [List.takeWhile_append_dropWhile]
  rw [List.mem_append, not_or] at hmem
  simp [commentOut, hmem.1, hmem.2]

theorem strayAmong_cons (n offset : Nat) (scopes : List Bool) (raw : List Char) (rest : List (List Char)) :
    strayAmong n offset scopes (raw :: rest) =
      let next := strayAmong (n + 1) (offset + byteLength raw + 1) scopes.tail rest
      let start := offset + byteLength (raw.takeWhile isBlank)
      if scopes.headD false && readsLikeProse (trim raw) then
        ⟨n, start, start + byteLength (trim raw), String.ofList (trim raw)⟩ :: next
      else next := by
  have hlen : byteLength raw = byteLength (raw.takeWhile isBlank) + byteLength (raw.dropWhile isBlank) := by
    rw [← byteLength_append, List.takeWhile_append_dropWhile]
  have hstart : byteLength raw - byteLength (trimStart raw) = byteLength (raw.takeWhile isBlank) := by
    rw [trimStart, hlen]
    omega
  rw [strayAmong]
  simp only [hstart]

theorem exists_joinLines_cons (raw : List Char) (rest : List (List Char)) : ∃ tail, joinLines (raw :: rest) = raw ++ tail := by
  cases rest with
  | nil => exact ⟨[], by rw [joinLines, List.intercalate_singleton, List.append_nil]⟩
  | cons m ms => exact ⟨_, joinLines_cons_cons raw m ms⟩

theorem exists_boundary (h : l ∈ strayAmong n offset scopes lines) :
    ∃ front back, joinLines lines = front ++ back ∧ l.start = offset + byteLength front := by
  induction lines generalizing n offset scopes with
  | nil => exact absurd h List.not_mem_nil
  | cons raw rest ih =>
    have hnext : l ∈ strayAmong (n + 1) (offset + byteLength raw + 1) scopes.tail rest →
        ∃ front back, joinLines (raw :: rest) = front ++ back ∧ l.start = offset + byteLength front := by
      intro h
      obtain ⟨front, back, hjoin, hstart⟩ := ih h
      cases rest with
      | nil => exact absurd h List.not_mem_nil
      | cons m ms =>
        refine ⟨raw ++ '\n' :: front, back, by rw [joinLines_cons_cons, hjoin, List.append_assoc]; rfl, ?_⟩
        have hfeed : byteLength ('\n' :: front) = 1 + byteLength front := rfl
        rw [hstart, byteLength_append, hfeed]
        omega
    rw [strayAmong_cons] at h
    simp only at h
    split at h
    · rcases List.mem_cons.1 h with rfl | h
      · obtain ⟨tail, htail⟩ := exists_joinLines_cons raw rest
        refine ⟨raw.takeWhile isBlank, raw.dropWhile isBlank ++ tail, ?_, rfl⟩
        rw [htail, ← List.append_assoc, List.takeWhile_append_dropWhile]
      · exact hnext h
    · exact hnext h

theorem le_line (h : l ∈ strayAmong n offset scopes lines) : n ≤ l.line := by
  induction lines generalizing n offset scopes with
  | nil => exact absurd h List.not_mem_nil
  | cons raw rest ih =>
    rw [strayAmong_cons] at h
    simp only at h
    split at h
    · rcases List.mem_cons.1 h with rfl | h
      · exact Nat.le_refl _
      · exact Nat.le_of_succ_le (ih h)
    · exact Nat.le_of_succ_le (ih h)

/-! ## Splicing comment marks in -/

theorem widen_comment {text front back : List Char} (htext : text = front ++ back) (h : l.start = byteLength front) :
    l.comment.widen text = l.comment := by
  have hlow : floorBoundary text l.start = l.start := by
    rw [floorBoundary, htext, h, takeBytes_eq_self]
  have hhigh : ceilBoundary text l.start = l.start := by
    rw [ceilBoundary_eq, htext, h, coverBytes_eq_self]
  simp only [StrayLine.comment, Edit.insert, Edit.widen, hlow, hhigh]

theorem compatible_comments (lines : List (List Char)) (scopes : List Bool) :
    Edit.Compatible (joinLines lines) ((strayAmong n 0 scopes lines).map StrayLine.comment) ∧
    ((strayAmong n 0 scopes lines).map StrayLine.comment).map (Edit.widen (joinLines lines)) =
      (strayAmong n 0 scopes lines).map StrayLine.comment := by
  have hwide : ((strayAmong n 0 scopes lines).map StrayLine.comment).map (Edit.widen (joinLines lines)) =
      (strayAmong n 0 scopes lines).map StrayLine.comment := by
    rw [List.map_map]
    refine List.map_congr_left fun l hl => ?_
    obtain ⟨front, back, htext, hstart⟩ := exists_boundary hl
    exact widen_comment htext (by rw [hstart, Nat.zero_add])
  refine ⟨⟨fun e he => ?_, ?_⟩, hwide⟩
  · obtain ⟨l, hl, rfl⟩ := List.mem_map.1 he
    obtain ⟨front, back, htext, hstart⟩ := exists_boundary hl
    refine ⟨Nat.le_refl _, ?_⟩
    rw [l.stop_comment, hstart, htext, byteLength_append]
    omega
  · rw [hwide, List.pairwise_map]
    exact List.pairwise_of_forall fun x y => Nat.le_total x.start y.start

/-- Reading a line with a comment mark to put in comments it out. -/
theorem readThrough_commentOut {ws : List Edit} {e : Edit}
    (he : e = .insert (offset + byteLength (raw.takeWhile isBlank)) "// ") (hws : ∀ w ∈ ws, offset + byteLength raw ≤ w.start)
    (htail : readThrough ws (offset + byteLength raw) 0 tail = out) :
    readThrough (e :: ws) offset 0 (raw ++ tail) = commentOut raw ++ out := by
  have hlen : byteLength raw = byteLength (raw.takeWhile isBlank) + byteLength (raw.dropWhile isBlank) := by
    rw [← byteLength_append, List.takeWhile_append_dropWhile]
  have hrest : readThrough ws (offset + byteLength (raw.takeWhile isBlank)) 0 (raw.dropWhile isBlank ++ tail) =
      raw.dropWhile isBlank ++ out := by
    rw [readThrough_copy _ _ (Nat.zero_le _) fun w hw => ?_, Nat.add_assoc, ← hlen, htail]
    have := hws w hw
    omega
  have hsplit : raw ++ tail = raw.takeWhile isBlank ++ (raw.dropWhile isBlank ++ tail) := by
    rw [← List.append_assoc, List.takeWhile_append_dropWhile]
  have hfirst : ∀ w ∈ e :: ws, w.start < offset ∨ offset + byteLength (raw.takeWhile isBlank) ≤ w.start := by
    intro w hw
    rcases List.mem_cons.1 hw with rfl | hw
    · exact .inr (he ▸ Nat.le_refl _)
    · have := hws w hw
      omega
  rw [hsplit, readThrough_copy _ _ (Nat.zero_le _) hfirst, readThrough_insertion _ (he ▸ rfl) (he ▸ rfl), hrest, he,
    commentOut, List.append_assoc, List.append_assoc]
  rfl

theorem readThrough_comments (n offset : Nat) (scopes : List Bool) (lines : List (List Char)) :
    readThrough ((strayAmong n offset scopes lines).map StrayLine.comment) offset 0 (joinLines lines) =
      joinLines (commentAmong scopes lines) := by
  induction lines generalizing n offset scopes with
  | nil => rfl
  | cons raw rest ih =>
    have hbehind : ∀ w ∈ (strayAmong (n + 1) (offset + byteLength raw + 1) scopes.tail rest).map StrayLine.comment,
        offset + byteLength raw + 1 ≤ w.start := by
      intro w hw
      obtain ⟨l, hl, rfl⟩ := List.mem_map.1 hw
      obtain ⟨front, back, -, hstart⟩ := exists_boundary hl
      rw [l.start_comment, hstart]
      omega
    -- what follows the line, and what reading makes of it
    obtain ⟨tail, out, hjoin, hout, htail⟩ : ∃ tail out, joinLines (raw :: rest) = raw ++ tail ∧
        (∀ k, joinLines (k :: commentAmong scopes.tail rest) = k ++ out) ∧
        readThrough ((strayAmong (n + 1) (offset + byteLength raw + 1) scopes.tail rest).map StrayLine.comment)
          (offset + byteLength raw) 0 tail = out := by
      cases rest with
      | nil =>
        refine ⟨[], [], ?_, fun k => ?_, rfl⟩ <;>
          rw [joinLines] <;> simp [commentAmong]
      | cons m ms =>
        refine ⟨_, _, joinLines_cons_cons raw m ms, fun k => joinLines_cons_cons k _ _, ?_⟩
        refine (readThrough_copy ['\n'] (joinLines (m :: ms)) (Nat.zero_le _) fun w hw => .inr (hbehind w hw)).trans ?_
        exact congrArg _ (ih (n + 1) _ scopes.tail)
    have hweak : ∀ w ∈ (strayAmong (n + 1) (offset + byteLength raw + 1) scopes.tail rest).map StrayLine.comment,
        offset + byteLength raw ≤ w.start := fun w hw => Nat.le_of_succ_le (hbehind w hw)
    rw [strayAmong_cons, commentAmong, hjoin, hout]
    simp only
    split
    · exact readThrough_commentOut rfl hweak htail
    · rw [readThrough_copy _ _ (Nat.zero_le _) fun w hw => .inr (hweak w hw), htail]

/-- The commented text, line by line. -/
def commented (text : String) : String :=
  String.ofList (joinLines (commentAmong (moduleScopeLineStarts text.toList) (splitLines text.toList)))

theorem applyEdits_comment (text : String) : applyEdits text ((strayLines text).map StrayLine.comment) = .ok (commented text) := by
  obtain ⟨hcompatible, hwide⟩ :=
    compatible_comments (n := 1) (splitLines text.toList) (moduleScopeLineStarts text.toList)
  rw [joinLines_splitLines] at hcompatible hwide
  refine applyEdits_eq_ok.2 ⟨hcompatible, ?_⟩
  have hread := readThrough_comments 1 0 (moduleScopeLineStarts text.toList) (splitLines text.toList)
  rw [joinLines_splitLines] at hread
  rw [spliceAll, strayLines, hwide, hread, commented]

/-! ## The commented lines -/

theorem notMem_of_mem_commentAmong (h : ∀ l ∈ lines, '\n' ∉ l) : ∀ l ∈ commentAmong scopes lines, '\n' ∉ l := by
  induction lines generalizing scopes with
  | nil => exact fun l hl => absurd hl List.not_mem_nil
  | cons raw rest ih =>
    obtain ⟨hraw, hrest⟩ := List.forall_mem_cons.1 h
    refine List.forall_mem_cons.2 ⟨?_, ih hrest⟩
    split
    · exact notMem_commentOut hraw
    · exact hraw

theorem splitLines_commented (text : String) : splitLines (commented text).toList =
    commentAmong (moduleScopeLineStarts text.toList) (splitLines text.toList) := by
  rw [commented, String.toList_ofList]
  refine splitLines_joinLines ?_ (notMem_of_mem_commentAmong fun l hl => notMem_of_mem_cutAt hl)
  obtain ⟨raw, rest, hlines⟩ := List.exists_cons_of_ne_nil (cutAt_ne_nil '\n' text.toList)
  rw [splitLines, hlines, commentAmong]
  exact List.cons_ne_nil _ _

theorem commentAmong_eq_mapIdx (n offset : Nat) (scopes : List Bool) (lines : List (List Char)) : commentAmong scopes lines =
    lines.mapIdx fun i raw => if i + n ∈ (strayAmong n offset scopes lines).map (·.line) then commentOut raw else raw := by
  induction lines generalizing n offset scopes with
  | nil => rfl
  | cons raw rest ih =>
    have hlater : ∀ k ∈ (strayAmong (n + 1) (offset + byteLength raw + 1) scopes.tail rest).map (·.line), n + 1 ≤ k := by
      intro k hk
      obtain ⟨l, hl, rfl⟩ := List.mem_map.1 hk
      exact le_line hl
    have hfirst : n ∉ (strayAmong (n + 1) (offset + byteLength raw + 1) scopes.tail rest).map (·.line) :=
      fun hn => absurd (hlater n hn) (by omega)
    rw [commentAmong, List.mapIdx_cons, strayAmong_cons, ih (n + 1) (offset + byteLength raw + 1)]
    have hshift : ∀ i, i + 1 + n = i + (n + 1) := by omega
    have hother : ∀ i, i + (n + 1) ≠ n := by omega
    simp only [Nat.zero_add, hshift]
    split
    · simp only [List.map_cons, List.mem_cons, true_or, if_true, hother, false_or]
    · rfl

theorem exists_comment (h : l ∈ strayAmong n offset scopes lines) :
    ∃ line ∈ commentAmong scopes lines, trim line = Defect.commentOf l := by
  induction lines generalizing n offset scopes with
  | nil => exact absurd h List.not_mem_nil
  | cons raw rest ih =>
    rw [strayAmong_cons] at h
    rw [commentAmong]
    simp only at h
    split at h
    · rename_i hstray
      rw [if_pos hstray]
      rcases List.mem_cons.1 h with rfl | h
      · have htrim := trim_commentOut (trim_ne_nil_of_readsLikeProse (Bool.and_eq_true_iff.1 hstray).2)
        exact ⟨_, List.mem_cons_self .., by simpa only [Defect.commentOf, String.toList_ofList] using htrim⟩
      · obtain ⟨line, hline, htrim⟩ := ih h
        exact ⟨line, List.mem_cons_of_mem _ hline, htrim⟩
    · obtain ⟨line, hline, htrim⟩ := ih h
      exact ⟨line, List.mem_cons_of_mem _ hline, htrim⟩

theorem strayAmong_commentAmong (n offset : Nat) (scopes : List Bool) (lines : List (List Char)) :
    strayAmong n offset scopes (commentAmong scopes lines) = [] := by
  induction lines generalizing n offset scopes with
  | nil => rfl
  | cons raw rest ih =>
    rw [commentAmong, strayAmong_cons, ih]
    simp only
    by_cases hstray : (scopes.headD false && readsLikeProse (trim raw)) = true
    · rw [if_pos hstray, readsLikeProse_commentOut, Bool.and_false, if_neg Bool.false_ne_true]
    · rw [if_neg hstray, if_neg hstray]

namespace Scanner

theorem throughLine_commentOut {s : Scanner} (hs : s.atModuleScope = true) (hprose : readsLikeProse (trim raw) = true)
    (hraw : '\n' ∉ raw) : s.throughLine (commentOut raw) = s.throughLine raw := by
  obtain ⟨mode, depth, substitutions⟩ := s
  obtain rfl : mode = .code := beq_iff_eq.1 (Bool.and_eq_true_iff.1 hs).1
  have hbehind : '\n' ∉ raw.dropWhile isBlank := fun h => hraw ((List.dropWhile_sublist _).subset h)
  rw [throughLine_prose .code (.inl rfl) (isProseCharacter_of_readsLikeProse hprose) hraw, commentOut,
    throughLine_commented (all_takeWhile_isBlank raw) hbehind]

theorem scopes_commentAmong (s : Scanner) (h : ∀ l ∈ lines, '\n' ∉ l) :
    s.scopes (commentAmong (s.scopes lines) lines) = s.scopes lines := by
  induction lines generalizing s with
  | nil => rfl
  | cons raw rest ih =>
    obtain ⟨hraw, hrest⟩ := List.forall_mem_cons.1 h
    rw [scopes, commentAmong, scopes, List.headD_cons, List.tail_cons]
    split
    · rename_i hstray
      obtain ⟨hscope, hprose⟩ := Bool.and_eq_true_iff.1 hstray
      rw [throughLine_commentOut hscope hprose hraw, ih _ hrest]
    · rw [ih _ hrest]

end Scanner

theorem moduleScopeLineStarts_eq (cs : List Char) : moduleScopeLineStarts cs = Scanner.start.scopes (splitLines cs) := by
  have hlines := Scanner.start.cons_lineStarts_joinLines (cutAt_ne_nil '\n' cs) fun l hl => notMem_of_mem_cutAt hl
  rw [← splitLines, joinLines_splitLines] at hlines
  exact hlines

theorem moduleScopeLineStarts_commented (text : String) :
    moduleScopeLineStarts (commented text).toList = moduleScopeLineStarts text.toList := by
  rw [moduleScopeLineStarts_eq, splitLines_commented, moduleScopeLineStarts_eq]
  exact Scanner.start.scopes_commentAmong fun l hl => notMem_of_mem_cutAt hl

theorem strayLines_commented (text : String) : strayLines (commented text) = [] := by
  rw [strayLines, moduleScopeLineStarts_commented, splitLines_commented, strayAmong_commentAmong]

theorem haveComments_commented (text : String) :
    Defect.haveComments (Defect.trimmedLines (commented text)) (strayLines text) = true := by
  rw [Defect.haveComments, List.all_eq_true]
  intro l hl
  obtain ⟨line, hline, htrim⟩ := exists_comment hl
  rw [← splitLines_commented] at hline
  have hne : trim line ≠ [] := htrim ▸ List.append_ne_nil_of_left_ne_nil (by decide) _
  obtain ⟨k, hk, hkeep⟩ := exists_textLine hline hne
  exact List.contains_iff_mem.2 (List.mem_map.2 ⟨k, hk, hkeep.trans htrim⟩)

theorem hasMarker_commented {before after : ParsedUnit} (hafter : after.source = commented before.source) :
    Defect.strayText.hasMarker before after = !(strayLines before.source).isEmpty := by
  rw [Defect.hasMarker, hafter]
  simp only [haveComments_commented, Bool.and_true]

/-- Commenting out prose succeeds whatever the text is. It keeps the number of lines and every line that is not
prose at module scope; a line that is gets a comment mark behind its leading blanks. All lines begin in the scope
in which they began before, so that there is nothing left to comment out. The comment of each line of prose is among
the new lines, and so units of the two texts show the marker of the repair. -/
theorem commentOut_settles (text : String) : ∃ result,
    applyEdits text ((strayLines text).map fun l => .insert l.start "// ") = .ok result ∧
    (splitLines result.toList).length = (splitLines text.toList).length ∧
    splitLines result.toList = (splitLines text.toList).mapIdx (fun i raw =>
      if i + 1 ∈ (strayLines text).map (·.line) then raw.takeWhile isBlank ++ ("// ".toList ++ raw.dropWhile isBlank)
      else raw) ∧
    moduleScopeLineStarts result.toList = moduleScopeLineStarts text.toList ∧
    strayLines result = [] ∧
    ∀ l ∈ strayLines text,
      (∃ line ∈ splitLines result.toList, trim line = "// ".toList ++ l.text.toList) ∧
      ∀ before after : ParsedUnit, before.source = text → after.source = result →
        Defect.strayText.hasMarker before after = true := by
  have hlines : splitLines (commented text).toList = (splitLines text.toList).mapIdx fun i raw =>
      if i + 1 ∈ (strayLines text).map (·.line) then commentOut raw else raw := by
    rw [splitLines_commented]
    exact commentAmong_eq_mapIdx 1 0 _ _
  refine ⟨commented text, applyEdits_comment text, ?_, hlines, moduleScopeLineStarts_commented text,
    strayLines_commented text, fun l hl => ⟨?_, ?_⟩⟩
  · rw [hlines, List.length_mapIdx]
  · rw [splitLines_commented]
    exact exists_comment hl
  · rintro before after rfl hafter
    rw [hasMarker_commented hafter, List.isEmpty_eq_false_iff.2 (List.ne_nil_of_mem hl), Bool.not_false]

/-- An apostrophe in prose behind a wide blank: the quote that it opens ends with its line, before and after. -/
theorem commentOut_settles_apostrophe :
    let text := "\u3000This doesn't parse yet.\nlet a = 1;\n"
    let result := "\u3000// This doesn't parse yet.\nlet a = 1;\n"
    let unit (source : String) : ParsedUnit := ⟨"a.js", "", none, source, #[], [], none⟩
    applyEdits text ((strayLines text).map fun l => .insert l.start "// ") = .ok result ∧
    strayLines result = [] ∧ Defect.strayText.hasMarker (unit text) (unit result) = true := by
  intro text result unit
  obtain ⟨out, hrun, -, hlines, -, hnone, hstray⟩ := commentOut_settles text
  obtain rfl : out = result := by
    rw [← String.ofList_toList (s := out), ← joinLines_splitLines out.toList, hlines]
    decide +kernel
  obtain ⟨l, hl⟩ : ∃ l, l ∈ strayLines text := ⟨⟨1, 3, 26, "This doesn't parse yet."⟩, by decide +kernel⟩
  exact ⟨hrun, hnone, (hstray l hl).2 (unit text) (unit result) rfl rfl⟩

end TreeRepair.Prose
