import TreeRepair.Proofs.Prose.Placement
import TreeRepair.Proofs.Repair.Acceptance
import TreeRepair.Proofs.Syntax.Parse
import TreeRepair.Syntax.Table

/-! Repairs of prose in texts of which a unit keeps the start only. The comments are put into the whole text, but they
are looked for by the lines of the start: all of those are lines of the text but for the last one, which the limit may
have cut off. -/

set_option autoImplicit false

namespace TreeRepair

open Prose Text

variable {limit n offset : Nat} {text kept left rest raw : List Char} {fore back lines present : List (List Char)}
  {s : Scanner}

/-- The line of a text that its first `limit` bytes end in: what they keep of it, and what they leave. -/
structure CutLine (limit : Nat) (text : List Char) (n : Nat) (kept left rest : List Char) (s : Scanner) : Prop where
  line : AtLine text n (kept ++ left) rest s
  taken : ∃ front, text = front ++ rest ∧ takeBytes text limit = front ++ kept

/-! ## The lines of the start -/

theorem exists_keptLines (limit : Nat) (hne : lines ≠ []) : ∃ fore kept left back,
    lines = fore ++ (kept ++ left) :: back ∧ keptLines limit lines = fore ++ [kept] := by
  fun_induction keptLines limit lines with
  | case1 => exact absurd rfl hne
  | case2 limit raw =>
    obtain ⟨left, hleft⟩ := takeBytes_isPrefix raw limit
    exact ⟨[], takeBytes raw limit, left, [], by rw [hleft]; rfl, rfl⟩
  | case3 limit raw m ms hlt ih =>
    obtain ⟨fore, kept, left, back, hlines, hkept⟩ := ih (List.cons_ne_nil m ms)
    exact ⟨raw :: fore, kept, left, back, by rw [hlines]; rfl, by rw [hkept]; rfl⟩
  | case4 limit raw m ms hle =>
    obtain ⟨left, hleft⟩ := takeBytes_isPrefix raw limit
    exact ⟨[], takeBytes raw limit, left, m :: ms, by rw [hleft]; rfl, rfl⟩

theorem joinLines_append (fore : List (List Char)) (l : List Char) (back : List (List Char)) :
    joinLines (fore ++ l :: back) = fore.flatMap (· ++ ['\n']) ++ joinLines (l :: back) := by
  induction fore with
  | nil => rfl
  | cons k fore ih =>
    obtain ⟨m, ms, hne⟩ := List.exists_cons_of_ne_nil (l := fore ++ l :: back) (by simp)
    rw [List.cons_append, hne, joinLines_cons_cons, ← hne, ih, List.flatMap_cons, List.append_assoc, List.append_assoc]
    rfl

theorem exists_cutLine (limit : Nat) (text : List Char) :
    ∃ n kept left rest s, CutLine limit text n kept left rest s := by
  obtain ⟨fore, kept, left, back, hlines, hkept⟩ := exists_keptLines limit (cutAt_ne_nil '\n' text)
  refine ⟨_, kept, left, _, _, splitLines_atLine fore back hlines, fore.flatMap (· ++ ['\n']), ?_, ?_⟩
  · rw [← joinLines_append, ← hlines]
    exact (joinLines_splitLines text).symm
  · have hstart := takeBytes_joinLines limit (splitLines text)
    rw [joinLines_splitLines, splitLines, hkept, joinLines_append] at hstart
    rw [hstart, joinLines, List.intercalate_singleton]

/-- The first bytes consist of the lines before the one that they end in, and of what they keep of it. -/
theorem CutLine.split (h : CutLine limit text n kept left rest s) : ∃ fore back,
    splitLines text = fore ++ (kept ++ left) :: back ∧ keptLines limit (splitLines text) = fore ++ [kept] ∧
      s = Scanner.start.throughLines fore := by
  obtain ⟨fore, back, hlines, -, rfl, rfl⟩ := h.line.scanner
  obtain ⟨front, htext, htaken⟩ := h.taken
  have hfront : front = fore.flatMap (· ++ ['\n']) := by
    rw [← joinLines_splitLines text, hlines, joinLines_append] at htext
    exact (List.append_cancel_right htext).symm
  refine ⟨fore, back, hlines, ?_, rfl⟩
  have hnone : ∀ l ∈ fore ++ [kept], '\n' ∉ l := by
    intro l hl
    rcases List.mem_append.1 hl with hl | hl
    · exact notMem_of_mem_cutAt (hlines ▸ List.mem_append_left _ hl)
    · obtain rfl := List.mem_singleton.1 hl
      have hwhole : '\n' ∉ l ++ left := notMem_of_mem_cutAt (hlines ▸ List.mem_append_right _ (List.mem_cons_self ..))
      exact fun hmem => hwhole (List.mem_append_left _ hmem)
  have hjoin : takeBytes text limit = joinLines (fore ++ [kept]) := by
    rw [htaken, hfront, joinLines_append, joinLines, List.intercalate_singleton]
  rw [← splitLines_takeBytes, hjoin]
  exact splitLines_joinLines (by simp) hnone

/-! ## Comments on the lines of the start -/

theorem haveComments_append (present : List (List Char)) (ls ms : List StrayLine) :
    Defect.haveComments present (ls ++ ms) = (Defect.haveComments present ls && Defect.haveComments present ms) :=
  List.all_append

/-- The line at the front has its comment, if it is prose, and the others have theirs. -/
theorem haveComments_scopes_cons :
    Defect.haveComments present (strayAmong n offset (s.scopes (raw :: lines)) (raw :: lines)) = true ↔
      (s.atModuleScope = true → readsLikeProse (trim raw) = true → "// ".toList ++ trim raw ∈ present) ∧
      Defect.haveComments present
        (strayAmong (n + 1) (offset + (byteLength raw + 1)) ((s.throughLine raw).scopes lines) lines) = true := by
  rw [strayAmong_scopes_cons, haveComments_append, Bool.and_eq_true, ← and_imp]
  refine and_congr_left fun _ => ?_
  rw [← Bool.and_eq_true]
  split
  · rename_i hstray
    rw [Defect.haveComments, List.all_cons, List.all_nil, Bool.and_true, List.contains_iff_mem]
    simp only [hstray, true_implies, Defect.commentOf, String.toList_ofList]
  · rename_i hnot
    exact iff_of_true rfl fun hstray => absurd hstray hnot

/-- If all prose of a text has its comment, then so has the prose of its first bytes, unless the cut has made prose of
a line that has no comment of its own. -/
theorem CutLine.haveComments_iff {text : String} (h : CutLine limit text.toList n kept left rest s)
    (hall : Defect.haveComments present (strayLines text) = true) :
    Defect.haveComments present (strayLines (String.ofList (takeBytes text.toList limit))) = true ↔
      (s.atModuleScope = true → readsLikeProse (trim kept) = true →
        trim kept = trim (kept ++ left) ∨ "// ".toList ++ trim kept ∈ present) := by
  obtain ⟨fore, back, hlines, hkept, rfl⟩ := h.split
  rw [strayLines_eq, hlines, strayAmong_append, haveComments_append, Bool.and_eq_true, haveComments_scopes_cons] at hall
  obtain ⟨hfore, hraw, -⟩ := hall
  rw [strayLines_takeBytes, hkept, strayAmong_append, haveComments_append, hfore, Bool.true_and,
    haveComments_scopes_cons, and_iff_left (by rfl)]
  refine forall_congr' fun hscope => forall_congr' fun hprose => ⟨.inr, ?_⟩
  rintro (heq | hmem)
  · rw [heq] at hprose ⊢
    exact hraw hscope hprose
  · exact hmem

/-- Prose of a unit commented out in the whole text, of which the unit keeps the first bytes. The edits apply; and if a
grammar accepts the new text, then the repair is accepted exactly if the line that the unit's text ends in does not
read like prose at module scope there, or reads the same in full, or has a comment in the new text as it stands in the
unit. -/
theorem commentOut_accepted_iff (g : Grammars) (limit : Nat) (file key key' text : String)
    (hpresent : Defect.strayText.isPresent (parseText g limit file key text) = true) : ∃ edits result,
    Rule.strayTextToComment.propose (parseText g limit file key text) text = .ok edits ∧
    applyEdits text edits = .ok result ∧
    ((∃ grammar, ¬ g.Refuses result grammar) →
      (∃ n kept left rest s, CutLine limit text.toList n kept left rest s) ∧
      ∀ n kept left rest s, CutLine limit text.toList n kept left rest s →
        ((Verdict.judge .strayText (parseText g limit file key text) (parseText g limit file key' result)).success = true ↔
          (s.atModuleScope = true → readsLikeProse (trim kept) = true →
            trim kept = trim (kept ++ left) ∨ "// ".toList ++ trim kept ∈ Defect.trimmedLines result))) := by
  have hshown := hpresent
  rw [Defect.isPresent, Bool.and_eq_true] at hshown
  obtain ⟨herrors, hprose⟩ := hshown
  have hkept : (parseText g limit file key text).source = String.ofList (takeBytes text.toList limit) := by
    refine (parseText_cases g limit file key text).resolve_left fun hnone => ?_
    rw [ParsedUnit.hasErrors, hnone] at herrors
    exact absurd herrors (by decide)
  refine ⟨_, commented text, rfl, ?_, fun haccepts => ⟨exists_cutLine limit text.toList, fun n kept left rest s hcut => ?_⟩⟩
  · rw [proposeComments, if_pos herrors]
    exact applyEdits_comment text
  · have hclean := (parseText_shape g limit file key' (commented text)).1.2 haccepts
    have hmarker : Defect.strayText.hasMarker (parseText g limit file key text)
        (parseText g limit file key' (commented text)) =
          Defect.haveComments (Defect.trimmedLines (commented text))
            (strayLines (String.ofList (takeBytes text.toList limit))) := by
      rw [Defect.hasMarker, hprose, Bool.true_and, hclean.source, hkept]
    rw [Verdict.success_judge_iff, hclean.errors, hmarker, ← hcut.haveComments_iff (haveComments_commented text)]
    simp only [hpresent, true_implies, isPresent_strayText_of_clean hclean.errors, true_and, List.length_nil,
      Nat.zero_le, and_true]

/-- Grammars that accept what begins with a slash. -/
def slashGrammars : Grammars := fun _ text =>
  if text.toList.head? = some '/' then .node ⟨"program", true, false, false, false, none, 0, text.utf8ByteSize⟩ []
  else .refusal text

/-- A line of prose with nothing left behind by the unit, and the same line cut in a word. -/
theorem commentOut_accepted_whole :
    let text := "This helper formats numbers."
    let result := "// This helper formats numbers."
    let unit (limit : Nat) (text : String) := parseText slashGrammars limit "a.js" "" text
    (∀ limit ∈ [17, 28], Defect.strayText.isPresent (unit limit text) = true) ∧
      (∃ edits, Rule.strayTextToComment.propose (unit 17 text) text = .ok edits ∧ applyEdits text edits = .ok result) ∧
      (Verdict.judge .strayText (unit 28 text) (unit 28 result)).success = true ∧
      (Verdict.judge .strayText (unit 17 text) (unit 17 result)).success = false := by
  intro text result unit
  have hpresent : ∀ limit ∈ [17, 28], Defect.strayText.isPresent (unit limit text) = true := by decide +kernel
  have hresult : ∀ limit ∈ [17, 28], applyEdits text (proposeComments (unit limit text) text) = .ok result := by
    decide +kernel
  have haccepts : ∃ grammar, ¬ slashGrammars.Refuses result grammar := by
    refine ⟨.tsx, ?_⟩
    rw [Grammars.Refuses]
    decide +kernel
  -- The one line of the text is the one that its first bytes end in.
  have hcut : ∀ limit kept left, text.toList = kept ++ left → takeBytes text.toList limit = kept →
      CutLine limit text.toList 1 kept left text.toList .start := by
    intro limit kept left htext hkept
    have hlines : splitLines text.toList = [] ++ (kept ++ left) :: [] := htext ▸ by decide +kernel
    have hat := splitLines_atLine [] [] hlines
    rw [joinLines, List.intercalate_singleton, ← htext] at hat
    exact ⟨htext ▸ hat, [], rfl, hkept⟩
  have hcondition : ∀ limit ∈ [17, 28], ∀ kept left, text.toList = kept ++ left → takeBytes text.toList limit = kept →
      ((Verdict.judge .strayText (unit limit text) (unit limit result)).success = true ↔
        (readsLikeProse (trim kept) = true → trim kept = trim (kept ++ left) ∨
          "// ".toList ++ trim kept ∈ Defect.trimmedLines result)) := by
    intro limit hlimit kept left htext hkept
    obtain ⟨edits, out, hedits, hout, hall⟩ :=
      commentOut_accepted_iff slashGrammars limit "a.js" "" "" text (hpresent limit hlimit)
    obtain rfl : proposeComments (unit limit text) text = edits := Except.ok.inj hedits
    obtain rfl : result = out := Except.ok.inj ((hresult limit hlimit).symm.trans hout)
    exact ((hall haccepts).2 1 kept left _ _ (hcut limit kept left htext hkept)).trans ⟨fun h => h rfl, fun h _ => h⟩
  refine ⟨hpresent, ⟨_, rfl, hresult 17 (by decide)⟩, ?_, ?_⟩
  · exact (hcondition 28 (by decide) text.toList [] (by decide) (by decide)).2 fun _ => .inl (by decide)
  · refine Bool.eq_false_iff.2 fun hgood => ?_
    have hneither := (hcondition 17 (by decide) "This helper forma".toList "ts numbers.".toList
      (by decide) (by decide)).1 hgood
    exact absurd hneither (by decide +kernel)

end TreeRepair
