import TreeRepair.Proofs.Prose.Comments
import TreeRepair.Proofs.Prose.Runs

/-! Where lines of prose are found: exactly at the beginnings of lines at which the scanner stands in code with no
bracket open. It is then as it is at the start of the text, unless the line begins in a substitution: the template
literals that are open do not count there. -/

set_option autoImplicit false

namespace TreeRepair.Prose

open Text Scanner

/-- The scanner `s` at the beginning of line `n` of a text, which reads `raw`, in front of `rest`. -/
structure AtLine (source : List Char) (n : Nat) (raw rest : List Char) (s : Scanner) : Prop where
  line : ∃ fore back, splitLines source = fore ++ raw :: back ∧ n = fore.length + 1 ∧ rest = joinLines (raw :: back)
  run : Reaches (.start, source) (s, rest)

/-- Before the place there is the beginning of a substitution, in a template literal, that has not come to its end. -/
def InSubstitution (source rest : List Char) (s : Scanner) : Prop :=
  ∃ literal inside d ds, source = literal ++ '$' :: '\x7b' :: (inside ++ rest) ∧
    Reaches (.start, source) (⟨.template, d, ds⟩, '$' :: '\x7b' :: (inside ++ rest)) ∧
    Keeps (d :: ds) (⟨.code, d, d :: ds⟩, inside ++ rest) (s, rest)

variable {n offset : Nat} {s : Scanner} {source raw rest : List Char} {fore back lines : List (List Char)} {l : StrayLine}

/-! ## Lines -/

theorem splitLines_atLine (fore back : List (List Char)) (h : splitLines source = fore ++ raw :: back) :
    AtLine source (fore.length + 1) raw (joinLines (raw :: back)) (Scanner.start.throughLines fore) := by
  refine ⟨⟨fore, back, h, rfl, rfl⟩, ?_⟩
  have hfore : ∀ l ∈ fore, '\n' ∉ l := fun l hl => notMem_of_mem_cutAt (h ▸ List.mem_append_left _ hl)
  have hrun := reaches_lines .start (List.cons_ne_nil raw back) hfore
  rwa [← h, joinLines_splitLines] at hrun

/-- At the beginning of a line the scanner is the one behind the lines before it. -/
theorem AtLine.scanner (h : AtLine source n raw rest s) : ∃ fore back, splitLines source = fore ++ raw :: back ∧
    n = fore.length + 1 ∧ rest = joinLines (raw :: back) ∧ s = Scanner.start.throughLines fore := by
  obtain ⟨fore, back, hlines, hn, rfl⟩ := h.line
  exact ⟨fore, back, hlines, hn, rfl, h.run.unique (splitLines_atLine fore back hlines).run⟩

theorem AtLine.scanner_eq (h : AtLine source n raw rest s) :
    s = Scanner.start.throughLines ((splitLines source).take (n - 1)) := by
  obtain ⟨fore, back, hlines, rfl, -, rfl⟩ := h.scanner
  rw [hlines, Nat.add_sub_cancel, List.take_left]

/-- What the line at the front is found to be, in front of the prose among the others. -/
theorem strayAmong_scopes_cons (n offset : Nat) (s : Scanner) (raw : List Char) (rest : List (List Char)) :
    strayAmong n offset (s.scopes (raw :: rest)) (raw :: rest) =
      (if s.atModuleScope && readsLikeProse (trim raw) then
        let start := offset + byteLength (raw.takeWhile isBlank)
        [⟨n, start, start + byteLength (trim raw), String.ofList (trim raw)⟩]
      else []) ++ strayAmong (n + 1) (offset + (byteLength raw + 1)) ((s.throughLine raw).scopes rest) rest := by
  rw [scopes, strayAmong_cons, ← Nat.add_assoc]
  simp only [List.tail_cons]
  split
  · rename_i hstray
    rw [List.headD_cons] at hstray
    rw [if_pos hstray]
    rfl
  · rename_i hstray
    rw [List.headD_cons] at hstray
    rw [if_neg hstray]
    rfl

/-- The prose of lines is the prose of the first of them and that of the others, numbered and placed behind it. -/
theorem strayAmong_append (n offset : Nat) (s : Scanner) (fore back : List (List Char)) :
    strayAmong n offset (s.scopes (fore ++ back)) (fore ++ back) = strayAmong n offset (s.scopes fore) fore ++
      strayAmong (n + fore.length) (offset + byteLength (fore.flatMap (· ++ ['\n'])))
        ((s.throughLines fore).scopes back) back := by
  induction fore generalizing n offset s with
  | nil => rfl
  | cons l fore ih =>
    have hfeed : byteLength ['\n'] = 1 := rfl
    rw [List.cons_append, strayAmong_scopes_cons, ih, strayAmong_scopes_cons, List.append_assoc, List.length_cons,
      List.flatMap_cons, byteLength_append, byteLength_append, hfeed, Nat.add_assoc n, Nat.add_comm 1,
      Nat.add_assoc offset]
    rfl

/-- What is told of a line with a number, behind some bytes, if it is prose. -/
def StrayLine.ofLine (n offset : Nat) (raw : List Char) : StrayLine :=
  let start := offset + byteLength (raw.takeWhile isBlank)
  ⟨n, start, start + byteLength (trim raw), String.ofList (trim raw)⟩

theorem ofLine_of_mem_strayAmong (h : l ∈ strayAmong n offset (s.scopes lines) lines) : ∃ fore raw back,
    lines = fore ++ raw :: back ∧ (s.throughLines fore).atModuleScope = true ∧ readsLikeProse (trim raw) = true ∧
      l = .ofLine (n + fore.length) (offset + bytesBefore fore) raw := by
  induction lines generalizing n offset s with
  | nil => exact absurd h List.not_mem_nil
  | cons raw rest ih =>
    rw [strayAmong_scopes_cons] at h
    rcases List.mem_append.1 h with h | h
    · split at h
      · rename_i hstray
        obtain ⟨hscope, hprose⟩ := Bool.and_eq_true_iff.1 hstray
        exact ⟨[], raw, rest, rfl, hscope, hprose, List.mem_singleton.1 h⟩
      · exact absurd h List.not_mem_nil
    · obtain ⟨fore, k, back, hlines, hscope, hprose, rfl⟩ := ih h
      refine ⟨raw :: fore, k, back, by rw [hlines, List.cons_append], hscope, hprose, ?_⟩
      rw [bytesBefore_cons, List.length_cons]
      congr 1 <;> omega

theorem of_mem_strayAmong (h : l ∈ strayAmong n offset (s.scopes lines) lines) : ∃ fore raw back,
    lines = fore ++ raw :: back ∧ l.line = n + fore.length ∧ l.text.toList = trim raw ∧
      (s.throughLines fore).atModuleScope = true ∧ readsLikeProse (trim raw) = true := by
  obtain ⟨fore, raw, back, hlines, hscope, hprose, rfl⟩ := ofLine_of_mem_strayAmong h
  exact ⟨fore, raw, back, hlines, rfl, String.toList_ofList, hscope, hprose⟩

theorem strayLines_eq (text : String) : strayLines text =
    strayAmong 1 0 (Scanner.start.scopes (splitLines text.toList)) (splitLines text.toList) := by
  rw [strayLines, moduleScopeLineStarts_eq]

theorem Scanner.atModuleScope_iff : s.atModuleScope = true ↔ s.mode = .code ∧ s.depth = 0 := by
  rw [atModuleScope, Bool.and_eq_true, beq_iff_eq, beq_iff_eq]

theorem Scanner.eq_start_iff (hmode : s.mode = .code) (hdepth : s.depth = 0) : s = .start ↔ s.substitutions = [] := by
  obtain ⟨mode, depth, substitutions⟩ := s
  obtain rfl : mode = .code := hmode
  obtain rfl : depth = 0 := hdepth
  simp only [start, mk.injEq, true_and]

theorem AtLine.found_iff {text : String} (h : AtLine text.toList n raw rest s) :
    (∃ l ∈ strayLines text, l.line = n) ↔ readsLikeProse (trim raw) = true ∧ s.mode = .code ∧ s.depth = 0 := by
  obtain ⟨fore, back, hlines, rfl, -, rfl⟩ := h.scanner
  rw [strayLines_eq, ← atModuleScope_iff, hlines]
  constructor
  · rintro ⟨l, hl, hline⟩
    obtain ⟨fore', raw', back', hlines', hline', -, hscope, hprose⟩ := of_mem_strayAmong hl
    obtain ⟨rfl, hrest⟩ := List.append_inj hlines' (by omega)
    obtain ⟨rfl, -⟩ := List.cons.inj hrest
    exact ⟨hprose, hscope⟩
  · rintro ⟨hprose, hscope⟩
    rw [strayAmong_append, strayAmong_scopes_cons, hprose, hscope]
    exact ⟨_, List.mem_append_right _ (List.mem_cons_self ..), Nat.add_comm ..⟩

/-! ## Substitutions -/

theorem inSubstitution_iff (h : Reaches (.start, source) (s, rest)) :
    InSubstitution source rest s ↔ s.substitutions ≠ [] := by
  constructor
  · rintro ⟨literal, inside, d, ds, -, -, hkeeps⟩ hnil
    have hopen : d :: ds <:+ s.substitutions := hkeeps.suffix List.suffix_rfl
    exact absurd hopen (by simp [hnil])
  · intro hne
    obtain ⟨d, ds, hopen⟩ := List.exists_cons_of_ne_nil hne
    have hinner : d :: ds <:+ s.substitutions := hopen ▸ List.suffix_rfl
    obtain ⟨tail, hopened, hkeeps⟩ := h.opened rfl hinner
    obtain ⟨literal, -, hsource, -, -⟩ := hopened.lineStarts
    obtain ⟨inside, -, htail, -, -⟩ := hkeeps.reaches.lineStarts
    obtain rfl : tail = inside ++ rest := htail
    exact ⟨literal, inside, d, ds, hsource, hopened, hkeeps⟩

/-- A line of prose is found exactly if the scanner stands in code at depth zero where it begins. The scanner at a
line that is found is the one at the start of the text, with no template literal open either, exactly if the line does
not begin in a substitution. -/
theorem strayLines_scoped (text : String) :
    (∀ n raw rest s, AtLine text.toList n raw rest s →
      ((∃ l ∈ strayLines text, l.line = n) ↔ readsLikeProse (trim raw) = true ∧ s.mode = .code ∧ s.depth = 0)) ∧
    ∀ l ∈ strayLines text, ∃ raw rest s, AtLine text.toList l.line raw rest s ∧ l.text.toList = trim raw ∧
      s.mode = .code ∧ s.depth = 0 ∧ (s = .start ↔ ¬ InSubstitution text.toList rest s) := by
  refine ⟨fun n raw rest s h => h.found_iff, fun l hl => ?_⟩
  rw [strayLines_eq] at hl
  obtain ⟨fore, raw, back, hlines, hline, htext, hscope, -⟩ := of_mem_strayAmong hl
  have hat := splitLines_atLine fore back hlines
  obtain ⟨hmode, hdepth⟩ := atModuleScope_iff.1 hscope
  rw [Nat.add_comm, ← hline] at hat
  refine ⟨raw, _, _, hat, htext, hmode, hdepth, ?_⟩
  rw [inSubstitution_iff hat.run, not_not, eq_start_iff hmode hdepth]

/-- Prose in a substitution, and prose behind the literal: both lines are found, and only the second one stands free. -/
theorem strayLines_scoped_substituted :
    let text := "const a = `$\x7b\nThis is prose here\n\x7d`;\nThis is prose too\n"
    (∃ l ∈ strayLines text, l.line = 2 ∧ ∃ raw rest s, AtLine text.toList 2 raw rest s ∧
      s.mode = .code ∧ s.depth = 0 ∧ InSubstitution text.toList rest s) ∧
    ∃ l ∈ strayLines text, l.line = 4 ∧ ∃ raw rest, AtLine text.toList 4 raw rest .start := by
  intro text
  obtain ⟨-, hfound⟩ := strayLines_scoped text
  have hinside : ⟨2, 14, 32, "This is prose here"⟩ ∈ strayLines text := by decide +kernel
  have hbehind : ⟨4, 37, 54, "This is prose too"⟩ ∈ strayLines text := by decide +kernel
  constructor
  · obtain ⟨raw, rest, s, hat, -, hmode, hdepth, hfree⟩ := hfound _ hinside
    have hs : s ≠ .start := by
      rw [hat.scanner_eq]
      decide +kernel
    exact ⟨_, hinside, rfl, raw, rest, s, hat, hmode, hdepth, not_not.1 (mt hfree.2 hs)⟩
  · obtain ⟨raw, rest, s, hat, -⟩ := hfound _ hbehind
    have hs : s = .start := by
      rw [hat.scanner_eq]
      decide +kernel
    exact ⟨_, hbehind, rfl, raw, rest, hs ▸ hat⟩

end TreeRepair.Prose
