import TreeRepair.Proofs.Text.Lines
import TreeRepair.Syntax.Arena

/-! Lines and columns of offsets. What is counted along the line feeds of a text is where an offset lies in it: behind
so many lines, and so many bytes into the next one. A later offset never lies in front of an earlier one. -/

set_option autoImplicit false

namespace TreeRepair

open Text

/-- An offset lies in a line of a text, the first of which is line one, so many bytes from its beginning. A line has a
column more than it has bytes, the one of the line feed that ends it, and the last one has all the columns there are. -/
def LiesAt (source : List Char) (offset line column : Nat) : Prop :=
  ∃ fore raw back, splitLines source = fore ++ raw :: back ∧ line = fore.length + 1 ∧
    offset = bytesBefore fore + column ∧ (back ≠ [] → column ≤ byteLength raw)

variable {source raw : List Char} {n start offset other line line' column column' : Nat} {lines : List (List Char)}

/-! ## Line feeds -/

theorem lineFeeds_of_notMem (h : '\n' ∉ raw) : lineFeeds n raw = [] := by
  induction raw generalizing n with
  | nil => rfl
  | cons c cs ih =>
    rw [List.mem_cons, not_or] at h
    rw [lineFeeds, if_neg (Ne.symm h.1), ih h.2]

theorem lineFeeds_append_cons (h : '\n' ∉ raw) (rest : List Char) :
    lineFeeds n (raw ++ '\n' :: rest) = (n + byteLength raw) :: lineFeeds (n + byteLength raw + 1) rest := by
  induction raw generalizing n with
  | nil => rfl
  | cons c cs ih =>
    rw [List.mem_cons, not_or] at h
    rw [List.cons_append, lineFeeds, if_neg (Ne.symm h.1), ih h.2, byteLength, Nat.add_assoc n]

/-! ## Rows and columns -/

theorem rowAndColumnFrom_lineFeeds (row : Nat) (hne : lines ≠ []) (hfree : ∀ l ∈ lines, '\n' ∉ l) (hle : start ≤ offset) :
    ∃ fore raw back column, lines = fore ++ raw :: back ∧
      rowAndColumnFrom row start offset (lineFeeds start (joinLines lines)) = (row + fore.length, column) ∧
      offset = start + bytesBefore fore + column ∧ (back ≠ [] → column ≤ byteLength raw) := by
  induction lines generalizing row start with
  | nil => exact absurd rfl hne
  | cons l rest ih =>
    obtain ⟨hl, hrest⟩ := List.forall_mem_cons.1 hfree
    cases rest with
    | nil =>
      refine ⟨[], l, [], offset - start, rfl, ?_, ?_, fun h => absurd rfl h⟩
      · rw [joinLines, List.intercalate_singleton, lineFeeds_of_notMem hl, rowAndColumnFrom]
        rfl
      · rw [show bytesBefore [] = 0 from rfl]
        omega
    | cons m ms =>
      rw [joinLines_cons_cons, lineFeeds_append_cons hl, rowAndColumnFrom]
      split
      · rename_i hlt
        obtain ⟨fore, raw, back, column, hlines, hfound, hoffset, hcolumn⟩ :=
          ih (row + 1) (List.cons_ne_nil m ms) hrest (Nat.succ_le_of_lt hlt)
        refine ⟨l :: fore, raw, back, column, by rw [hlines, List.cons_append], ?_, ?_, hcolumn⟩
        · rw [hfound, List.length_cons, Nat.add_assoc, Nat.add_comm 1]
        · rw [bytesBefore_cons]
          omega
      · refine ⟨[], l, m :: ms, offset - start, rfl, rfl, ?_, fun _ => by omega⟩
        rw [show bytesBefore [] = 0 from rfl]
        omega

/-- The row and the column that are found for an offset are its line, counted from one, and its column. -/
theorem liesAt_rowAndColumn (source : List Char) (offset : Nat) :
    LiesAt source offset ((rowAndColumn (lineFeeds 0 source) offset).1 + 1)
      (rowAndColumn (lineFeeds 0 source) offset).2 := by
  obtain ⟨fore, raw, back, column, hlines, hfound, hoffset, hcolumn⟩ :=
    rowAndColumnFrom_lineFeeds 0 (cutAt_ne_nil '\n' source) (fun l hl => notMem_of_mem_cutAt hl)
      (Nat.zero_le offset)
  have hfound : rowAndColumn (lineFeeds 0 source) offset = (0 + fore.length, column) := by
    rw [← hfound, rowAndColumn, ← splitLines, joinLines_splitLines]
  refine ⟨fore, raw, back, hlines, ?_, ?_, ?_⟩
  · rw [hfound, Nat.zero_add]
  · rw [hfound, hoffset, Nat.zero_add]
  · rw [hfound]
    exact hcolumn

/-! ## Order -/

/-- Of two offsets in order, the later one lies in a later line, or in the same line and not in front of the other. -/
theorem LiesAt.le (h : LiesAt source offset line column) (h' : LiesAt source other line' column')
    (hle : offset ≤ other) : line < line' ∨ line = line' ∧ column ≤ column' := by
  obtain ⟨fore, raw, back, hlines, rfl, rfl, -⟩ := h
  obtain ⟨fore', raw', back', hlines', rfl, rfl, hcolumn'⟩ := h'
  have hsame := hlines.symm.trans hlines'
  rcases Nat.lt_trichotomy fore.length fore'.length with hlt | heq | hgt
  · exact .inl (Nat.succ_lt_succ hlt)
  · obtain ⟨rfl, -⟩ := List.append_inj hsame heq
    exact .inr ⟨rfl, by omega⟩
  · -- the other offset would lie in a line that ends in front of the line of the earlier one
    obtain ⟨mid, hfore, hrest⟩ : ∃ mid, fore = fore' ++ raw' :: mid ∧ back' = mid ++ raw :: back := by
      rcases List.append_eq_append_iff.1 hsame with ⟨mid, hmid, -⟩ | ⟨mid, hmid, hrest⟩
      · have := congrArg List.length hmid
        rw [List.length_append] at this
        omega
      · cases mid with
        | nil =>
          rw [List.append_nil] at hmid
          exact absurd (congrArg List.length hmid) (by omega)
        | cons l mid =>
          obtain ⟨rfl, hback⟩ := List.cons.inj hrest
          exact ⟨mid, hmid, hback⟩
    have hcolumn := hcolumn' (by simp [hrest])
    rw [hfore, bytesBefore_append, bytesBefore_cons] at hle
    omega

/-- An offset lies in one place only. -/
theorem LiesAt.unique (h : LiesAt source offset line column) (h' : LiesAt source offset line' column') :
    line = line' ∧ column = column' := by
  have hle := h.le h' le_rfl
  have hge := h'.le h le_rfl
  omega

end TreeRepair
