import Mathlib.Data.List.TakeWhile
import TreeRepair.Text.Lines
import TreeRepair.Text.Utf8

/-! Sequences cut at a separator and joined again, the lines of a text, and what trimming takes from its ends. -/

set_option autoImplicit false

namespace TreeRepair.Text

section Pieces

variable {α : Type} [DecidableEq α] {sep mark : α} {l cs xs ys : List α} {ls : List (List α)}

/-! ## Cutting -/

theorem cutAt_eq_splitOn (sep : α) (cs : List α) : cutAt sep cs = cs.splitOn sep := by
  induction cs with
  | nil => rfl
  | cons c cs ih =>
    rw [cutAt, ih, List.splitOn_cons_eq_if_modifyHead]
    simp only [beq_iff_eq]
    split
    · rfl
    · cases hcs : cs.splitOn sep with
      | nil => exact absurd hcs (List.splitOn_ne_nil sep cs)
      | cons l ls => rfl

theorem cutAt_ne_nil (sep : α) (cs : List α) : cutAt sep cs ≠ [] :=
  cutAt_eq_splitOn sep cs ▸ List.splitOn_ne_nil sep cs

theorem intercalate_cutAt (sep : α) (cs : List α) : [sep].intercalate (cutAt sep cs) = cs :=
  cutAt_eq_splitOn sep cs ▸ List.intercalate_splitOn sep

theorem cutAt_intercalate (hne : ls ≠ []) (h : ∀ l ∈ ls, sep ∉ l) : cutAt sep ([sep].intercalate ls) = ls :=
  cutAt_eq_splitOn sep _ ▸ List.splitOn_intercalate sep h hne

theorem cutAt_of_notMem (h : sep ∉ l) : cutAt sep l = [l] := by
  have hone : cutAt sep ([sep].intercalate [l]) = [l] := cutAt_intercalate (by simp) (by simpa using h)
  simpa using hone

theorem cutAt_append (h : sep ∉ l) (r : List α) : cutAt sep (l ++ sep :: r) = l :: cutAt sep r := by
  induction l with
  | nil => simp [cutAt]
  | cons c cs ih =>
    rw [List.mem_cons, not_or] at h
    simp [cutAt, Ne.symm h.1, ih h.2]

theorem notMem_of_mem_cutAt (h : l ∈ cutAt sep cs) : sep ∉ l := by
  induction cs generalizing l with
  | nil => simp_all [cutAt]
  | cons c cs ih =>
    rw [cutAt] at h
    split at h
    · rcases List.mem_cons.1 h with rfl | h
      · simp
      · exact ih h
    · rename_i hc
      split at h
      · rw [List.mem_singleton] at h
        subst h
        simp [Ne.symm hc]
      · rename_i x xs hx
        rw [hx] at ih
        rcases List.mem_cons.1 h with rfl | h
        · simp [Ne.symm hc, ih (List.mem_cons_self ..)]
        · exact ih (List.mem_cons_of_mem x h)

theorem mem_of_mem_cutAt {a : α} (h : l ∈ cutAt sep cs) (ha : a ∈ l) : a ∈ cs := by
  induction cs generalizing l with
  | nil => simp_all [cutAt]
  | cons c cs ih =>
    rw [cutAt] at h
    split at h
    · rcases List.mem_cons.1 h with rfl | h
      · simp at ha
      · exact List.mem_cons_of_mem c (ih h ha)
    · split at h
      · rw [List.mem_singleton.1 h, List.mem_singleton] at ha
        exact ha ▸ List.mem_cons_self ..
      · rename_i x xs hx
        rw [hx] at ih
        rcases List.mem_cons.1 h with rfl | h
        · rcases List.mem_cons.1 ha with rfl | ha
          · exact List.mem_cons_self ..
          · exact List.mem_cons_of_mem c (ih (List.mem_cons_self ..) ha)
        · exact List.mem_cons_of_mem c (ih (List.mem_cons_of_mem x h) ha)

theorem cutAt_flatMap (h : ∀ l ∈ ls, sep ∉ l) : cutAt sep (ls.flatMap (· ++ [sep])) = ls ++ [[]] := by
  induction ls with
  | nil => rfl
  | cons l rest ih =>
    rw [List.flatMap_cons, List.append_assoc, List.singleton_append, cutAt_append (h l (List.mem_cons_self ..)),
      ih fun m hm => h m (List.mem_cons_of_mem l hm)]
    rfl

theorem cutAt_append_cons {ps qs : List (List α)} {t q : List α} (hx : cutAt sep xs = ps ++ [t])
    (hy : cutAt sep ys = q :: qs) : cutAt sep (xs ++ ys) = ps ++ (t ++ q) :: qs := by
  induction xs generalizing ps t with
  | nil =>
    obtain ⟨rfl, rfl⟩ : ps = [] ∧ t = [] := by
      cases ps with
      | nil => exact ⟨rfl, (List.cons.inj hx).1.symm⟩
      | cons p ps => simp [cutAt] at hx
    exact hy
  | cons c cs ih =>
    rw [cutAt] at hx
    rw [List.cons_append, cutAt]
    split at hx
    · rename_i hc
      rw [if_pos hc]
      obtain ⟨ps', rfl, hcs⟩ : ∃ ps', ps = [] :: ps' ∧ cutAt sep cs = ps' ++ [t] := by
        cases ps with
        | nil => exact absurd (List.cons.inj hx).2 (cutAt_ne_nil sep cs)
        | cons p ps => exact ⟨ps, by rw [(List.cons.inj hx).1], (List.cons.inj hx).2⟩
      rw [ih hcs]
      rfl
    · rename_i hc
      rw [if_neg hc]
      cases hcs : cutAt sep cs with
      | nil => exact absurd hcs (cutAt_ne_nil sep cs)
      | cons l ls =>
        rw [hcs] at hx
        cases ps with
        | nil =>
          obtain ⟨rfl, rfl⟩ := List.cons.inj hx
          rw [@ih [] _ hcs]
          rfl
        | cons p ps =>
          obtain ⟨rfl, rfl⟩ := List.cons.inj hx
          rw [@ih (l :: ps) _ hcs]
          rfl

theorem cutAt_append_sep (sep : α) (xs ys : List α) : cutAt sep (xs ++ sep :: ys) = cutAt sep xs ++ cutAt sep ys := by
  obtain ⟨ps, t, hx⟩ := (List.eq_nil_or_concat (cutAt sep xs)).resolve_left (cutAt_ne_nil sep xs)
  rw [List.concat_eq_append] at hx
  have hy : cutAt sep (sep :: ys) = [] :: cutAt sep ys := by rw [cutAt, if_pos rfl]
  rw [cutAt_append_cons hx hy, hx, List.append_nil, List.append_assoc, List.singleton_append]

theorem cutAt_map_mark (hne : mark ≠ sep) (cs : List α) :
    cutAt sep (cs.map fun c => if c = mark then sep else c) = (cutAt sep cs).flatMap (cutAt mark) := by
  induction cs with
  | nil => rfl
  | cons c cs ih =>
    obtain ⟨l, ls, hcut⟩ := List.exists_cons_of_ne_nil (cutAt_ne_nil sep cs)
    obtain ⟨p, ps, hmark⟩ := List.exists_cons_of_ne_nil (cutAt_ne_nil mark l)
    rw [hcut, List.flatMap_cons, hmark, List.cons_append] at ih
    rw [List.map_cons]
    by_cases hc : c = mark
    · subst hc
      simp [cutAt, hne, ih, hcut, hmark]
    · by_cases hs : c = sep
      · subst hs
        simp [cutAt, hc, ih, hcut, hmark]
      · simp [cutAt, hc, hs, ih, hcut, hmark]

/-! ## Marks in front of a separator -/

theorem dropMark_of_notMem (h : mark ∉ l) : dropMark mark l = l := by
  fun_induction dropMark mark l with
  | case1 => rfl
  | case2 => exact absurd (List.mem_singleton_self mark) h
  | case3 => rfl
  | case4 c d cs ih => rw [ih fun hm => h (List.mem_cons_of_mem c hm)]

theorem dropMark_append (hy : ys ≠ []) : dropMark mark (xs ++ ys) = xs ++ dropMark mark ys := by
  induction xs with
  | nil => rfl
  | cons c cs ih =>
    obtain ⟨d, ds, hd⟩ := List.exists_cons_of_ne_nil (l := cs ++ ys) (by simp [hy])
    rw [List.cons_append, hd, dropMark, ← hd, ih, List.cons_append]

theorem closeLines_append_singleton (ls : List (List α)) (t : List α) :
    closeLines mark (ls ++ [t]) = ls.map (dropMark mark) ++ (if t = [] then [] else [t]) := by
  induction ls with
  | nil => rw [List.nil_append, closeLines, List.map_nil, List.nil_append]
  | cons l rest ih =>
    obtain ⟨m, ms, hm⟩ := List.exists_cons_of_ne_nil (l := rest ++ [t]) (by simp)
    rw [List.cons_append, hm, closeLines, ← hm, ih, List.map_cons, List.cons_append]

theorem closeLines_concat (h : ∀ l ∈ ls, mark ∉ l) : closeLines mark (ls ++ [[]]) = ls := by
  rw [closeLines_append_singleton, if_pos rfl, List.append_nil]
  exact (List.map_congr_left fun l hl => dropMark_of_notMem (h l hl)).trans (List.map_id' ls)

theorem eq_dropMark_or (mark : α) (l : List α) : l = dropMark mark l ∨ l = dropMark mark l ++ [mark] := by
  fun_induction dropMark mark l with
  | case1 => exact .inl rfl
  | case2 => exact .inr rfl
  | case3 => exact .inl rfl
  | case4 c d cs ih => simpa using ih

theorem mem_closeLines (hl : l ∈ ls) (hne : l ≠ []) : l ∈ closeLines mark ls ∨ dropMark mark l ∈ closeLines mark ls := by
  induction ls with
  | nil => exact absurd hl List.not_mem_nil
  | cons k rest ih =>
    cases rest with
    | nil =>
      obtain rfl := List.mem_singleton.1 hl
      exact .inl (by simp [closeLines, hne])
    | cons m ms =>
      rw [closeLines]
      rcases List.mem_cons.1 hl with rfl | hl
      · exact .inr (List.mem_cons_self ..)
      · exact (ih hl).imp (List.mem_cons_of_mem _) (List.mem_cons_of_mem _)

end Pieces

/-! ## Trimming -/

section Trimming

variable {c : Char} {cs l r : List Char}

theorem mem_trimEnd (hc : c ∈ cs) (hblank : isBlank c = false) : c ∈ trimEnd cs := by
  induction cs with
  | nil => exact hc
  | cons d cs ih =>
    rw [trimEnd]
    rcases List.mem_cons.1 hc with rfl | hc
    · cases trimEnd cs <;> simp [hblank]
    · have hmem := ih hc
      cases hend : trimEnd cs with
      | nil => exact absurd (hend ▸ hmem) List.not_mem_nil
      | cons e es => exact List.mem_cons_of_mem d (hend ▸ hmem)

theorem mem_trim (hc : c ∈ cs) (hblank : isBlank c = false) : c ∈ trim cs := by
  refine mem_trimEnd ?_ hblank
  rw [← List.takeWhile_append_dropWhile (p := isBlank) (l := cs), List.mem_append] at hc
  rcases hc with hc | hc
  · exact absurd (List.all_eq_true.1 List.all_takeWhile c hc) (by simp [hblank])
  · exact hc

theorem trim_eq_nil_iff : trim cs = [] ↔ ∀ c ∈ cs, isBlank c = true := by
  refine ⟨fun h c hc => ?_, fun h => by rw [trim, trimStart, List.dropWhile_eq_nil_iff.2 h, trimEnd]⟩
  rw [← Bool.not_eq_false]
  exact fun hblank => List.not_mem_nil (h ▸ mem_trim hc hblank)

theorem trim_ne_nil (hc : isBlank c = false) (cs : List Char) : trim (c :: cs) ≠ [] :=
  List.ne_nil_of_mem (mem_trim (List.mem_cons_self ..) hc)

theorem trimEnd_append (l : List Char) (h : trimEnd r ≠ []) : trimEnd (l ++ r) = l ++ trimEnd r := by
  induction l with
  | nil => rfl
  | cons c l ih =>
    obtain ⟨d, ds, hd⟩ := List.exists_cons_of_ne_nil (l := l ++ trimEnd r) (by simp [h])
    rw [List.cons_append, trimEnd, ih, hd, List.cons_append, hd]

theorem trimEnd_concat (l : List Char) (hc : isBlank c = true) : trimEnd (l ++ [c]) = trimEnd l := by
  induction l with
  | nil => simp [trimEnd, hc]
  | cons d l ih => rw [List.cons_append, trimEnd, trimEnd, ih]

theorem trim_concat (l : List Char) (hc : isBlank c = true) : trim (l ++ [c]) = trim l := by
  rw [trim, trim, trimStart, trimStart, List.dropWhile_append]
  split
  · rename_i hempty
    rw [List.isEmpty_iff.1 hempty, List.dropWhile_cons_of_pos hc, List.dropWhile_nil]
  · exact trimEnd_concat _ hc

theorem trim_dropMark (hc : isBlank c = true) (l : List Char) : trim (dropMark c l) = trim l := by
  rcases eq_dropMark_or c l with h | h
  · exact congrArg trim h.symm
  · exact ((congrArg trim h).trans (trim_concat _ hc)).symm

theorem exists_textLine (h : l ∈ splitLines cs) (hne : trim l ≠ []) : ∃ k ∈ textLines cs, trim k = trim l := by
  have hl : l ≠ [] := by
    rintro rfl
    exact hne rfl
  have hclosed : l ∈ textLines cs ∨ dropMark '\r' l ∈ textLines cs := mem_closeLines h hl
  rcases hclosed with hk | hk
  · exact ⟨l, hk, rfl⟩
  · exact ⟨_, hk, trim_dropMark (by decide) l⟩

theorem trimEnd_isPrefix (cs : List Char) : trimEnd cs <+: cs := by
  induction cs with
  | nil => exact List.prefix_rfl
  | cons c cs ih =>
    rw [trimEnd]
    split
    · split
      · exact List.nil_prefix
      · exact List.cons_prefix_cons.2 ⟨rfl, List.nil_prefix⟩
    · rename_i hend
      exact List.cons_prefix_cons.2 ⟨rfl, hend ▸ ih⟩

theorem isBlank_of_getLast?_trimEnd (h : (trimEnd cs).getLast? = some c) : isBlank c = false := by
  induction cs with
  | nil => cases h
  | cons d cs ih =>
    rw [trimEnd] at h
    split at h
    · split at h
      · cases h
      · rename_i hblank
        obtain rfl : d = c := Option.some.inj h
        exact Bool.eq_false_iff.2 hblank
    · rename_i hend
      rw [List.getLast?_cons_cons, ← hend] at h
      exact ih h

theorem isBlank_of_head?_trim (h : (trim cs).head? = some c) : isBlank c = false := by
  obtain ⟨rest, hrest⟩ := List.head?_eq_some_iff.1 h
  obtain ⟨tail, htail⟩ := trimEnd_isPrefix (trimStart cs)
  have hfirst : (cs.dropWhile isBlank).head? = some c := by
    rw [← trimStart, ← htail, ← trim, hrest]
    rfl
  have hnot := List.head?_dropWhile_not isBlank cs
  rw [hfirst] at hnot
  simpa using hnot

end Trimming

/-! ## Lines -/

/-- The text that has the given lines. -/
def joinLines (lines : List (List Char)) : List Char := ['\n'].intercalate lines

theorem joinLines_cons_cons (l m : List Char) (ls : List (List Char)) :
    joinLines (l :: m :: ls) = l ++ '\n' :: joinLines (m :: ls) := by
  rw [joinLines, List.intercalate_cons_cons, List.append_assoc]
  rfl

theorem joinLines_splitLines (cs : List Char) : joinLines (splitLines cs) = cs := intercalate_cutAt '\n' cs

theorem splitLines_joinLines {lines : List (List Char)} (hne : lines ≠ []) (h : ∀ l ∈ lines, '\n' ∉ l) :
    splitLines (joinLines lines) = lines := cutAt_intercalate hne h

theorem joinLines_append_cons (fore : List (List Char)) (raw : List Char) (back : List (List Char)) :
    joinLines (fore ++ raw :: back) = fore.flatMap (· ++ ['\n']) ++ joinLines (raw :: back) := by
  induction fore with
  | nil => rfl
  | cons l fore ih =>
    obtain ⟨m, ms, hm⟩ := List.exists_cons_of_ne_nil (l := fore ++ raw :: back) (by simp)
    rw [List.cons_append, hm, joinLines_cons_cons, ← hm, ih, List.flatMap_cons, List.append_assoc, List.append_assoc]
    rfl

/-- The bytes in front of a line of a text that stands behind others. -/
def bytesBefore (fore : List (List Char)) : Nat := byteLength (fore.flatMap (· ++ ['\n']))

theorem bytesBefore_append (fore back : List (List Char)) :
    bytesBefore (fore ++ back) = bytesBefore fore + bytesBefore back := by
  rw [bytesBefore, List.flatMap_append, byteLength_append, bytesBefore, bytesBefore]

theorem bytesBefore_cons (raw : List Char) (fore : List (List Char)) :
    bytesBefore (raw :: fore) = byteLength raw + 1 + bytesBefore fore := by
  have hfeed : byteLength ['\n'] = 1 := rfl
  rw [bytesBefore, List.flatMap_cons, byteLength_append, byteLength_append, hfeed, bytesBefore]

end TreeRepair.Text
