import TreeRepair.Proofs.Prose.Comments

/-! Prose in the start of a text. If the first bytes of a text hold no line of prose at module scope, then neither do
the first bytes of the text with its prose commented out, whatever its other lines are. -/

set_option autoImplicit false

namespace TreeRepair.Prose

open Text

variable {n offset : Nat} {s : Scanner} {lines : List (List Char)} {raw : List Char}

/-- The lines of the first `limit` bytes of a text. -/
def keptLines : Nat → List (List Char) → List (List Char)
  | _, [] => []
  | limit, [raw] => [takeBytes raw limit]
  | limit, raw :: m :: ms =>
    if byteLength raw < limit then raw :: keptLines (limit - (byteLength raw + 1)) (m :: ms) else [takeBytes raw limit]

theorem keptLines_ne_nil (limit : Nat) (hne : lines ≠ []) : keptLines limit lines ≠ [] := by
  fun_cases keptLines limit lines with
  | case1 => exact absurd rfl hne
  | case2 => exact List.cons_ne_nil _ _
  | case3 => exact List.cons_ne_nil _ _
  | case4 => exact List.cons_ne_nil _ _

theorem notMem_of_mem_keptLines (limit : Nat) (h : ∀ l ∈ lines, '\n' ∉ l) : ∀ l ∈ keptLines limit lines, '\n' ∉ l := by
  have hstart : ∀ raw : List Char, '\n' ∉ raw → ∀ limit, '\n' ∉ takeBytes raw limit :=
    fun raw hraw limit hmem => hraw ((takeBytes_isPrefix raw limit).subset hmem)
  fun_induction keptLines limit lines with
  | case1 => exact h
  | case2 limit raw => simpa using hstart raw (h raw (List.mem_cons_self ..)) limit
  | case3 limit raw m ms hlt ih =>
    obtain ⟨hraw, hrest⟩ := List.forall_mem_cons.1 h
    exact List.forall_mem_cons.2 ⟨hraw, ih hrest⟩
  | case4 limit raw m ms hle => simpa using hstart raw (h raw (List.mem_cons_self ..)) limit

theorem takeBytes_joinLines (limit : Nat) (lines : List (List Char)) :
    takeBytes (joinLines lines) limit = joinLines (keptLines limit lines) := by
  fun_induction keptLines limit lines with
  | case1 => rfl
  | case2 limit raw => rw [joinLines, joinLines, List.intercalate_singleton, List.intercalate_singleton]
  | case3 limit raw m ms hlt ih =>
    have hfeed : takeBytes ('\n' :: joinLines (m :: ms)) (limit - byteLength raw) =
        '\n' :: takeBytes (joinLines (m :: ms)) (limit - (byteLength raw + 1)) :=
      takeBytes_append_of_le (l := ['\n']) (joinLines (m :: ms)) (Nat.le_sub_of_add_le (Nat.add_comm _ 1 ▸ hlt))
    obtain ⟨k, ks, hk⟩ := List.exists_cons_of_ne_nil (keptLines_ne_nil (limit - (byteLength raw + 1)) (List.cons_ne_nil m ms))
    rw [joinLines_cons_cons, takeBytes_append_of_le _ (Nat.le_of_lt hlt), hfeed, ih, hk, joinLines_cons_cons]
  | case4 limit raw m ms hle =>
    rw [joinLines_cons_cons, takeBytes_append _ (Nat.le_of_not_lt hle), joinLines, List.intercalate_singleton]

/-- Whether no line of prose among lines begins at module scope. -/
def Scanner.Plain : Scanner → List (List Char) → Prop
  | _, [] => True
  | s, raw :: rest => (s.atModuleScope && readsLikeProse (trim raw)) = false ∧ (s.throughLine raw).Plain rest

theorem strayAmong_eq_nil_iff : strayAmong n offset (s.scopes lines) lines = [] ↔ s.Plain lines := by
  induction lines generalizing n offset s with
  | nil => exact ⟨fun _ => trivial, fun _ => rfl⟩
  | cons raw rest ih =>
    rw [Scanner.scopes, strayAmong_cons, Scanner.Plain, List.headD_cons, List.tail_cons, ← ih (n := n + 1)]
    simp only
    split
    · rename_i hstray
      simp [hstray]
    · rename_i hnot
      exact (and_iff_right (Bool.eq_false_iff.2 hnot)).symm

theorem readsLikeProse_takeBytes_commentOut (raw : List Char) (limit : Nat) :
    readsLikeProse (trim (takeBytes (commentOut raw) limit)) = false := by
  by_cases hslash : '/' ∈ takeBytes (commentOut raw) limit
  · exact readsLikeProse_of_slash hslash
  · have hblank : ∀ c ∈ takeBytes (commentOut raw) limit, isBlank c = true := by
      have hstart := takeBytes_isPrefix (commentOut raw) limit
      rcases List.prefix_or_prefix_of_prefix hstart (List.prefix_append (raw.takeWhile isBlank) _) with h | h
      · exact fun c hc => all_takeWhile_isBlank raw c (h.subset hc)
      · obtain ⟨rest, hrest⟩ := h
        rw [← hrest] at hstart hslash ⊢
        cases rest with
        | nil => simpa using all_takeWhile_isBlank raw
        | cons c rest =>
          obtain ⟨rfl, -⟩ := List.cons_prefix_cons.1 ((List.prefix_append_right_inj _).1 hstart)
          exact absurd (List.mem_append_right _ (List.mem_cons_self ..)) hslash
    rw [trim_eq_nil_iff.2 hblank]
    rfl

theorem byteLength_commentOut (raw : List Char) : byteLength (commentOut raw) = byteLength raw + 3 := by
  have hraw : byteLength raw = byteLength (raw.takeWhile isBlank) + byteLength (raw.dropWhile isBlank) := by
    rw [← byteLength_append, List.takeWhile_append_dropWhile]
  have hmark : byteLength "// ".toList = 3 := by decide
  rw [commentOut, byteLength_append, byteLength_append, hmark, hraw]
  omega

theorem plain_takeBytes {scope : Bool} {limit : Nat} (h : (scope && readsLikeProse (trim (takeBytes raw limit))) = false) :
    (scope && readsLikeProse (trim (takeBytes
      (if (scope && readsLikeProse (trim raw)) = true then commentOut raw else raw) limit))) = false := by
  split
  · rw [readsLikeProse_takeBytes_commentOut, Bool.and_false]
  · exact h

theorem plain_keptLines (limit : Nat) (h : s.Plain (keptLines limit lines)) :
    s.Plain (keptLines limit (commentAmong (s.scopes lines) lines)) := by
  fun_induction keptLines limit lines generalizing s with
  | case1 => trivial
  | case2 limit raw => exact ⟨plain_takeBytes h.1, trivial⟩
  | case3 limit raw m ms hlt ih =>
    have hraw : ¬ (s.atModuleScope && readsLikeProse (trim raw)) = true := Bool.eq_false_iff.1 h.1
    rw [Scanner.scopes, commentAmong, List.headD_cons, List.tail_cons, if_neg hraw]
    have hrest := ih h.2
    rw [Scanner.scopes, commentAmong] at hrest ⊢
    rw [keptLines, if_pos hlt]
    exact ⟨h.1, hrest⟩
  | case4 limit raw m ms hle =>
    rw [Scanner.scopes, commentAmong, List.headD_cons, List.tail_cons, Scanner.scopes, commentAmong, keptLines, if_neg]
    · exact ⟨plain_takeBytes h.1, trivial⟩
    · split
      · rw [byteLength_commentOut]
        omega
      · exact hle

theorem splitLines_takeBytes (cs : List Char) (limit : Nat) :
    splitLines (takeBytes cs limit) = keptLines limit (splitLines cs) := by
  have hjoin := takeBytes_joinLines limit (splitLines cs)
  rw [joinLines_splitLines] at hjoin
  rw [hjoin]
  exact splitLines_joinLines (keptLines_ne_nil limit (cutAt_ne_nil '\n' cs))
    (notMem_of_mem_keptLines limit fun l hl => notMem_of_mem_cutAt hl)

theorem strayLines_takeBytes (cs : List Char) (limit : Nat) : strayLines (String.ofList (takeBytes cs limit)) =
    strayAmong 1 0 (Scanner.start.scopes (keptLines limit (splitLines cs))) (keptLines limit (splitLines cs)) := by
  rw [strayLines, String.toList_ofList, moduleScopeLineStarts_eq, splitLines_takeBytes]

theorem strayLines_takeBytes_eq_nil_iff {cs : List Char} {limit : Nat} :
    strayLines (String.ofList (takeBytes cs limit)) = [] ↔ Scanner.start.Plain (keptLines limit (splitLines cs)) := by
  rw [strayLines_takeBytes, strayAmong_eq_nil_iff]

theorem strayLines_takeBytes_commented {text : String} {limit : Nat}
    (h : strayLines (String.ofList (takeBytes text.toList limit)) = []) :
    strayLines (String.ofList (takeBytes (commented text).toList limit)) = [] := by
  rw [strayLines_takeBytes_eq_nil_iff] at h ⊢
  rw [splitLines_commented, moduleScopeLineStarts_eq]
  exact plain_keptLines limit h

end TreeRepair.Prose
