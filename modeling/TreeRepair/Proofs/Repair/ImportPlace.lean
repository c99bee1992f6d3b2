import Mathlib.Data.List.Pairwise
import Mathlib.Data.List.TakeWhile
import TreeRepair.Proofs.Text.Boundaries
import TreeRepair.Repair.Builtin

/-! Where the line that imports the rendering library goes. It goes to the line behind the one where the directives end,
so what begins on that line and goes on behind it is cut in two. And a directive with a comment inside is not taken for
one, so the line may go in front of it. -/

set_option autoImplicit false

namespace TreeRepair

open Text

/-! ## Line feeds -/

theorem mem_lineFeeds {k n : Nat} {cs : List Char} :
    k ∈ lineFeeds n cs ↔ ∃ l r, cs = l ++ '\n' :: r ∧ k = n + byteLength l := by
  induction cs generalizing n with
  | nil => simp [lineFeeds]
  | cons c cs ih =>
    have hrest : (∃ l r, c :: cs = l ++ '\n' :: r ∧ k = n + byteLength l) ↔
        (c = '\n' ∧ k = n) ∨ ∃ l r, cs = l ++ '\n' :: r ∧ k = n + c.utf8Size + byteLength l := by
      constructor
      · rintro ⟨l, r, hcs, rfl⟩
        cases l with
        | nil => exact .inl ⟨(List.cons.inj hcs).1, rfl⟩
        | cons d l =>
          obtain ⟨rfl, rfl⟩ := List.cons.inj hcs
          exact .inr ⟨l, r, rfl, by rw [byteLength, Nat.add_assoc]⟩
      · rintro (⟨rfl, rfl⟩ | ⟨l, r, rfl, rfl⟩)
        · exact ⟨[], cs, rfl, rfl⟩
        · exact ⟨c :: l, r, rfl, by rw [byteLength, Nat.add_assoc]⟩
    rw [hrest, ← ih, lineFeeds]
    split
    · rename_i hc
      subst hc
      simp [show '\n'.utf8Size = 1 from rfl]
    · rename_i hc
      simp [hc]

/-- Whether a line of a text ends between two offsets. -/
def Breaks (source : String) (a b : Nat) : Prop := ∃ k ∈ lineFeeds 0 source.toList, a ≤ k ∧ k < b

instance (source : String) (a b : Nat) : Decidable (Breaks source a b) :=
  inferInstanceAs (Decidable (∃ k ∈ lineFeeds 0 source.toList, a ≤ k ∧ k < b))

theorem takeWhile_isPrefix (m r : List Char) : (m ++ '\n' :: r).takeWhile (· != '\n') <+: m := by
  rw [List.takeWhile_append]
  split
  · simp
  · exact List.takeWhile_prefix _

theorem nextLine?_spec {source : String} {a o : Nat} (h : nextLine? source a = some o) :
    a ≤ o ∧ (∀ k ∈ lineFeeds 0 source.toList, a ≤ k → o ≤ k + 1) ∧
      (o = source.utf8ByteSize ∨ ∃ k ∈ lineFeeds 0 source.toList, a ≤ k ∧ o = k + 1) := by
  obtain ⟨⟨l, rest⟩, hsplit, ho⟩ := Option.map_eq_some_iff.1 h
  obtain ⟨hcs, rfl⟩ := eq_append_of_splitAt? hsplit
  obtain ⟨line, hline⟩ : ∃ line, line = rest.takeWhile (· != '\n') := ⟨_, rfl⟩
  have hnear : ∀ k ∈ lineFeeds 0 source.toList, byteLength l ≤ k → byteLength l + byteLength line ≤ k := by
    intro k hk hle
    obtain ⟨front, back, hfront, rfl⟩ := mem_lineFeeds.1 hk
    rw [Nat.zero_add] at hle ⊢
    obtain ⟨m, rfl⟩ : l <+: front :=
      isPrefix_of_byteLength_le (hfront ▸ hcs ▸ List.prefix_append l rest) hle
    have hrest : rest = m ++ '\n' :: back :=
      List.append_cancel_left (hcs.symm.trans (hfront.trans (List.append_assoc ..)))
    have hprefix : line <+: m := hline ▸ hrest ▸ takeWhile_isPrefix m back
    rw [byteLength_append]
    exact Nat.add_le_add_left (byteLength_le_of_isPrefix hprefix) _
  have hsize : source.utf8ByteSize = byteLength l + byteLength rest := by
    rw [utf8ByteSize_eq, hcs, byteLength_append]
  have hback : line ++ rest.dropWhile (· != '\n') = rest := hline ▸ List.takeWhile_append_dropWhile
  have hfeed := List.head?_dropWhile_not (· != '\n') rest
  simp only [← hline, hcs, byteLength_append] at ho
  cases hdrop : rest.dropWhile (· != '\n') with
  | nil =>
    -- no line feed is left: the offset is the end of the text
    obtain rfl : line = rest := by rw [← hback, hdrop, List.append_nil]
    rw [if_neg (Nat.lt_irrefl _)] at ho
    subst ho
    exact ⟨Nat.le_add_right .., fun k hk hle => Nat.le_succ_of_le (hnear k hk hle), .inl hsize.symm⟩
  | cons c back =>
    rw [hdrop] at hback hfeed
    obtain rfl : c = '\n' := by simpa using hfeed
    have hmem : byteLength l + byteLength line ∈ lineFeeds 0 source.toList :=
      mem_lineFeeds.2 ⟨l ++ line, back, by rw [hcs, ← hback, List.append_assoc], by rw [byteLength_append, Nat.zero_add]⟩
    have hlt : byteLength l + byteLength line < byteLength l + byteLength rest := by
      have hone : '\n'.utf8Size = 1 := rfl
      rw [← hback, byteLength_append, byteLength, hone]
      omega
    rw [if_pos hlt] at ho
    subst ho
    exact ⟨by omega, fun k hk hle => Nat.succ_le_succ (hnear k hk hle), .inr ⟨_, hmem, Nat.le_add_right .., rfl⟩⟩

namespace ParsedUnit

/-! ## Well-formed arenas -/

/-- Where a node begins. -/
def startOf (u : ParsedUnit) (i : Nat) : Nat := (u.node? i).elim 0 (·.start)

/-- Where a node ends. -/
def stopOf (u : ParsedUnit) (i : Nat) : Nat := (u.node? i).elim 0 (·.stop)

/-- What stands in a source outside of anything else. -/
def topLevel (u : ParsedUnit) : List Nat := u.root?.elim [] u.children

/-- What stands in a source outside of anything else, tokens left out. -/
def statements (u : ParsedUnit) : List Nat := u.root?.elim [] u.namedChildren

/-- Whether two nodes have no byte in common. -/
def Apart (u : ParsedUnit) (a b : Nat) : Prop := u.stopOf a ≤ u.startOf b ∨ u.stopOf b ≤ u.startOf a

instance (u : ParsedUnit) : Std.Symm u.Apart := ⟨fun _ _ => Or.symm⟩

/-- An arena that is a tree over its source: children one after another and inside their parents. -/
structure Nested (u : ParsedUnit) : Prop where
  ordered : ∀ n ∈ u.nodes.toList, n.children.Pairwise fun a b => u.stopOf a ≤ u.startOf b
  inside : ∀ n ∈ u.nodes.toList, ∀ c ∈ n.children, n.start ≤ u.startOf c ∧ u.startOf c ≤ u.stopOf c ∧ u.stopOf c ≤ n.stop
  bounded : ∀ n ∈ u.nodes.toList, n.stop ≤ u.source.utf8ByteSize

variable {u : ParsedUnit}

theorem topLevel_eq_nil_or (u : ParsedUnit) : u.topLevel = [] ∨ ∃ n ∈ u.nodes.toList, u.topLevel = n.children := by
  rw [topLevel, root?]
  split
  · exact .inl rfl
  · rename_i hne
    have hpos : 0 < u.nodes.size := by simpa [Array.isEmpty_iff, Array.size_pos_iff] using hne
    refine .inr ⟨u.nodes[0], by simp, ?_⟩
    rw [Option.elim_some, children, node?, Array.getElem?_eq_getElem hpos, Option.elim_some]

theorem statements_sublist (u : ParsedUnit) : u.statements.Sublist u.topLevel := by
  rw [statements, topLevel]
  cases u.root? with
  | none => exact List.Sublist.refl _
  | some r => exact List.filter_sublist

namespace Nested

variable (h : u.Nested) {a b : Nat}

include h

theorem topLevel_ordered : u.topLevel.Pairwise fun a b => u.stopOf a ≤ u.startOf b := by
  rcases u.topLevel_eq_nil_or with hnil | ⟨n, hn, heq⟩
  · exact hnil ▸ List.Pairwise.nil
  · exact heq ▸ h.ordered n hn

theorem statements_ordered : u.statements.Pairwise fun a b => u.stopOf a ≤ u.startOf b :=
  h.topLevel_ordered.sublist u.statements_sublist

theorem start_le_stop (ha : a ∈ u.topLevel) : u.startOf a ≤ u.stopOf a ∧ u.stopOf a ≤ u.source.utf8ByteSize := by
  rcases u.topLevel_eq_nil_or with hnil | ⟨n, hn, heq⟩
  · rw [hnil] at ha
    cases ha
  · obtain ⟨-, hle, hstop⟩ := h.inside n hn a (heq ▸ ha)
    exact ⟨hle, Nat.le_trans hstop (h.bounded n hn)⟩

theorem apart (ha : a ∈ u.topLevel) (hb : b ∈ u.topLevel) (hne : a ≠ b) : u.Apart a b := by
  have hapart : u.topLevel.Pairwise u.Apart := h.topLevel_ordered.imp Or.inl
  exact hapart.forall ha hb hne

end Nested

/-! ## Directives -/

/-- Whether a statement has a comment inside. -/
def holdsComment (u : ParsedUnit) (statement : Nat) : Bool := (u.namedChildren statement).any (u.kind · == "comment")

/-- Whether a statement is a lone string, comments aside. -/
def isLoneString (u : ParsedUnit) (statement : Nat) : Bool :=
  u.kind statement == "expression_statement"
    && match (u.namedChildren statement).filter (u.kind · != "comment") with
      | [inner] => u.kind inner == "string"
      | _ => false

/-- The comments, the line that names an interpreter and the lone strings in front of all other statements. -/
def prologue (u : ParsedUnit) : List Nat :=
  u.statements.takeWhile fun s => u.kind s == "comment" || u.kind s == "hash_bang_line" || u.isLoneString s

/-- The directives of a source: the lone strings in front of all other statements. -/
def directives (u : ParsedUnit) : List Nat := u.prologue.filter u.isLoneString

/-- Whether the search for directives goes on behind a statement. -/
def isPassed (u : ParsedUnit) (statement : Nat) : Bool := u.kind statement == "comment" || u.isDirective statement

/-- The directives that are found, the line that names an interpreter among them. -/
def found (u : ParsedUnit) : List Nat := (u.statements.takeWhile u.isPassed).filter u.isDirective

/-- The statements from the first one on where no directive is found and that is no comment. -/
def unsearched (u : ParsedUnit) : List Nat := u.statements.dropWhile u.isPassed

theorem isDirective_of_comment {s : Nat} (h : u.kind s = "comment") : u.isDirective s = false := by
  simp [isDirective, h]

theorem isDirective_iff {s : Nat} : u.isDirective s = true ↔
    u.kind s = "hash_bang_line" ∨ u.isLoneString s = true ∧ u.holdsComment s = false := by
  rw [isDirective, isLoneString, holdsComment, Bool.or_eq_true, beq_iff_eq, Bool.and_eq_true, Bool.and_eq_true, and_assoc]
  refine or_congr_right (and_congr_right fun _ => ⟨fun h => ?_, fun ⟨h, hcomment⟩ => ?_⟩)
  · split at h
    · rename_i inner hinner
      have hstring : u.kind inner = "string" := by simpa using h
      simp [hinner, hstring]
    · simp at h
  · have hall : (u.namedChildren s).filter (u.kind · != "comment") = u.namedChildren s := by
      refine List.filter_eq_self.2 fun c hc => ?_
      simpa using List.any_eq_false.1 hcomment c hc
    rwa [hall] at h

theorem directivesEnd_eq (stop : Nat) (ss : List Nat) :
    u.directivesEnd stop ss = ((ss.takeWhile u.isPassed).filter u.isDirective).getLast?.elim stop u.stopOf := by
  fun_induction u.directivesEnd stop ss with
  | case1 stop => rfl
  | case2 stop s rest hcomment ih =>
    have hpassed : u.isPassed s = true := by simp [isPassed, hcomment]
    rw [ih, List.takeWhile_cons_of_pos hpassed, List.filter_cons_of_neg (by simp [isDirective_of_comment hcomment])]
  | case3 stop s rest hcomment hdirective ih =>
    have hpassed : u.isPassed s = true := by simp [isPassed, hdirective]
    rw [ih, List.takeWhile_cons_of_pos hpassed, List.filter_cons_of_pos hdirective, List.getLast?_cons]
    cases ((rest.takeWhile u.isPassed).filter u.isDirective).getLast? <;> rfl
  | case4 stop s rest hcomment hdirective =>
    have hpassed : ¬u.isPassed s = true := by simp [isPassed, hcomment, hdirective]
    rw [List.takeWhile_cons_of_neg hpassed]
    rfl

theorem prologueEnd_eq (u : ParsedUnit) : u.prologueEnd = u.found.getLast?.elim 0 u.stopOf := by
  rw [prologueEnd, found, statements]
  cases u.root? with
  | none => rfl
  | some r => exact directivesEnd_eq 0 _

theorem prologueEnd_cases (u : ParsedUnit) :
    (u.found = [] ∧ u.prologueEnd = 0) ∨ ∃ front d, u.found = front ++ [d] ∧ u.prologueEnd = u.stopOf d := by
  rw [prologueEnd_eq]
  cases hlast : u.found.getLast? with
  | none => exact .inl ⟨List.getLast?_eq_none_iff.1 hlast, rfl⟩
  | some d =>
    obtain ⟨front, hfound⟩ := List.getLast?_eq_some_iff.1 hlast
    exact .inr ⟨front, d, hfound, rfl⟩

theorem found_sublist (u : ParsedUnit) : u.found.Sublist u.statements :=
  List.filter_sublist.trans (List.takeWhile_sublist _)

theorem mem_topLevel_of_found {s : Nat} (hs : s ∈ u.found) : s ∈ u.topLevel :=
  u.statements_sublist.subset (u.found_sublist.subset hs)

namespace Nested

variable (h : u.Nested) {s : Nat}

include h

theorem stop_le_prologueEnd (hs : s ∈ u.found) : u.stopOf s ≤ u.prologueEnd := by
  rcases u.prologueEnd_cases with ⟨hnone, -⟩ | ⟨front, d, hfound, hend⟩
  · rw [hnone] at hs
    cases hs
  · have hd : d ∈ u.topLevel := mem_topLevel_of_found (hfound ▸ List.mem_concat_self)
    have hordered : (front ++ [d]).Pairwise fun a b => u.stopOf a ≤ u.startOf b :=
      hfound ▸ h.statements_ordered.sublist u.found_sublist
    rw [hend]
    rcases List.mem_append.1 (hfound ▸ hs) with hs | hs
    · have hle := (List.pairwise_append.1 hordered).2.2 s hs d (List.mem_singleton_self d)
      exact Nat.le_trans hle (h.start_le_stop hd).1
    · exact List.mem_singleton.1 hs ▸ Nat.le_refl _

theorem prologueEnd_apart (hs : s ∈ u.topLevel) : u.stopOf s ≤ u.prologueEnd ∨ u.prologueEnd ≤ u.startOf s := by
  rcases u.prologueEnd_cases with ⟨-, hend⟩ | ⟨front, d, hfound, hend⟩
  · rw [hend]
    exact .inr (Nat.zero_le _)
  · have hd : d ∈ u.topLevel := mem_topLevel_of_found (hfound ▸ List.mem_concat_self)
    rw [hend]
    by_cases heq : s = d
    · exact .inl (heq ▸ Nat.le_refl _)
    · exact (h.apart hs hd heq).imp_left fun hle => Nat.le_trans hle (h.start_le_stop hd).1

end Nested

theorem isPassed_of_isLoneString {s : Nat} (h : u.isLoneString s = true) : u.isPassed s = u.isDirective s := by
  rw [isLoneString, Bool.and_eq_true, beq_iff_eq] at h
  have hcomment : (u.kind s == "comment") = false := by rw [h.1]; decide
  rw [isPassed, hcomment, Bool.false_or]

theorem mem_found_or {d : Nat} (hd : d ∈ u.directives) : d ∈ u.found ∨ d ∈ u.unsearched := by
  obtain ⟨hmem, hlone⟩ := List.mem_filter.1 hd
  have hstatement := (List.takeWhile_sublist _).subset hmem
  rw [← List.takeWhile_append_dropWhile (p := u.isPassed) (l := u.statements), List.mem_append] at hstatement
  refine hstatement.imp_left fun hpassed => List.mem_filter.2 ⟨hpassed, ?_⟩
  rw [← isPassed_of_isLoneString hlone]
  exact List.mem_takeWhile_imp hpassed

theorem directives_subset_found (hplain : ∀ d ∈ u.directives, u.holdsComment d = false) : u.directives ⊆ u.found := by
  have hdirective : ∀ s ∈ u.directives, u.isDirective s = true := fun s hs =>
    isDirective_iff.2 (.inr ⟨(List.mem_filter.1 hs).2, hplain s hs⟩)
  have hpassed : ∀ s ∈ u.prologue, u.isPassed s = true := by
    intro s hs
    have hkind := List.mem_takeWhile_imp hs
    rw [Bool.or_eq_true, Bool.or_eq_true, beq_iff_eq, beq_iff_eq] at hkind
    rw [isPassed, Bool.or_eq_true, beq_iff_eq]
    rcases hkind with (hcomment | hbang) | hlone
    · exact .inl hcomment
    · exact .inr (isDirective_iff.2 (.inl hbang))
    · exact .inr (hdirective s (List.mem_filter.2 ⟨hs, hlone⟩))
  intro d hd
  obtain ⟨rest, hrest⟩ : u.prologue <+: u.statements := List.takeWhile_prefix _
  refine List.mem_filter.2 ⟨?_, hdirective d hd⟩
  rw [← hrest, List.takeWhile_append_of_pos hpassed]
  exact List.mem_append_left _ (List.mem_filter.1 hd).1

end ParsedUnit

open ParsedUnit

/-! ## The new line -/

theorem importOffset?_of_propose {u : ParsedUnit} {source : String} {offset : Nat}
    (h : Rule.ensureRenderImport.propose u source = .ok [insertImport source offset]) :
    importOffset? u source = some offset := by
  have hline : (insertImport source offset).replacement ≠ renderBinding ++ ", " := by
    have hplain : importLine ≠ renderBinding ++ ", " := by decide
    have hopen : "\n" ++ importLine ≠ renderBinding ++ ", " := by decide
    rw [insertImport, Edit.insert]
    split
    · exact hopen
    · exact hplain
  have hpropose : proposeImport u source = .ok [insertImport source offset] := h
  rw [proposeImport] at hpropose
  split at hpropose
  · simp at hpropose
  · split at hpropose
    · rename_i o hclause
      obtain ⟨hedit, -⟩ := List.cons.inj (Except.ok.inj hpropose)
      exact absurd (congrArg Edit.replacement hedit).symm hline
    · split at hpropose
      · rename_i o ho
        obtain ⟨hedit, -⟩ := List.cons.inj (Except.ok.inj hpropose)
        rw [ho, ← show o = offset from congrArg Edit.start hedit]
      · cases hpropose

theorem importOffset?_cases {u : ParsedUnit} {source : String} {offset : Nat} (h : importOffset? u source = some offset) :
    (u.prologueEnd = 0 ∧ offset = 0) ∨ (u.prologueEnd ≠ 0 ∧ nextLine? source u.prologueEnd = some offset) := by
  rw [importOffset?] at h
  split at h
  · exact .inl ⟨‹_›, (Option.some.inj h).symm⟩
  · exact .inr ⟨‹_›, h⟩

/-- The new line goes in front of the end of something exactly if nothing is found to be a directive, or if a line ends
between the directives and the last byte of it. -/
theorem lt_stopOf_iff {u : ParsedUnit} {offset s : Nat} (hnested : u.Nested)
    (hoffset : importOffset? u u.source = some offset) (hs : s ∈ u.topLevel) :
    offset < u.stopOf s ↔ 0 < u.stopOf s ∧
      (u.prologueEnd = 0 ∨ Breaks u.source u.prologueEnd (u.stopOf s - 1)) := by
  have hsize := (hnested.start_le_stop hs).2
  rcases importOffset?_cases hoffset with ⟨hend, rfl⟩ | ⟨hend, hnext⟩
  · exact (and_iff_left (.inl hend)).symm
  · obtain ⟨-, hnear, hbehind⟩ := nextLine?_spec hnext
    rw [or_iff_right hend]
    constructor
    · intro hlt
      obtain ⟨k, hk, hle, rfl⟩ := hbehind.resolve_left (by omega)
      exact ⟨by omega, k, hk, hle, by omega⟩
    · rintro ⟨-, k, hk, hle, hlt⟩
      have hnext := hnear k hk hle
      omega

/-- The new line goes strictly inside of something exactly if that begins on the line where the directives end and goes on
behind it. -/
theorem inside_iff {u : ParsedUnit} {offset s : Nat} (hnested : u.Nested)
    (hoffset : importOffset? u u.source = some offset) (hs : s ∈ u.topLevel) :
    (u.startOf s < offset ∧ offset < u.stopOf s) ↔ u.prologueEnd ≠ 0 ∧ u.prologueEnd ≤ u.startOf s ∧
      ¬Breaks u.source u.prologueEnd (u.startOf s) ∧ Breaks u.source (u.startOf s) (u.stopOf s - 1) := by
  have hsize := (hnested.start_le_stop hs).2
  rcases importOffset?_cases hoffset with ⟨hend, rfl⟩ | ⟨hend, hnext⟩
  · simp [hend]
  · obtain ⟨hle, hnear, hbehind⟩ := nextLine?_spec hnext
    rw [and_iff_right hend]
    constructor
    · rintro ⟨hstart, hstop⟩
      have hapart : u.prologueEnd ≤ u.startOf s := (hnested.prologueEnd_apart hs).resolve_left (by omega)
      obtain ⟨k, hk, hend, rfl⟩ := hbehind.resolve_left (by omega)
      refine ⟨hapart, ?_, k, hk, by omega, by omega⟩
      rintro ⟨j, hj, hfrom, hto⟩
      have hfirst := hnear j hj hfrom
      omega
    · rintro ⟨hapart, hline, k, hk, hfrom, hto⟩
      have hnext := hnear k hk (by omega)
      refine ⟨?_, by omega⟩
      rcases hbehind with rfl | ⟨j, hj, hend, rfl⟩
      · omega
      · by_contra hlt
        exact hline ⟨j, hj, hend, by omega⟩

/-- Where the line that imports the library goes, if it is a new one. It goes strictly inside of something exactly if that
begins on the line where the directives found end and goes on behind it. It goes behind all directives found. It goes in
front of the end of a directive exactly if that is not searched and nothing is found, or a line ends between what is found
and the last byte of it. And it goes behind all directives if none has a comment inside. -/
theorem import_placed {u : ParsedUnit} {offset : Nat} (hnested : u.Nested)
    (hpropose : Rule.ensureRenderImport.propose u u.source = .ok [insertImport u.source offset]) :
    (∀ s ∈ u.topLevel, (u.startOf s < offset ∧ offset < u.stopOf s) ↔
      u.prologueEnd ≠ 0 ∧ u.prologueEnd ≤ u.startOf s ∧
        ¬Breaks u.source u.prologueEnd (u.startOf s) ∧ Breaks u.source (u.startOf s) (u.stopOf s - 1)) ∧
    (∀ d ∈ u.found, u.stopOf d ≤ offset) ∧
    (∀ d ∈ u.directives, offset < u.stopOf d ↔ d ∈ u.unsearched ∧ 0 < u.stopOf d ∧
      (u.prologueEnd = 0 ∨ Breaks u.source u.prologueEnd (u.stopOf d - 1))) ∧
    ((∀ d ∈ u.directives, u.holdsComment d = false) → ∀ d ∈ u.directives, u.stopOf d ≤ offset) := by
  have hoffset := importOffset?_of_propose hpropose
  have hfound : ∀ d ∈ u.found, u.stopOf d ≤ offset := by
    intro d hd
    have hle := hnested.stop_le_prologueEnd hd
    rcases importOffset?_cases hoffset with ⟨hend, rfl⟩ | ⟨-, hnext⟩
    · exact hend ▸ hle
    · exact Nat.le_trans hle (nextLine?_spec hnext).1
  refine ⟨fun s hs => inside_iff hnested hoffset hs, hfound, fun d hd => ?_,
    fun hplain d hd => hfound d (directives_subset_found hplain hd)⟩
  have hmem : d ∈ u.topLevel :=
    u.statements_sublist.subset ((List.takeWhile_sublist _).subset (List.mem_filter.1 hd).1)
  rw [← lt_stopOf_iff hnested hoffset hmem]
  refine ⟨fun hlt => ⟨(mem_found_or hd).resolve_left fun hf => ?_, hlt⟩, And.right⟩
  exact absurd (hfound d hf) (Nat.not_le.2 hlt)

/-- A directive with a comment on its line that goes on behind it, and markup. -/
def wrapped : ParsedUnit where
  file := "a.jsx"
  key := ""
  grammar := none
  source := "'a';/*\n*/<b/>"
  nodes := #[⟨"program", true, none, 0, 13, 1, 0, 2, none, [1, 4, 5]⟩,
    ⟨"expression_statement", true, none, 0, 4, 1, 0, 1, some 0, [2, 3]⟩,
    ⟨"string", true, none, 0, 3, 1, 0, 1, some 1, []⟩,
    ⟨";", false, none, 3, 4, 1, 3, 1, some 1, []⟩,
    ⟨"comment", true, none, 4, 9, 1, 4, 2, some 0, []⟩,
    ⟨"expression_statement", true, none, 9, 13, 2, 2, 2, some 0, [6]⟩,
    ⟨"jsx_self_closing_element", true, none, 9, 13, 2, 2, 2, some 5, []⟩]
  errors := []
  recovery := none

/-- The new line goes into the comment. -/
theorem import_placed_wrapped : wrapped.Nested ∧
    Rule.ensureRenderImport.propose wrapped wrapped.source = .ok [insertImport wrapped.source 7] ∧
    4 ∈ wrapped.topLevel ∧ wrapped.startOf 4 < 7 ∧ 7 < wrapped.stopOf 4 := by
  have hnested : wrapped.Nested := ⟨by decide, by decide, by decide⟩
  have hpresent : Defect.renderBinding.isPresent wrapped = true := by decide
  have hclause : wrapped.extendableClause? = none := by decide
  have hoffset : importOffset? wrapped wrapped.source = some 7 := by decide
  have hpropose : Rule.ensureRenderImport.propose wrapped wrapped.source = .ok [insertImport wrapped.source 7] := by
    change proposeImport wrapped wrapped.source = _
    rw [proposeImport, hpresent, hclause, hoffset]
    rfl
  have hmem : 4 ∈ wrapped.topLevel := by decide
  have hline : ¬Breaks wrapped.source wrapped.prologueEnd (wrapped.startOf 4) := by decide
  have hcut : Breaks wrapped.source (wrapped.startOf 4) (wrapped.stopOf 4 - 1) := by decide
  exact ⟨hnested, hpropose, hmem,
    ((import_placed hnested hpropose).1 4 hmem).2 ⟨by decide, by decide, hline, hcut⟩⟩

end TreeRepair
