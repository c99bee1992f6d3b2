import TreeRepair.Proofs.Repair.Acceptance
import TreeRepair.Proofs.Syntax.Parse

/-! Whether repairs bring new errors into a text. Verdicts compare the numbers of issues that two units record; a unit
records the outermost errors of a refused text as far as there is room for them, so that of texts with more errors
than that no verdict tells which one has more. -/

set_option autoImplicit false

namespace TreeRepair

/-! ## Faults of a tree -/

namespace SyntaxTree

mutual

/-- The error and missing nodes of a tree that lie below no other of them, in document order. -/
def faults : SyntaxTree → List NodeInfo
  | .node info children => if info.isError || info.isMissing then [info] else faultsAll children

/-- The faults of several trees. -/
def faultsAll : List SyntaxTree → List NodeInfo
  | [] => []
  | t :: ts => t.faults ++ faultsAll ts

end

mutual

/-- Whether each node says that there is an error in it exactly if it, or a node below it, is a fault. -/
def isTruthful : SyntaxTree → Bool
  | .node info children =>
    (info.hasError == !(node info children).faults.isEmpty) && areTruthful children

/-- Whether several trees are truthful. -/
def areTruthful : List SyntaxTree → Bool
  | [] => true
  | t :: ts => t.isTruthful && areTruthful ts

end

theorem faults_eq (t : SyntaxTree) :
    t.faults = if t.info.isError || t.info.isMissing then [t.info] else faultsAll t.children := by
  cases t with
  | node info children => rw [faults, SyntaxTree.info, SyntaxTree.children]

theorem faultsAll_append (ts us : List SyntaxTree) : faultsAll (ts ++ us) = faultsAll ts ++ faultsAll us := by
  induction ts with
  | nil => rfl
  | cons t ts ih => rw [List.cons_append, faultsAll, ih, faultsAll, List.append_assoc]

theorem isTruthful_iff {t : SyntaxTree} :
    t.isTruthful = true ↔ (t.info.hasError = true ↔ t.faults ≠ []) ∧ areTruthful t.children = true := by
  cases t with
  | node info children =>
    rw [isTruthful, Bool.and_eq_true, beq_iff_eq, Bool.eq_iff_iff, Bool.not_eq_true', List.isEmpty_eq_false_iff]
    rfl

theorem areTruthful_append {ts us : List SyntaxTree} :
    areTruthful (ts ++ us) = true ↔ areTruthful ts = true ∧ areTruthful us = true := by
  induction ts with
  | nil => simp [areTruthful]
  | cons t ts ih => simp only [List.cons_append, areTruthful, Bool.and_eq_true, ih, and_assoc]

end SyntaxTree

open SyntaxTree

theorem outermostIssues_eq_take {limit : Nat} {ts : List SyntaxTree} (h : areTruthful ts = true) :
    outermostIssues limit ts = (faultsAll ts).take limit := by
  fun_induction outermostIssues limit ts with
  | case1 limit => rw [faultsAll, List.take_nil]
  | case2 t rest => rw [List.take_zero]
  | case3 limit t rest hlimit hmark ih =>
    rw [areTruthful, Bool.and_eq_true] at h
    rw [ih h.2, faultsAll, faults_eq, if_pos hmark, List.singleton_append, List.take_cons (Nat.pos_of_ne_zero hlimit)]
  | case4 limit t rest hlimit hmark hinside ih =>
    rw [areTruthful, Bool.and_eq_true] at h
    rw [ih (areTruthful_append.2 ⟨(isTruthful_iff.1 h.1).2, h.2⟩), faultsAll_append, faultsAll, faults_eq, if_neg hmark]
  | case5 limit t rest hlimit hmark hinside ih =>
    rw [areTruthful, Bool.and_eq_true] at h
    have hnone : t.faults = [] := by
      by_contra hne
      exact hinside ((isTruthful_iff.1 h.1).1.2 hne)
    rw [ih h.2, faultsAll, hnone, List.nil_append]

/-! ## Faults of a text -/

/-- The number of faults of a text: of one that no grammar accepts, those in the tree of the last grammar. -/
def Grammars.faultCount (g : Grammars) (text : String) : Nat :=
  if (g.accepting? text).isSome then 0 else (g .javascript text).faults.length

variable {g : Grammars} {text : String}

theorem length_collectIssues (text : String) {t : SyntaxTree} (h : t.isTruthful = true) :
    (collectIssues t text).length = min issueLimit t.faults.length := by
  have hall : areTruthful [t] = true := by rw [areTruthful, h, areTruthful, Bool.and_self]
  rw [collectIssues, List.length_map, outermostIssues_eq_take hall, List.length_take, faultsAll, faultsAll,
    List.append_nil]

theorem length_errors (limit : Nat) (file key : String) (h : (g .javascript text).isTruthful = true) :
    (parseText g limit file key text).errors.length = min issueLimit (g.faultCount text) := by
  rw [parseText, Grammars.faultCount]
  cases haccept : g.accepting? text with
  | some found => rfl
  | none =>
    have hrefuses : (g .javascript text).info.hasError = true := Grammars.accepting?_eq_none.1 haccept .javascript
    have hpos : 0 < (g .javascript text).faults.length := List.length_pos_iff.2 ((isTruthful_iff.1 h).1.1 hrefuses)
    have hlength := length_collectIssues text h
    have hissues : g.issues text = collectIssues (g .javascript text) text := by
      rw [Grammars.issues]
      split
      · rename_i hnil
        rw [hnil, issueLimit, List.length_nil] at hlength
        omega
      · rfl
    exact (congrArg List.length hissues).trans hlength

/-! ## Verdicts -/

/-- A verdict on units of two texts is good exactly if the defect is gone with the marker in place or was never there,
and the new text has no more faults than the old one had, or the old one had as many as are recorded. -/
theorem success_judge_parseText (g : Grammars) (limit limit' : Nat) (file file' key key' source result : String)
    (d : Defect) (hbefore : (g .javascript source).isTruthful = true) (hafter : (g .javascript result).isTruthful = true) :
    let before := parseText g limit file key source
    let after := parseText g limit' file' key' result
    (Verdict.judge d before after).success = true ↔
      (d.isPresent before = true → d.isPresent after = false ∧ d.hasMarker before after = true) ∧
        (g.faultCount result ≤ g.faultCount source ∨ 32 ≤ g.faultCount source) := by
  intro before after
  rw [Verdict.success_judge_iff, length_errors _ _ _ hbefore, length_errors _ _ _ hafter, issueLimit]
  refine and_congr_right fun _ => ?_
  omega

/-- Grammars that find an error in every character. -/
def errorGrammars : Grammars := fun _ text =>
  .node ⟨"program", true, false, false, !text.toList.isEmpty, none, 0, text.utf8ByteSize⟩
    (text.toList.map fun c => .refusal (String.singleton c))

/-- One error more is found among few errors, but not among many. -/
theorem success_judge_parseText_many :
    let unit (n : Nat) := parseText errorGrammars 64 "a.js" "" (String.ofList (List.replicate n 'a'))
    let verdict (n m : Nat) := Verdict.judge .templateInterpolation (unit n) (unit m)
    (verdict 4 3).success = true ∧ (verdict 31 32).success = false ∧ (verdict 32 33).success = true := by
  intro unit verdict
  have htruthful : ∀ n ∈ [3, 4, 31, 32, 33],
      (errorGrammars .javascript (String.ofList (List.replicate n 'a'))).isTruthful = true := by
    decide +kernel
  have hcount : ∀ n ∈ [3, 4, 31, 32, 33], errorGrammars.faultCount (String.ofList (List.replicate n 'a')) = n := by
    decide +kernel
  have habsent : ∀ n ∈ [3, 4, 31, 32, 33], Defect.templateInterpolation.isPresent (unit n) = false := by
    decide +kernel
  have hverdict : ∀ n ∈ [3, 4, 31, 32, 33], ∀ m ∈ [3, 4, 31, 32, 33],
      ((verdict n m).success = true ↔ m ≤ n ∨ 32 ≤ n) := by
    intro n hn m hm
    have hboth := success_judge_parseText errorGrammars 64 64 "a.js" "a.js" "" "" _ _ .templateInterpolation
      (htruthful n hn) (htruthful m hm)
    rw [hcount n hn, hcount m hm] at hboth
    exact hboth.trans (and_iff_right fun hpresent => absurd hpresent (by rw [habsent n hn]; decide))
  exact ⟨(hverdict 4 (by decide) 3 (by decide)).2 (by decide),
    Bool.eq_false_iff.2 fun h => absurd ((hverdict 31 (by decide) 32 (by decide)).1 h) (by decide),
    (hverdict 32 (by decide) 33 (by decide)).2 (by decide)⟩

end TreeRepair
