import Mathlib.Data.List.Forall2
import TreeRepair.Proofs.Syntax.Places
import TreeRepair.Proofs.Syntax.Positions
import TreeRepair.Syntax.Parse

/-! The issues of a tree are those of its outermost marked nodes, from the first of them in the document on. The loop
that collects them keeps the trees that are left; what it has still to find is what each of those trees holds by
itself, one after the other. -/

set_option autoImplicit false

namespace TreeRepair

open Text

/-- A node is an error or missing. -/
def NodeInfo.marked (n : NodeInfo) : Bool := n.isError || n.isMissing

/-- An issue quotes the beginning of the text of an error, or the kind of a missing node, and says where the node
begins in the text. -/
structure ParseIssue.Tells (i : ParseIssue) (n : NodeInfo) (source : List Char) : Prop where
  unexpected : n.isError = true →
    i.message = "unexpected `" ++ snippet ((slice? source n.start n.stop).getD []) ++ "`"
  missing : n.isError = false → i.message = "missing `" ++ n.kind ++ "`"
  place : LiesAt source n.start i.line i.column

/-- There is only one issue to tell of a node. -/
theorem ParseIssue.Tells.unique {i j : ParseIssue} {n : NodeInfo} {source : List Char} (h : i.Tells n source)
    (h' : j.Tells n source) : i = j := by
  have hmessage : i.message = j.message := by
    cases hn : n.isError with
    | true => rw [h.unexpected hn, h'.unexpected hn]
    | false => rw [h.missing hn, h'.missing hn]
  obtain ⟨hline, hcolumn⟩ := h.place.unique h'.place
  obtain ⟨message, line, column⟩ := i
  obtain ⟨message', line', column'⟩ := j
  obtain rfl : message = message' := hmessage
  obtain rfl : line = line' := hline
  obtain rfl : column = column' := hcolumn
  rfl

namespace SyntaxTree

/-- The node at a place is marked, and no node above it is; all of those have an error inside. -/
structure Outermost (t : SyntaxTree) (p : List Nat) (n : NodeInfo) : Prop where
  node : t.infoAt? p = some n
  marked : n.marked = true
  above : ∀ q m, q <+: p → q ≠ p → t.infoAt? q = some m → m.hasError = true ∧ m.marked = false

/-- The outermost marked nodes of a tree in the order of the document, each with its place. -/
def outermost (t : SyntaxTree) : List (List Nat × NodeInfo) := t.visit (·.marked) fun n => n.hasError && !n.marked

variable {t : SyntaxTree} {ts : List SyntaxTree} {n m : NodeInfo} {p q : List Nat}

/-! ## Outermost nodes -/

theorem mem_outermost : (p, n) ∈ t.outermost ↔ t.Outermost p n := by
  simp only [outermost, mem_visit, Bool.and_eq_true, Bool.not_eq_true']
  exact ⟨fun ⟨hnode, hmarked, habove⟩ => ⟨hnode, hmarked, habove⟩, fun h => ⟨h.node, h.marked, h.above⟩⟩

/-- No outermost node is inside another. -/
theorem Outermost.eq_of_isPrefix (h : t.Outermost p n) (h' : t.Outermost q m) (hpq : p <+: q) : p = q := by
  by_contra hne
  have hclear := (h'.above p n hpq hne h.node).2
  exact Bool.false_ne_true (hclear.symm.trans h.marked)

/-! ## The loop -/

/-- What is found in trees that stand one after another. -/
def outermostNodes (ts : List SyntaxTree) : List NodeInfo := ts.flatMap fun t => t.outermost.map Prod.snd

theorem outermostNodes_append (ts us : List SyntaxTree) :
    outermostNodes (ts ++ us) = outermostNodes ts ++ outermostNodes us := List.flatMap_append

theorem snd_visitAll (k : Nat) (ts : List SyntaxTree) :
    (visitAll (·.marked) (fun n => n.hasError && !n.marked) k ts).map Prod.snd = outermostNodes ts := by
  induction ts generalizing k with
  | nil => rfl
  | cons t ts ih =>
    rw [visitAll, List.map_append, ih, List.map_map]
    rfl

theorem outermostNodes_cons (t : SyntaxTree) (ts : List SyntaxTree) : outermostNodes (t :: ts) =
    (if t.info.marked then [t.info] else if t.info.hasError then outermostNodes t.children else []) ++
      outermostNodes ts := by
  obtain ⟨info, children⟩ := t
  rw [outermostNodes, List.flatMap_cons, outermost, visit, List.map_append]
  congr 1
  simp only [SyntaxTree.info, SyntaxTree.children]
  by_cases hmarked : info.marked = true
  · simp [hmarked]
  · by_cases hinside : info.hasError = true
    · simp [hmarked, hinside, snd_visitAll]
    · simp [hmarked, hinside]

/-- The loop finds what the trees that are left hold, until it has found enough. -/
theorem outermostIssues_eq (limit : Nat) (ts : List SyntaxTree) :
    outermostIssues limit ts = (outermostNodes ts).take limit := by
  fun_induction outermostIssues limit ts with
  | case1 => exact List.take_nil.symm
  | case2 => rfl
  | case3 limit t rest hlimit hmark ih =>
    obtain ⟨limit, rfl⟩ := Nat.exists_eq_succ_of_ne_zero hlimit
    rw [outermostNodes_cons, NodeInfo.marked, if_pos hmark, List.singleton_append, List.take_succ_cons, ih, Nat.succ_sub_one]
  | case4 limit t rest hlimit hmark hinside ih =>
    rw [outermostNodes_cons, NodeInfo.marked, if_neg hmark, if_pos hinside, ← outermostNodes_append, ih]
  | case5 limit t rest hlimit hmark hinside ih =>
    rw [outermostNodes_cons, NodeInfo.marked, if_neg hmark, if_neg hinside, List.nil_append, ih]

theorem collectIssues_eq (t : SyntaxTree) (text : String) : collectIssues t text =
    (t.outermost.take 32).map fun x => x.2.issue text.toList (lineFeeds 0 text.toList) := by
  have hnodes : outermostNodes [t] = t.outermost.map Prod.snd := List.flatMap_singleton ..
  rw [collectIssues, outermostIssues_eq, hnodes, ← List.map_take, List.map_map]
  rfl

/-! ## Issues -/

theorem issueMessage_eq (n : NodeInfo) (source : List Char) : n.issueMessage source =
    if n.isError then "unexpected `" ++ snippet ((slice? source n.start n.stop).getD []) ++ "`"
    else "missing `" ++ n.kind ++ "`" := by
  rw [NodeInfo.issueMessage]
  cases n.isError <;> rfl

theorem tells_issue (n : NodeInfo) (source : List Char) : (n.issue source (lineFeeds 0 source)).Tells n source where
  unexpected h := by
    rw [NodeInfo.issue, issueMessage_eq, if_pos h]
  missing h := by
    rw [NodeInfo.issue, issueMessage_eq, if_neg (Bool.eq_false_iff.1 h)]
  place := liesAt_rowAndColumn source n.start

/-- The issues of a tree are those of the first 32 of its outermost marked nodes in the order of the document: the
marked nodes below nodes that have an error inside and are not marked. So none of them is inside another, and where
the children of every node stand in their order in the text, the issues are in the order of the text. -/
theorem collectIssues_outermost (t : SyntaxTree) (text : String) :
    (∀ p n, (p, n) ∈ t.outermost ↔ t.Outermost p n) ∧
    t.outermost.Pairwise (fun x y => x.1 < y.1) ∧
    List.Forall₂ (fun i x => i.Tells x.2 text.toList) (collectIssues t text) (t.outermost.take 32) ∧
    (∀ x ∈ t.outermost, ∀ y ∈ t.outermost, x.1 <+: y.1 → x = y) ∧
    (t.InSourceOrder → (collectIssues t text).Pairwise fun i j =>
      i.line < j.line ∨ i.line = j.line ∧ i.column ≤ j.column) := by
  have hsorted : t.outermost.Pairwise fun x y => x.1 < y.1 := visit_pairwise _ _ t
  refine ⟨fun _ _ => mem_outermost, hsorted, ?_, ?_, fun horder => ?_⟩
  · rw [collectIssues_eq, List.forall₂_map_left_iff]
    exact List.forall₂_same.2 fun x _ => tells_issue x.2 _
  · rintro ⟨p, n⟩ hx ⟨q, m⟩ hy hpq
    have hx := mem_outermost.1 hx
    have hy := mem_outermost.1 hy
    obtain rfl : p = q := hx.eq_of_isPrefix hy hpq
    obtain rfl := Option.some.inj (hx.node.symm.trans hy.node)
    rfl
  · rw [collectIssues_eq, List.pairwise_map]
    refine List.Pairwise.imp_of_mem (fun {x y} hx hy hlt => ?_) (hsorted.sublist (List.take_sublist 32 _))
    obtain ⟨s, hs, hsinfo⟩ := infoAt?_eq_some.1 (mem_outermost.1 (List.mem_of_mem_take hx)).node
    obtain ⟨s', hs', hsinfo'⟩ := infoAt?_eq_some.1 (mem_outermost.1 (List.mem_of_mem_take hy)).node
    refine (tells_issue x.2 _).place.le (tells_issue y.2 _).place ?_
    rw [← hsinfo, ← hsinfo']
    exact horder.start_le hs hs' hlt

/-- In a list with a missing bracket and a stray one, behind which an error lies in another one, three issues are found
on two lines; the error inside the other one is not. -/
theorem collectIssues_outermost_nested :
    let leaf (kind : String) (isMissing : Bool) (start stop : Nat) : SyntaxTree :=
      node ⟨kind, false, false, isMissing, isMissing, none, start, stop⟩ []
    let error (start stop : Nat) (children : List SyntaxTree) : SyntaxTree :=
      node ⟨"ERROR", true, true, false, true, none, start, stop⟩ children
    let call := node ⟨"call", true, false, false, true, none, 0, 2⟩ [leaf "(" false 1 2, leaf ")" true 2 2]
    let clean := node ⟨"name", true, false, false, false, none, 5, 6⟩ [error 5 6 []]
    let t := node ⟨"program", true, false, false, true, none, 0, 12⟩
      [call, error 3 4 [], clean, error 8 12 [leaf "[" false 8 9, error 9 12 []]]
    t.InSourceOrder ∧
      collectIssues t "f( ] x\n [é\x7d" =
        [⟨"missing `)`", 1, 2⟩, ⟨"unexpected `]`", 1, 3⟩, ⟨"unexpected `[é\x7d`", 2, 1⟩] ∧
      (collectIssues t "f( ] x\n [é\x7d").Pairwise fun i j =>
        i.line < j.line ∨ i.line = j.line ∧ i.column ≤ j.column := by
  intro leaf error call clean t
  have horder : t.InSourceOrder := by
    simp [t, call, clean, leaf, error, inSourceOrder_node, info]
  refine ⟨horder, ?_, (collectIssues_outermost t _).2.2.2.2 horder⟩
  rw [collectIssues_eq]
  decide +kernel

end SyntaxTree

end TreeRepair
