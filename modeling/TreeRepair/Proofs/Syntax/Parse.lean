import Mathlib.Data.List.Basic
import TreeRepair.Proofs.Text.Boundaries
import TreeRepair.Syntax.Parse

/-! The two shapes of a parsed unit. A text that a grammar accepts gives a clean unit with the text in full and
its tree; one that all grammars refuse gives a unit without a tree, with at least one issue and at most `issueLimit`
of them, and with the longest start of the text that the limit allows. -/

set_option autoImplicit false

namespace TreeRepair

/-! ## Starts of a text -/

/-- The longest start of a text of at most `limit` bytes. -/
structure LongestStart (limit : Nat) (text start : String) : Prop where
  isStart : ∃ rest, text = start ++ rest
  within : start.utf8ByteSize ≤ limit
  longest : ∀ other rest, text = other ++ rest → other.utf8ByteSize ≤ limit → other.utf8ByteSize ≤ start.utf8ByteSize

theorem longestStart_takeBytes (limit : Nat) (text : String) :
    LongestStart limit text (String.ofList (Text.takeBytes text.toList limit)) where
  isStart := by
    obtain ⟨rest, hrest⟩ := Text.takeBytes_isPrefix text.toList limit
    exact ⟨String.ofList rest, by rw [← String.ofList_append, hrest, String.ofList_toList]⟩
  within := by
    rw [Text.utf8ByteSize_ofList]
    exact Text.byteLength_takeBytes_le _ _
  longest other rest heq hsize := by
    rw [← String.ofList_toList (s := other), Text.utf8ByteSize_ofList] at hsize ⊢
    rw [Text.utf8ByteSize_ofList]
    have hother : other.toList <+: text.toList := ⟨rest.toList, by rw [heq, String.toList_append]⟩
    exact Text.byteLength_le_of_isPrefix (Text.prefix_takeBytes hother hsize)

/-- A start of a text is the whole text unless it is shorter. -/
theorem LongestStart.shorter_iff {limit : Nat} {text start : String} (h : LongestStart limit text start) :
    start.utf8ByteSize < text.utf8ByteSize ↔ start ≠ text := by
  obtain ⟨rest, rfl⟩ := h.isStart
  constructor
  · intro hlt heq
    rw [← heq] at hlt
    exact Nat.lt_irrefl _ hlt
  · intro hne
    by_contra hge
    refine hne (String.toList_inj.1 (Text.eq_of_isPrefix_of_byteLength ?_ ?_))
    · exact ⟨rest.toList, (String.toList_append ..).symm⟩
    · rw [← Text.utf8ByteSize_ofList, ← Text.utf8ByteSize_ofList, String.ofList_toList, String.ofList_toList]
      omega

/-! ## Issues -/

theorem length_outermostIssues_le (limit : Nat) (ts : List SyntaxTree) : (outermostIssues limit ts).length ≤ limit := by
  fun_induction outermostIssues limit ts with
  | case1 => exact Nat.zero_le _
  | case2 => exact Nat.zero_le _
  | case3 limit t rest hlimit hmark ih =>
    rw [List.length_cons]
    omega
  | case4 limit t rest hlimit hmark hinside ih => exact ih
  | case5 limit t rest hlimit hmark hinside ih => exact ih

theorem NodeInfo.issueMessage_ne (n : NodeInfo) (text : List Char) : n.issueMessage text ≠ "" := by
  unfold issueMessage
  simp [String.append_eq_empty_iff]

namespace Grammars

variable (g : Grammars) (text : String)

theorem issues_length : 1 ≤ (g.issues text).length ∧ (g.issues text).length ≤ 32 := by
  have hfew : (collectIssues (g .javascript text) text).length ≤ 32 := by
    rw [collectIssues, List.length_map]
    exact length_outermostIssues_le issueLimit _
  unfold issues
  split
  · simp
  · rename_i hne
    exact ⟨List.length_pos_iff.2 hne, hfew⟩

theorem issues_message_ne : ∀ i ∈ g.issues text, i.message ≠ "" := by
  unfold issues
  split
  · intro i hi
    rw [List.mem_singleton.1 hi]
    decide
  · intro i hi
    obtain ⟨n, -, rfl⟩ := List.mem_map.1 hi
    exact n.issueMessage_ne _

/-- Whether a grammar refuses a text. -/
def Refuses (grammar : Grammar) : Prop := (g grammar text).info.hasError = true

/-- The first grammar that does not refuse a text. -/
def IsFirst (grammar : Grammar) : Prop :=
  ∃ before after, Grammar.order = before ++ grammar :: after ∧ ¬ g.Refuses text grammar ∧
    ∀ other ∈ before, g.Refuses text other

variable {g text}

theorem accepting?_eq_none : g.accepting? text = none ↔ ∀ grammar, g.Refuses text grammar := by
  have hall : ∀ grammar, grammar ∈ Grammar.order := by
    intro grammar
    cases grammar <;> decide
  rw [accepting?, List.findSome?_eq_none_iff]
  simp only [ite_eq_left_iff, reduceCtorEq, imp_false, not_not, hall, true_implies, Refuses]

theorem accepting?_eq_some {grammar : Grammar} {t : SyntaxTree} (h : g.accepting? text = some (grammar, t)) :
    t = g grammar text ∧ g.IsFirst text grammar := by
  obtain ⟨before, found, after, horder, hfound, hbefore⟩ := List.findSome?_eq_some_iff.1 h
  simp only [Option.ite_none_left_eq_some, Option.some.injEq, Prod.mk.injEq] at hfound
  obtain ⟨haccepts, rfl, rfl⟩ := hfound
  refine ⟨rfl, before, after, horder, haccepts, fun other hother => ?_⟩
  simpa [Refuses] using hbefore other hother

end Grammars

/-! ## Units -/

namespace ParsedUnit

/-- A unit of a text with the tree of the first grammar that accepts it. -/
structure Clean (g : Grammars) (text : String) (u : ParsedUnit) : Prop where
  grammar : ∃ grammar, u.grammar = some grammar ∧ g.IsFirst text grammar ∧ u.nodes = (g grammar text).arena text
  source : u.source = text
  nodes : u.nodes ≠ #[]
  errors : u.errors = []
  recovery : u.recovery = none

/-- A unit of a text without a tree: issues, the start of the text, and what is said of the last issue. -/
structure Salvaged (limit : Nat) (text : String) (u : ParsedUnit) : Prop where
  grammar : u.grammar = none
  nodes : u.nodes = #[]
  errors : 1 ≤ u.errors.length ∧ u.errors.length ≤ 32
  messages : ∀ i ∈ u.errors, i.message ≠ ""
  source : LongestStart limit text u.source
  recovery : ∃ r last, u.recovery = some r ∧ u.errors.getLast? = some last ∧
    r.message = last.message ∧ r.line = last.line ∧ r.column = last.column ∧
    r.prefixLength = u.source.utf8ByteSize ∧ (r.truncated = true ↔ u.source ≠ text)

end ParsedUnit

theorem SyntaxTree.arena_ne_empty (t : SyntaxTree) (text : String) : t.arena text ≠ #[] := by
  cases t with
  | node info children => simp [arena, flatten]

variable (g : Grammars) (limit : Nat) (file key text : String)

theorem clean_of_accepting? {grammar : Grammar} {t : SyntaxTree} (h : g.accepting? text = some (grammar, t)) :
    (parseText g limit file key text).Clean g text := by
  obtain ⟨rfl, hfirst⟩ := Grammars.accepting?_eq_some h
  rw [parseText, h]
  exact ⟨⟨grammar, rfl, hfirst, rfl⟩, rfl, SyntaxTree.arena_ne_empty _ _, rfl, rfl⟩

theorem salvaged_recoveryUnit {issues : List ParseIssue} (hlen : 1 ≤ issues.length ∧ issues.length ≤ 32)
    (hmessages : ∀ i ∈ issues, i.message ≠ "") :
    (recoveryUnit limit file key text issues).Salvaged limit text := by
  have hstart := longestStart_takeBytes limit text
  have hne : issues ≠ [] := List.ne_nil_of_length_pos hlen.1
  refine ⟨rfl, rfl, hlen, hmessages, hstart, _, issues.getLast hne, rfl, List.getLast?_eq_some_getLast hne, ?_⟩
  rw [List.getLastD_eq_getLast?, List.getLast?_eq_some_getLast hne]
  exact ⟨rfl, rfl, rfl, rfl, decide_eq_true_iff.trans hstart.shorter_iff⟩

/-- Parsing gives a clean unit if a grammar accepts the text, and a unit without a tree if all of them refuse it. -/
theorem parseText_shape :
    ((parseText g limit file key text).Clean g text ↔ ∃ grammar, ¬ g.Refuses text grammar) ∧
      ((parseText g limit file key text).Salvaged limit text ↔ ∀ grammar, g.Refuses text grammar) ∧
      (parseText g limit file key text).file = file ∧ (parseText g limit file key text).key = key := by
  cases haccept : g.accepting? text with
  | none =>
    have hall := Grammars.accepting?_eq_none.1 haccept
    have hunit : parseText g limit file key text = recoveryUnit limit file key text (g.issues text) := by
      rw [parseText, haccept]
    have hsalvaged := salvaged_recoveryUnit limit file key text (g.issues_length text) (g.issues_message_ne text)
    rw [hunit]
    refine ⟨iff_of_false (fun hclean => ?_) fun ⟨grammar, hnot⟩ => hnot (hall grammar),
      iff_of_true hsalvaged hall, rfl, rfl⟩
    obtain ⟨grammar, hsome, -⟩ := hclean.grammar
    cases hsome
  | some found =>
    obtain ⟨grammar, t⟩ := found
    have hclean := clean_of_accepting? g limit file key text haccept
    have hnot : ∃ grammar, ¬ g.Refuses text grammar := by
      by_contra hnone
      rw [Grammars.accepting?_eq_none.2 (by simpa using hnone)] at haccept
      cases haccept
    refine ⟨iff_of_true hclean hnot, iff_of_false (fun hsalvaged => ?_) fun hall => ?_, ?_, ?_⟩
    · exact hclean.nodes hsalvaged.nodes
    · obtain ⟨grammar, hgrammar⟩ := hnot
      exact hgrammar (hall grammar)
    · rw [parseText, haccept]
    · rw [parseText, haccept]

end TreeRepair
