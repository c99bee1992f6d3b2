import Mathlib.Computability.StateTransition
import TreeRepair.Proofs.Syntax.Numbering

/-! The arena of a tree as a cursor fills it. The cursor goes down before it goes right and right before it goes up; on
the way down each node is put behind the others and its index is added to the children of the last node above. When
the cursor leaves a node again, the nodes of the tree below it stand in the arena as its recursion lists them. -/

set_option autoImplicit false

namespace TreeRepair

open StateTransition (Reaches eval mem_eval)

/-- A cursor in a tree: the tree below the node where it stands, and the trees below the nodes above it, the nearest
first, each with the children to the right of the way down. -/
structure Cursor where
  focus : SyntaxTree
  frames : List (SyntaxTree × List SyntaxTree)

namespace Cursor

/-- The cursor at the first child. -/
def firstChild? (c : Cursor) : Option Cursor :=
  match c.focus.children with
  | [] => none
  | t :: ts => some ⟨t, (c.focus, ts) :: c.frames⟩

/-- The cursor at the next sibling. -/
def nextSibling? (c : Cursor) : Option Cursor :=
  match c.frames with
  | (up, t :: ts) :: frames => some ⟨t, (up, ts) :: frames⟩
  | _ => none

/-- The cursor at the parent. -/
def parent? (c : Cursor) : Option Cursor :=
  match c.frames with
  | (up, _) :: frames => some ⟨up, frames⟩
  | [] => none

end Cursor

/-- A walk of a cursor over a tree, in the middle of it. -/
structure Walk where
  cursor : Cursor
  /-- The node is not in the arena yet. -/
  entering : Bool
  nodes : List SyntaxNode
  /-- The indices of the nodes above, the nearest first. -/
  above : List Nat

namespace Walk

/-- Children are added to those of the parent, if there is one. -/
def adopt (parent : Option Nat) (children : List Nat) (nodes : List SyntaxNode) : List SyntaxNode :=
  parent.elim nodes fun p => nodes.modify p fun node => { node with children := node.children ++ children }

/-- The beginning of a walk over a tree. -/
def start (t : SyntaxTree) : Walk := ⟨⟨t, []⟩, true, [], []⟩

/-- A step of a walk, which enters a node or leaves it. -/
def step? (feeds : List Nat) (w : Walk) : Option Walk :=
  if w.entering then
    let parent := w.above.head?
    let nodes := adopt parent [w.nodes.length]
      (w.nodes ++ [SyntaxTree.arenaNode feeds parent w.cursor.focus.info []])
    some (w.cursor.firstChild?.elim ⟨w.cursor, false, nodes, w.above⟩ fun child =>
      ⟨child, true, nodes, w.nodes.length :: w.above⟩)
  else
    w.cursor.nextSibling?.elim (w.cursor.parent?.map fun up => ⟨up, false, w.nodes, w.above.tail⟩) fun next =>
      some ⟨next, true, w.nodes, w.above⟩

variable {feeds : List Nat} {nodes : List SyntaxNode} {parent : Option Nat} {p : Nat} {t : SyntaxTree}
  {ts : List SyntaxTree}

/-! ## Children that are added -/

theorem length_adopt (parent : Option Nat) (children : List Nat) (nodes : List SyntaxNode) :
    (adopt parent children nodes).length = nodes.length := by
  cases parent with
  | none => rfl
  | some p => exact List.length_modify ..

theorem adopt_adopt (parent : Option Nat) (l r : List Nat) (nodes : List SyntaxNode) :
    adopt parent r (adopt parent l nodes) = adopt parent (l ++ r) nodes := by
  cases parent with
  | none => rfl
  | some p =>
    simp only [adopt, Option.elim_some, List.modify_modify_eq, Function.comp_def, List.append_assoc]

theorem modify_append {α : Type} {l : List α} (hp : p < l.length) (f : α → α) (r : List α) :
    (l ++ r).modify p f = l.modify p f ++ r := by
  rw [List.modify_eq_take_drop, List.modify_eq_take_drop, List.take_append_of_le_length hp.le,
    List.drop_append_of_le_length hp.le, List.drop_eq_getElem_cons hp, List.append_assoc]
  rfl

/-- A node that is there already is added to, whatever follows behind. -/
theorem adopt_append (h : ∀ p ∈ parent, p < nodes.length) (children : List Nat) (more : List SyntaxNode) :
    adopt parent children (nodes ++ more) = adopt parent children nodes ++ more := by
  cases parent with
  | none => rfl
  | some p => exact modify_append (h p rfl) _ more

theorem adopt_last (children : List Nat) (nodes : List SyntaxNode) (node : SyntaxNode) :
    adopt (some nodes.length) children (nodes ++ [node]) =
      nodes ++ [{ node with children := node.children ++ children }] := by
  rw [adopt, Option.elim_some, List.modify_eq_take_drop, List.take_left, List.drop_left]
  rfl

/-! ## Runs -/

/-- Between entering a node and leaving it a walk puts the nodes of its tree into the arena, and adds the node to the
children of its parent. -/
def Passes (feeds : List Nat) (t : SyntaxTree) : Prop := ∀ frames above nodes, (∀ p ∈ above.head?, p < nodes.length) →
  Reaches (step? feeds) ⟨⟨t, frames⟩, true, nodes, above⟩
    ⟨⟨t, frames⟩, false, adopt above.head? [nodes.length] nodes ++ t.flatten feeds above.head? nodes.length, above⟩

/-- From one of the children of a node on, a walk comes through the others to the node. -/
theorem reaches_children (up : SyntaxTree) (frames : List (SyntaxTree × List SyntaxTree)) (above : List Nat)
    (hpass : ∀ c ∈ t :: ts, Passes feeds c) (hp : p < nodes.length) :
    Reaches (step? feeds) ⟨⟨t, (up, ts) :: frames⟩, true, nodes, p :: above⟩
      ⟨⟨up, frames⟩, false, adopt (some p) (SyntaxTree.startIndices nodes.length (t :: ts)) nodes ++
        SyntaxTree.flattenAll feeds p nodes.length (t :: ts), above⟩ := by
  have hfirst := hpass t (List.mem_cons_self ..) ((up, ts) :: frames) (p :: above) nodes (by simpa using hp)
  induction ts generalizing t nodes with
  | nil =>
    refine Relation.ReflTransGen.tail hfirst ?_
    rw [SyntaxTree.flattenAll, SyntaxTree.flattenAll, List.append_nil]
    rfl
  | cons next ts ih =>
    obtain ⟨passed, hpassed⟩ : ∃ passed, passed = adopt (some p) [nodes.length] nodes ++
      t.flatten feeds (some p) nodes.length := ⟨_, rfl⟩
    have hlen : passed.length = nodes.length + t.size := by
      rw [hpassed, List.length_append, length_adopt, SyntaxTree.length_flatten]
    have hnext := hpass next (by simp) ((up, ts) :: frames) (p :: above) passed (by simp; omega)
    have hrest := ih (fun c hc => hpass c (List.mem_cons_of_mem t hc)) (by omega) hnext
    have hnodes : adopt (some p) (SyntaxTree.startIndices passed.length (next :: ts)) passed ++
        SyntaxTree.flattenAll feeds p passed.length (next :: ts) =
        adopt (some p) (SyntaxTree.startIndices nodes.length (t :: next :: ts)) nodes ++
          SyntaxTree.flattenAll feeds p nodes.length (t :: next :: ts) := by
      rw [hlen, hpassed, adopt_append (by simpa [length_adopt] using hp), adopt_adopt, List.append_assoc]
      rfl
    rw [hnodes, hpassed] at hrest
    exact Relation.ReflTransGen.trans (Relation.ReflTransGen.tail hfirst rfl) hrest

theorem passes (feeds : List Nat) (t : SyntaxTree) : Passes feeds t := by
  induction t with
  | node info children ih =>
    intro frames above nodes hp
    cases children with
    | nil =>
      refine Relation.ReflTransGen.single ?_
      rw [SyntaxTree.flatten, SyntaxTree.flattenAll, ← adopt_append hp]
      rfl
    | cons c cs =>
      obtain ⟨old, hold⟩ : ∃ old, old = adopt above.head? [nodes.length] nodes := ⟨_, rfl⟩
      have hlen : old.length = nodes.length := hold ▸ length_adopt ..
      -- the children are added to the node that has just been put behind the others
      have hlast := adopt_last (SyntaxTree.startIndices (old.length + 1) (c :: cs)) old
        (SyntaxTree.arenaNode feeds above.head? info [])
      have hlt : old.length < (old ++ [SyntaxTree.arenaNode feeds above.head? info []]).length := by simp
      have hbelow := reaches_children (.node info (c :: cs)) frames above ih hlt
      rw [List.length_append, List.length_singleton, hlast, List.append_assoc, hlen, hold] at hbelow
      refine Relation.ReflTransGen.head ?_ hbelow
      rw [← adopt_append hp]
      rfl

/-- A walk over a tree ends, back at the root, with the arena of the tree. -/
theorem arena_mem_eval (t : SyntaxTree) (text : String) :
    ⟨⟨t, []⟩, false, (t.arena text).toList, []⟩ ∈ eval (step? (lineFeeds 0 text.toList)) (start t) := by
  refine mem_eval.2 ⟨?_, rfl⟩
  exact passes _ t [] [] [] (fun _ h => absurd h (Option.not_mem_none _))

end Walk

end TreeRepair
