import Mathlib.Data.List.Induction
import TreeRepair.Proofs.Syntax.Places
import TreeRepair.Proofs.Syntax.Positions

/-! The nodes of a tree in its arena. A node has the number of the nodes that come before it in the document; its parent
is named by the number of the node above it, and its children are those that name it. -/

set_option autoImplicit false

namespace TreeRepair

/-- A node of an arena holds what a tree says about a node of it, with the lines and columns in a text. -/
structure SyntaxNode.Tells (node : SyntaxNode) (n : NodeInfo) (source : List Char) : Prop where
  kind : node.kind = n.kind
  named : node.named = n.named
  field : node.field = n.field
  start : node.start = n.start
  stop : node.stop = n.stop
  begins : LiesAt source n.start node.startLine node.startColumn
  ends : ∃ column, LiesAt source n.stop node.endLine column

namespace SyntaxTree

/-- The number of nodes that come in the document before the one at a place. -/
def rank : SyntaxTree → List Nat → Nat
  | _, [] => 0
  | t, k :: p => 1 + sizeAll (t.children.take k) + (t.children[k]?).elim 0 fun c => c.rank p

/-- The number of the node above the one at a place. -/
def rankAbove (t : SyntaxTree) (p : List Nat) : Option Nat := if p = [] then none else some (t.rank p.dropLast)

/-- The nodes of a tree stand in a list from an index on, and its root has a parent. -/
def Sits (nodes : List SyntaxNode) (feeds : List Nat) (parent : Option Nat) (i : Nat) (t : SyntaxTree) : Prop :=
  t.flatten feeds parent i <+: nodes.drop i

/-- The nodes of the trees below a parent stand in a list from an index on. -/
def SitAll (nodes : List SyntaxNode) (feeds : List Nat) (parent i : Nat) (ts : List SyntaxTree) : Prop :=
  flattenAll feeds parent i ts <+: nodes.drop i

variable {t s s' c : SyntaxTree} {ts : List SyntaxTree} {info n : NodeInfo} {p q : List Nat} {i j k : Nat}
  {nodes : List SyntaxNode} {feeds : List Nat} {parent : Option Nat}

/-! ## Sizes -/

theorem size_pos (t : SyntaxTree) : 0 < t.size := by
  rw [size_eq]
  exact Nat.succ_pos _

theorem length_flattenAll (h : ∀ c ∈ ts, ∀ parent i, (flatten feeds parent i c).length = c.size) (m i : Nat) :
    (flattenAll feeds m i ts).length = sizeAll ts := by
  induction ts generalizing i with
  | nil => rfl
  | cons t ts ih =>
    obtain ⟨ht, hts⟩ := List.forall_mem_cons.1 h
    rw [flattenAll, List.length_append, ht, ih hts, sizeAll]

theorem length_flatten (feeds : List Nat) (parent : Option Nat) (i : Nat) (t : SyntaxTree) :
    (t.flatten feeds parent i).length = t.size := by
  induction t generalizing parent i with
  | node info children ih => rw [flatten, List.length_cons, length_flattenAll ih, size]

theorem size_arena (t : SyntaxTree) (text : String) : (t.arena text).size = t.size := by
  rw [arena, List.size_toArray, length_flatten]

theorem length_visitAll_all (h : ∀ c ∈ ts, c.placed.length = c.size) (k : Nat) :
    (visitAll (fun _ => true) (fun _ => true) k ts).length = sizeAll ts := by
  induction ts generalizing k with
  | nil => rfl
  | cons t ts ih =>
    obtain ⟨ht, hts⟩ := List.forall_mem_cons.1 h
    rw [visitAll, List.length_append, List.length_map, ih hts, sizeAll, ← ht, placed]

theorem length_placed (t : SyntaxTree) : t.placed.length = t.size := by
  induction t with
  | node info children ih =>
    rw [placed, visit, if_pos rfl, if_pos rfl, List.length_append, length_visitAll_all ih, size, Nat.add_comm]
    rfl

/-! ## Ranks -/

theorem getElem?_visitAll_all (hc : ts[k]? = some c) (hj : j < c.size) (m : Nat) :
    (visitAll (fun _ => true) (fun _ => true) m ts)[sizeAll (ts.take k) + j]? =
      (c.placed[j]?).map (Prod.map ((m + k) :: ·) id) := by
  induction ts generalizing k m with
  | nil => cases hc
  | cons t ts ih =>
    have hlen : ((t.visit (fun _ => true) fun _ => true).map (Prod.map (m :: ·) id)).length = t.size := by
      rw [List.length_map]
      exact length_placed t
    rw [visitAll]
    cases k with
    | zero =>
      obtain rfl := Option.some.inj hc
      rw [List.take_zero, sizeAll, Nat.zero_add, List.getElem?_append_left (hlen ▸ hj), List.getElem?_map]
      rfl
    | succ k =>
      rw [List.take_succ_cons, sizeAll, List.getElem?_append_right (by omega), hlen,
        show t.size + sizeAll (ts.take k) + j - t.size = sizeAll (ts.take k) + j by omega,
        ih hc, Nat.add_assoc, Nat.add_comm 1]

theorem rank_lt (h : t.infoAt? p = some n) : t.rank p < t.size ∧ t.placed[t.rank p]? = some (p, n) := by
  induction p generalizing t with
  | nil =>
    obtain ⟨info, children⟩ := t
    obtain rfl := Option.some.inj h
    exact ⟨size_pos _, rfl⟩
  | cons k p ih =>
    obtain ⟨info, children⟩ := t
    obtain ⟨c, hc, hn⟩ := infoAt?_cons_eq_some.1 h
    obtain ⟨hlt, hplaced⟩ := ih hn
    replace hc : children[k]? = some c := hc
    have hrank : rank (node info children) (k :: p) = 1 + (sizeAll (children.take k) + c.rank p) := by
      rw [rank, SyntaxTree.children, hc, Option.elim_some, Nat.add_assoc]
    have hget : (node info children).placed[rank (node info children) (k :: p)]? = some (k :: p, n) := by
      rw [hrank, placed, visit, if_pos rfl, if_pos rfl, List.getElem?_append_right (by simp), List.length_singleton,
        Nat.add_sub_cancel_left, getElem?_visitAll_all hc hlt, hplaced, Nat.zero_add]
      rfl
    refine ⟨?_, hget⟩
    rw [← length_placed]
    exact (List.getElem?_eq_some_iff.1 hget).1

theorem placed_getElem?_iff : t.placed[i]? = some (p, n) ↔ t.infoAt? p = some n ∧ t.rank p = i := by
  constructor
  · intro h
    have hn := mem_placed.1 (List.mem_of_getElem? h)
    obtain ⟨hi, hget⟩ := List.getElem?_eq_some_iff.1 h
    obtain ⟨hrank, hget'⟩ := List.getElem?_eq_some_iff.1 (rank_lt hn).2
    refine ⟨hn, ?_⟩
    by_contra hne
    -- the place would stand twice in an increasing list
    have hsorted := List.pairwise_iff_getElem.1 t.placed_pairwise
    rcases Nat.lt_or_gt_of_ne hne with hlt | hlt
    · exact List.lt_irrefl p (by simpa [hget, hget'] using hsorted _ _ hrank hi hlt)
    · exact List.lt_irrefl p (by simpa [hget, hget'] using hsorted _ _ hi hrank hlt)
  · rintro ⟨hn, rfl⟩
    exact (rank_lt hn).2

theorem exists_rank_eq (t : SyntaxTree) (hi : i < t.size) : ∃ p s, t.at? p = some s ∧ t.rank p = i := by
  rw [← length_placed] at hi
  obtain ⟨hn, hrank⟩ := placed_getElem?_iff.1 (List.getElem?_eq_getElem hi)
  obtain ⟨s, hs, -⟩ := infoAt?_eq_some.1 hn
  exact ⟨_, s, hs, hrank⟩

theorem lt_of_rank_lt (hs : t.at? p = some s) (hs' : t.at? q = some s') (hlt : t.rank p < t.rank q) : p < q := by
  obtain ⟨hi, hp⟩ := List.getElem?_eq_some_iff.1 (rank_lt (infoAt?_eq_some.2 ⟨s, hs, rfl⟩)).2
  obtain ⟨hj, hq⟩ := List.getElem?_eq_some_iff.1 (rank_lt (infoAt?_eq_some.2 ⟨s', hs', rfl⟩)).2
  have hbefore := List.pairwise_iff_getElem.1 t.placed_pairwise _ _ hi hj hlt
  rwa [hp, hq] at hbefore

theorem rank_concat (hs : t.at? p = some s) (hc : s.children[k]? = some c) :
    t.rank (p ++ [k]) = t.rank p + 1 + sizeAll (s.children.take k) := by
  induction p generalizing t with
  | nil =>
    obtain rfl := Option.some.inj hs
    rw [List.nil_append, rank, rank, hc, Option.elim_some, rank]
    omega
  | cons j p ih =>
    obtain ⟨d, hd, hs⟩ := at?_cons_eq_some.1 hs
    rw [List.cons_append, rank, rank, hd, Option.elim_some, Option.elim_some, ih hs]
    omega

/-! ## Nodes in an arena -/

theorem isPrefix_drop {α : Type} {a b l : List α} (h : a ++ b <+: l.drop i) :
    a <+: l.drop i ∧ b <+: l.drop (i + a.length) := by
  obtain ⟨rest, hrest⟩ := h
  refine ⟨⟨b ++ rest, by rw [← hrest, List.append_assoc]⟩, rest, ?_⟩
  rw [← List.drop_drop, ← hrest, List.append_assoc, List.drop_left]

theorem Sits.root (h : Sits nodes feeds parent i t) :
    nodes[i]? = some (arenaNode feeds parent t.info (startIndices (i + 1) t.children)) ∧
      SitAll nodes feeds i (i + 1) t.children := by
  obtain ⟨info, children⟩ := t
  rw [Sits, flatten, ← List.singleton_append] at h
  obtain ⟨⟨rest, hrest⟩, hbelow⟩ := isPrefix_drop h
  refine ⟨?_, hbelow⟩
  rw [← Nat.add_zero i, ← List.getElem?_drop, ← hrest]
  rfl

theorem SitAll.head (h : SitAll nodes feeds j i (t :: ts)) :
    Sits nodes feeds (some j) i t ∧ SitAll nodes feeds j (i + t.size) ts := by
  rw [SitAll, flattenAll] at h
  have hparts := isPrefix_drop h
  rw [length_flatten] at hparts
  exact hparts

theorem SitAll.child (h : SitAll nodes feeds j i ts) (hc : ts[k]? = some c) :
    Sits nodes feeds (some j) (i + sizeAll (ts.take k)) c := by
  induction ts generalizing i k with
  | nil => cases hc
  | cons t ts ih =>
    obtain ⟨ht, hts⟩ := h.head
    cases k with
    | zero =>
      obtain rfl := Option.some.inj hc
      exact ht
    | succ k =>
      rw [List.take_succ_cons, sizeAll, ← Nat.add_assoc]
      exact ih hts hc

theorem sits_arena (t : SyntaxTree) (text : String) :
    Sits (t.arena text).toList (lineFeeds 0 text.toList) none 0 t := List.prefix_rfl

/-- The tree at a place stands in the arena where its root has its number. -/
theorem Sits.atPlace (h : Sits nodes feeds none 0 t) (hs : t.at? p = some s) :
    Sits nodes feeds (t.rankAbove p) (t.rank p) s := by
  induction p using List.reverseRecOn generalizing s with
  | nil =>
    obtain rfl := Option.some.inj hs
    exact h
  | append_singleton p k ih =>
    obtain ⟨up, hup, hs⟩ := at?_concat_eq_some.1 hs
    have habove : t.rankAbove (p ++ [k]) = some (t.rank p) := by
      rw [rankAbove, if_neg (by simp), List.dropLast_concat]
    rw [habove, rank_concat hup hs]
    exact (ih hup).root.2.child hs

theorem tells_arenaNode (source : List Char) (parent : Option Nat) (n : NodeInfo) (children : List Nat) :
    (arenaNode (lineFeeds 0 source) parent n children).Tells n source :=
  ⟨rfl, rfl, rfl, rfl, rfl, liesAt_rowAndColumn source n.start, _, liesAt_rowAndColumn source n.stop⟩

/-! ## Indices of children -/

theorem mem_startIndices : j ∈ startIndices i ts ↔ ∃ k c, ts[k]? = some c ∧ j = i + sizeAll (ts.take k) := by
  induction ts generalizing i with
  | nil => simp [startIndices]
  | cons t ts ih =>
    rw [startIndices, List.mem_cons, ih]
    constructor
    · rintro (rfl | ⟨k, c, hc, rfl⟩)
      · exact ⟨0, t, rfl, rfl⟩
      · exact ⟨k + 1, c, hc, by rw [List.take_succ_cons, sizeAll, Nat.add_assoc]⟩
    · rintro ⟨k, c, hc, rfl⟩
      cases k with
      | zero => exact .inl rfl
      | succ k => exact .inr ⟨k, c, hc, by rw [List.take_succ_cons, sizeAll, Nat.add_assoc]⟩

theorem startIndices_pairwise (i : Nat) (ts : List SyntaxTree) : (startIndices i ts).Pairwise (· < ·) := by
  induction ts generalizing i with
  | nil => exact List.Pairwise.nil
  | cons t ts ih =>
    refine List.pairwise_cons.2 ⟨fun j hj => ?_, ih _⟩
    obtain ⟨k, c, -, rfl⟩ := mem_startIndices.1 hj
    have := t.size_pos
    omega

end SyntaxTree

end TreeRepair
