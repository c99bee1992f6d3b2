import Mathlib.Data.List.Sort
import TreeRepair.Proofs.Syntax.Cursor

/-! Traversals of arenas that hold trees. The preorder of such an arena is the order of its numbers, so the nodes of a
kind come in the order of the text; the way from a node over its ancestors ends at the root; and the depth that is
measured is the height of the tree. The loops over a stack of nodes that are left come to the same. -/

set_option autoImplicit false

namespace TreeRepair

open StateTransition (Reaches eval mem_eval)

namespace SyntaxTree

mutual

/-- The number of nodes on the longest way down from the root. -/
def height : SyntaxTree → Nat
  | .node _ children => heightAll children + 1

/-- The height of the highest of several trees. -/
def heightAll : List SyntaxTree → Nat
  | [] => 0
  | t :: ts => max t.height (heightAll ts)

end

variable {t s : SyntaxTree} {ts : List SyntaxTree} {p : List Nat}

/-! ## Heights -/

theorem height_eq (t : SyntaxTree) : t.height = heightAll t.children + 1 := by
  cases t with
  | node info children => rfl

theorem height_le_heightAll (h : s ∈ ts) : s.height ≤ heightAll ts := by
  induction ts with
  | nil => exact absurd h List.not_mem_nil
  | cons t ts ih =>
    rw [heightAll]
    rcases List.mem_cons.1 h with rfl | h
    · exact Nat.le_max_left ..
    · exact (ih h).trans (Nat.le_max_right ..)

theorem exists_height_eq_heightAll (hne : ts ≠ []) : ∃ c ∈ ts, c.height = heightAll ts := by
  induction ts with
  | nil => exact absurd rfl hne
  | cons t ts ih =>
    rw [heightAll]
    rcases Nat.le_total (heightAll ts) t.height with hle | hle
    · exact ⟨t, List.mem_cons_self .., (Nat.max_eq_left hle).symm⟩
    · have hts : ts ≠ [] := by
        rintro rfl
        have := t.height_eq
        rw [heightAll] at hle
        omega
      obtain ⟨c, hc, heq⟩ := ih hts
      exact ⟨c, List.mem_cons_of_mem t hc, by rw [heq, Nat.max_eq_right hle]⟩

theorem heightAll_le_sizeAll (h : ∀ c ∈ ts, c.height ≤ c.size) : heightAll ts ≤ sizeAll ts := by
  induction ts with
  | nil => exact Nat.le_refl 0
  | cons t ts ih =>
    obtain ⟨ht, hts⟩ := List.forall_mem_cons.1 h
    have := ih hts
    rw [heightAll, sizeAll]
    omega

theorem height_le_size (t : SyntaxTree) : t.height ≤ t.size := by
  induction t with
  | node info children ih => exact Nat.succ_le_succ (heightAll_le_sizeAll ih)

theorem length_lt_height (hs : t.at? p = some s) : p.length < t.height := by
  induction p generalizing t with
  | nil =>
    rw [height_eq]
    exact Nat.succ_pos _
  | cons k p ih =>
    obtain ⟨c, hc, hs⟩ := at?_cons_eq_some.1 hs
    rw [height_eq, List.length_cons]
    exact Nat.succ_lt_succ ((ih hs).trans_le (height_le_heightAll (List.mem_of_getElem? hc)))

theorem exists_deepest (t : SyntaxTree) : ∃ p s, t.at? p = some s ∧ p.length + 1 = t.height := by
  induction t with
  | node info children ih =>
    by_cases hne : children = []
    · exact ⟨[], _, rfl, by rw [hne]; rfl⟩
    · obtain ⟨c, hmem, hheight⟩ := exists_height_eq_heightAll hne
      obtain ⟨p, s, hs, hlen⟩ := ih c hmem
      obtain ⟨k, hk⟩ := List.mem_iff_getElem?.1 hmem
      exact ⟨k :: p, s, at?_cons_eq_some.2 ⟨c, hk, hs⟩, by rw [List.length_cons, hlen, hheight, height]⟩

end SyntaxTree

namespace ParsedUnit

/-- A step of the loop that lists nodes: the nodes that are left, the next one first, and those that are listed. -/
def listStep? (u : ParsedUnit) : List Nat × List Nat → Option (List Nat × List Nat)
  | ([], _) => none
  | (i :: left, listed) => some (u.children i ++ left, listed ++ [i])

/-- A step of the loop that measures the tree: the nodes that are left, the next one first and each with its depth, and
the greatest depth so far. -/
def measureStep? (u : ParsedUnit) : List (Nat × Nat) × Nat → Option (List (Nat × Nat) × Nat)
  | ([], _) => none
  | ((i, depth) :: left, deepest) =>
    some (((u.children i).map fun c => (c, depth + 1)).reverse ++ left, max deepest depth)

/-- The nodes of a unit are those of a tree over a text, as a walk over the tree leaves them. They have the numbers of
the document order; each names the one above it as its parent and those that name it as its children. -/
structure Numbers (u : ParsedUnit) (t : SyntaxTree) (source : List Char) : Prop where
  walk : ⟨⟨t, []⟩, false, u.nodes.toList, []⟩ ∈ eval (Walk.step? (lineFeeds 0 source)) (Walk.start t)
  size : u.nodes.size = t.size
  nodes : ∀ i p n, t.placed[i]? = some (p, n) → ∃ node, u.node? i = some node ∧ node.Tells n source
  parents : ∀ i j, u.parent? i = some j ↔
    ∃ p k n m, t.placed[i]? = some (p ++ [k], n) ∧ t.placed[j]? = some (p, m)
  earlier : ∀ i j, u.parent? i = some j → j < i
  children : ∀ i, u.children i = (List.range t.size).filter fun j => u.parent? j == some i

/-- The traversals of a unit are those of a tree, and the loops over a stack come to the same. -/
structure Traverses (u : ParsedUnit) (t : SyntaxTree) : Prop where
  preorder : u.preorder = List.range t.size
  listed : ([], u.preorder) ∈ eval u.listStep? (u.root?.toList, [])
  increasing : ∀ kind, (u.nodesOfKind kind).Pairwise (· < ·)
  inSourceOrder : t.InSourceOrder → ∀ kind, (u.nodesOfKind kind).Pairwise fun i j =>
    ∀ a b, u.node? i = some a → u.node? j = some b → a.start ≤ b.start
  complete : ∀ kind i, i ∈ u.nodesOfKind kind ↔ ∃ p n, t.placed[i]? = some (p, n) ∧ n.kind = kind
  root : u.parent? 0 = none
  ancestors : ∀ i, i < t.size → (i :: u.ancestors i).IsChain (fun i j => u.parent? i = some j) ∧
    (i :: u.ancestors i).getLast? = some 0
  within : ∀ p n, (p, n) ∈ t.placed → p.length < u.height
  deepest : ∃ p n, (p, n) ∈ t.placed ∧ p.length + 1 = u.height
  measured : ([], u.height) ∈ eval u.measureStep? ((u.root?.map fun r => (r, 1)).toList, 0)

open SyntaxTree

variable {u : ParsedUnit} {t s : SyntaxTree} {text : String} {feeds : List Nat} {parent : Option Nat} {p : List Nat}
  {n : NodeInfo} {i j : Nat}

/-! ## Trees in an arena -/

/-- Induction on a tree that stands in an arena, together with the children of a node from one of them on. -/
theorem sits_induct {P : Nat → SyntaxTree → Prop} {Q : Nat → List SyntaxTree → Prop} (nil : ∀ i, Q i [])
    (cons : ∀ i t ts, P i t → Q (i + t.size) ts → Q i (t :: ts))
    (node : ∀ i info ts, u.children i = startIndices (i + 1) ts → Q (i + 1) ts → P i (.node info ts))
    (h : Sits u.nodes.toList feeds parent i t) : P i t := by
  induction t generalizing parent i with
  | node info ts ih =>
    obtain ⟨hroot, hbelow⟩ := h.root
    have hall (ts : List SyntaxTree) (j k : Nat) (hsit : SitAll u.nodes.toList feeds j k ts)
        (htrees : ∀ c ∈ ts, ∀ {parent i}, Sits u.nodes.toList feeds parent i c → P i c) : Q k ts := by
      induction ts generalizing k with
      | nil => exact nil k
      | cons t ts ih =>
        obtain ⟨ht, hts⟩ := hsit.head
        obtain ⟨hfirst, hothers⟩ := List.forall_mem_cons.1 htrees
        exact cons k t ts (hfirst ht) (ih _ hts hothers)
    refine node i info ts ?_ (hall ts i (i + 1) hbelow ih)
    rw [children, node?, ← Array.getElem?_toList, hroot]
    rfl

/-- The preorder of a tree in an arena is an interval of indices. -/
theorem preorderOnto_of_sits (h : Sits u.nodes.toList feeds parent i t) : ∀ depth rest, t.height ≤ depth →
    u.preorderOnto depth i rest = List.range' i t.size ++ rest := by
  refine sits_induct (P := fun i t => ∀ depth rest, t.height ≤ depth →
    u.preorderOnto depth i rest = List.range' i t.size ++ rest)
    (Q := fun i ts => ∀ depth rest, heightAll ts ≤ depth →
    (startIndices i ts).foldr (u.preorderOnto depth) rest = List.range' i (sizeAll ts) ++ rest) ?nil ?cons ?node h
  case nil => exact fun _ _ _ _ => rfl
  case cons =>
    intro i t ts hfirst hothers depth rest hdepth
    rw [heightAll, Nat.max_le] at hdepth
    rw [startIndices, List.foldr_cons, hothers depth rest hdepth.2, hfirst depth _ hdepth.1, ← List.append_assoc,
      sizeAll, List.range'_append_1]
  case node =>
    intro i info ts hchildren hbelow depth rest hdepth
    obtain ⟨depth, rfl⟩ := Nat.exists_eq_succ_of_ne_zero (Nat.ne_zero_of_lt hdepth)
    rw [preorderOnto, hchildren, hbelow depth rest (Nat.le_of_succ_le_succ hdepth), size, List.range'_succ]
    rfl

theorem heightFrom_of_sits (h : Sits u.nodes.toList feeds parent i t) : ∀ depth, t.height ≤ depth →
    u.heightFrom depth i = t.height := by
  refine sits_induct (P := fun i t => ∀ depth, t.height ≤ depth → u.heightFrom depth i = t.height)
    (Q := fun i ts => ∀ depth found, heightAll ts ≤ depth →
    (startIndices i ts).foldl (fun found c => max found (u.heightFrom depth c)) found = max found (heightAll ts))
    ?nil ?cons ?node h
  case nil => exact fun _ _ found _ => (Nat.max_zero found).symm
  case cons =>
    intro i t ts hfirst hothers depth found hdepth
    rw [heightAll, Nat.max_le] at hdepth
    rw [startIndices, List.foldl_cons, hothers depth _ hdepth.2, hfirst depth hdepth.1, heightAll, Nat.max_assoc]
  case node =>
    intro i info ts hchildren hbelow depth hdepth
    obtain ⟨depth, rfl⟩ := Nat.exists_eq_succ_of_ne_zero (Nat.ne_zero_of_lt hdepth)
    rw [heightFrom, hchildren, hbelow depth 0 (Nat.le_of_succ_le_succ hdepth), Nat.zero_max]
    rfl

/-! ## Loops -/

/-- The loop lists a tree whose root is next before what else is left. -/
theorem reaches_listed (h : Sits u.nodes.toList feeds parent i t) : ∀ left listed,
    Reaches u.listStep? (i :: left, listed) (left, listed ++ List.range' i t.size) := by
  refine sits_induct (P := fun i t => ∀ left listed,
    Reaches u.listStep? (i :: left, listed) (left, listed ++ List.range' i t.size))
    (Q := fun i ts => ∀ left listed,
    Reaches u.listStep? (startIndices i ts ++ left, listed) (left, listed ++ List.range' i (sizeAll ts))) ?nil ?cons ?node h
  case nil =>
    intro i left listed
    rw [sizeAll, List.range'_zero, List.append_nil]
    exact Relation.ReflTransGen.refl
  case cons =>
    intro i t ts hfirst hothers left listed
    refine Relation.ReflTransGen.trans (hfirst (startIndices (i + t.size) ts ++ left) listed) ?_
    rw [sizeAll, ← List.range'_append_1, ← List.append_assoc]
    exact hothers left _
  case node =>
    intro i info ts hchildren hbelow left listed
    rw [size, List.range'_succ, List.append_cons]
    refine Relation.ReflTransGen.head ?_ (hbelow left (listed ++ [i]))
    rw [listStep?, hchildren]
    rfl

/-- The loop measures a tree whose root is next before what else is left. It takes the children from the last one on. -/
theorem reaches_measured (h : Sits u.nodes.toList feeds parent i t) : ∀ left depth deepest,
    Reaches u.measureStep? ((i, depth + 1) :: left, deepest) (left, max deepest (depth + t.height)) := by
  refine sits_induct (P := fun i t => ∀ left depth deepest,
    Reaches u.measureStep? ((i, depth + 1) :: left, deepest) (left, max deepest (depth + t.height)))
    (Q := fun i ts => ∀ left depth deepest, depth ≤ deepest →
    Reaches u.measureStep? (((startIndices i ts).map fun c => (c, depth + 1)).reverse ++ left, deepest)
      (left, max deepest (depth + heightAll ts))) ?nil ?cons ?node h
  case nil =>
    intro i left depth deepest hdepth
    rw [heightAll, Nat.max_eq_left (show depth + 0 ≤ deepest from hdepth)]
    exact Relation.ReflTransGen.refl
  case cons =>
    intro i t ts hfirst hothers left depth deepest hdepth
    have hmax : max deepest (depth + heightAll (t :: ts)) =
        max (max deepest (depth + heightAll ts)) (depth + t.height) := by
      rw [heightAll]
      omega
    rw [startIndices, List.map_cons, List.reverse_cons, List.append_assoc, hmax]
    exact Relation.ReflTransGen.trans (hothers ((i, depth + 1) :: left) depth deepest hdepth) (hfirst left depth _)
  case node =>
    intro i info ts hchildren hbelow left depth deepest
    have hmax : max deepest (depth + (SyntaxTree.node info ts).height) =
        max (max deepest (depth + 1)) (depth + 1 + heightAll ts) := by
      rw [SyntaxTree.height]
      omega
    rw [hmax]
    refine Relation.ReflTransGen.head ?_ (hbelow left (depth + 1) _ (Nat.le_max_right ..))
    rw [measureStep?, hchildren]
    rfl

/-! ## Numbers -/

section Arena

variable (hu : u.nodes = t.arena text)
include hu

theorem sits_nodes : Sits u.nodes.toList (lineFeeds 0 text.toList) none 0 t := hu ▸ sits_arena t text

theorem node?_rank (hs : t.at? p = some s) : u.node? (t.rank p) = some (arenaNode (lineFeeds 0 text.toList)
    (t.rankAbove p) s.info (startIndices (t.rank p + 1) s.children)) := by
  rw [node?, ← Array.getElem?_toList]
  exact ((sits_nodes hu).atPlace hs).root.1

theorem size_nodes : u.nodes.size = t.size := hu ▸ size_arena t text

theorem exists_rank {node : SyntaxNode} (h : u.node? i = some node) : ∃ p s, t.at? p = some s ∧ t.rank p = i := by
  obtain ⟨hi, -⟩ := Array.getElem?_eq_some_iff.1 h
  exact t.exists_rank_eq (size_nodes hu ▸ hi)

theorem parent?_rank (hs : t.at? p = some s) : u.parent? (t.rank p) = t.rankAbove p := by
  rw [parent?, node?_rank hu hs]
  rfl

theorem children_rank (hs : t.at? p = some s) : u.children (t.rank p) = startIndices (t.rank p + 1) s.children := by
  rw [children, node?_rank hu hs]
  rfl

theorem parent?_eq_some : u.parent? i = some j ↔ ∃ p k s c, t.at? p = some s ∧ s.children[k]? = some c ∧
    t.rank (p ++ [k]) = i ∧ t.rank p = j := by
  constructor
  · intro h
    obtain ⟨node, hnode, -⟩ := Option.bind_eq_some_iff.1 h
    obtain ⟨q, c, hc, rfl⟩ := exists_rank hu hnode
    rw [parent?_rank hu hc, rankAbove] at h
    split at h
    · cases h
    · rename_i hne
      obtain ⟨p, k, rfl⟩ := (List.eq_nil_or_concat' q).resolve_left hne
      rw [List.dropLast_concat] at h
      obtain ⟨s, hs, hc⟩ := at?_concat_eq_some.1 hc
      exact ⟨p, k, s, c, hs, hc, rfl, Option.some.inj h⟩
  · rintro ⟨p, k, s, c, hs, hc, rfl, rfl⟩
    rw [parent?_rank hu (at?_concat_eq_some.2 ⟨s, hs, hc⟩), rankAbove, if_neg (by simp), List.dropLast_concat]

theorem mem_children : j ∈ u.children i ↔ u.parent? j = some i := by
  rw [parent?_eq_some hu]
  constructor
  · intro h
    cases hnode : u.node? i with
    | none =>
      rw [children, hnode] at h
      exact absurd h List.not_mem_nil
    | some node =>
      obtain ⟨p, s, hs, rfl⟩ := exists_rank hu hnode
      rw [children_rank hu hs] at h
      obtain ⟨k, c, hc, rfl⟩ := mem_startIndices.1 h
      exact ⟨p, k, s, c, hs, hc, rank_concat hs hc, rfl⟩
  · rintro ⟨p, k, s, c, hs, hc, rfl, rfl⟩
    rw [children_rank hu hs, rank_concat hs hc]
    exact mem_startIndices.2 ⟨k, c, hc, rfl⟩

theorem children_pairwise : (u.children i).Pairwise (· < ·) := by
  cases hnode : u.node? i with
  | none =>
    rw [children, hnode]
    exact List.Pairwise.nil
  | some node =>
    obtain ⟨p, s, hs, rfl⟩ := exists_rank hu hnode
    rw [children_rank hu hs]
    exact startIndices_pairwise _ _

theorem lt_size_of_parent? (h : u.parent? i = some j) : i < t.size := by
  obtain ⟨node, hnode, -⟩ := Option.bind_eq_some_iff.1 h
  exact size_nodes hu ▸ (Array.getElem?_eq_some_iff.1 hnode).1

theorem numbers : u.Numbers t text.toList where
  walk := hu ▸ Walk.arena_mem_eval t text
  size := size_nodes hu
  nodes i p n h := by
    obtain ⟨hn, rfl⟩ := placed_getElem?_iff.1 h
    obtain ⟨s, hs, rfl⟩ := infoAt?_eq_some.1 hn
    exact ⟨_, node?_rank hu hs, tells_arenaNode ..⟩
  parents i j := by
    simp only [placed_getElem?_iff, parent?_eq_some hu]
    constructor
    · rintro ⟨p, k, s, c, hs, hc, hi, hj⟩
      exact ⟨p, k, c.info, s.info, ⟨infoAt?_eq_some.2 ⟨c, at?_concat_eq_some.2 ⟨s, hs, hc⟩, rfl⟩, hi⟩,
        infoAt?_eq_some.2 ⟨s, hs, rfl⟩, hj⟩
    · rintro ⟨p, k, n, m, ⟨hn, hi⟩, -, hj⟩
      obtain ⟨c, hc, -⟩ := infoAt?_eq_some.1 hn
      obtain ⟨s, hs, hc⟩ := at?_concat_eq_some.1 hc
      exact ⟨p, k, s, c, hs, hc, hi, hj⟩
  earlier i j h := by
    obtain ⟨p, k, s, c, hs, hc, rfl, rfl⟩ := (parent?_eq_some hu).1 h
    rw [rank_concat hs hc]
    omega
  children i := by
    refine (children_pairwise hu).eq_of_mem_iff (List.pairwise_lt_range.filter _) fun j => ?_
    rw [mem_children hu, List.mem_filter, List.mem_range, beq_iff_eq]
    exact ⟨fun h => ⟨lt_size_of_parent? hu h, h⟩, fun h => h.2⟩

/-! ## Traversals -/

theorem root?_arena : u.root? = some 0 := by
  have hpos : 0 < u.nodes.size := size_nodes hu ▸ t.size_pos
  rw [root?, Array.isEmpty_eq_false_iff.2 (Array.size_pos_iff.1 hpos)]
  rfl

theorem preorder_arena : u.preorder = List.range t.size := by
  have hdepth : t.height ≤ u.nodes.size := size_nodes hu ▸ t.height_le_size
  rw [preorder, root?_arena hu]
  simp only
  rw [preorderOnto_of_sits (sits_nodes hu) _ [] hdepth, List.append_nil, List.range_eq_range']

theorem height_arena : u.height = t.height := by
  have hdepth : t.height ≤ u.nodes.size := size_nodes hu ▸ t.height_le_size
  rw [height, root?_arena hu, Option.elim_some, heightFrom_of_sits (sits_nodes hu) _ hdepth]

theorem mem_nodesOfKind {kind : String} :
    i ∈ u.nodesOfKind kind ↔ ∃ p n, t.placed[i]? = some (p, n) ∧ n.kind = kind := by
  rw [nodesOfKind, preorder_arena hu, List.mem_filter, List.mem_range, beq_iff_eq]
  have hkind (p : List Nat) (n : NodeInfo) (h : t.placed[i]? = some (p, n)) : u.kind i = n.kind := by
    obtain ⟨node, hnode, htells⟩ := (numbers hu).nodes i p n h
    rw [ParsedUnit.kind, hnode, Option.elim_some, htells.kind]
  constructor
  · rintro ⟨hi, rfl⟩
    obtain ⟨p, s, hs, hrank⟩ := t.exists_rank_eq hi
    have hget := placed_getElem?_iff.2 ⟨infoAt?_eq_some.2 ⟨s, hs, rfl⟩, hrank⟩
    exact ⟨p, s.info, hget, (hkind p s.info hget).symm⟩
  · rintro ⟨p, n, h, rfl⟩
    refine ⟨?_, hkind p n h⟩
    rw [← length_placed]
    exact (List.getElem?_eq_some_iff.1 h).1

/-- From a node over its ancestors there is a chain of parents that ends at the root. -/
theorem ancestorsFrom_chain {height : Nat} (hi : i < t.size) (hle : i ≤ height) :
    (i :: u.ancestorsFrom height i).IsChain (fun i j => u.parent? i = some j) ∧
      (i :: u.ancestorsFrom height i).getLast? = some 0 := by
  induction height generalizing i with
  | zero =>
    obtain rfl := Nat.le_zero.1 hle
    exact ⟨List.isChain_singleton _, rfl⟩
  | succ height ih =>
    rw [ancestorsFrom]
    cases hparent : u.parent? i with
    | none =>
      obtain ⟨p, s, hs, rfl⟩ := t.exists_rank_eq hi
      rw [parent?_rank hu hs, rankAbove, ite_eq_left_iff] at hparent
      obtain rfl : p = [] := by
        by_contra hne
        exact Option.some_ne_none _ (hparent hne)
      exact ⟨List.isChain_singleton _, rfl⟩
    | some j =>
      have hlt := (numbers hu).earlier i j hparent
      obtain ⟨hchain, hlast⟩ := ih (hlt.trans hi) (by omega)
      exact ⟨List.isChain_cons_cons.2 ⟨hparent, hchain⟩, by rw [List.getLast?_cons_cons, hlast]⟩

theorem traverses : u.Traverses t where
  preorder := preorder_arena hu
  listed := by
    refine mem_eval.2 ⟨?_, rfl⟩
    rw [preorder_arena hu, root?_arena hu, List.range_eq_range']
    exact reaches_listed (sits_nodes hu) [] []
  increasing kind := by
    rw [nodesOfKind, preorder_arena hu]
    exact List.pairwise_lt_range.filter _
  inSourceOrder horder kind := by
    rw [nodesOfKind, preorder_arena hu]
    refine (List.pairwise_lt_range.filter _).imp fun {i j} hlt a b ha hb => ?_
    obtain ⟨p, s, hs, rfl⟩ := exists_rank hu ha
    obtain ⟨q, s', hs', rfl⟩ := exists_rank hu hb
    rw [node?_rank hu hs] at ha
    rw [node?_rank hu hs'] at hb
    obtain rfl := Option.some.inj ha
    obtain rfl := Option.some.inj hb
    exact horder.start_le hs hs' (lt_of_rank_lt hs hs' hlt)
  complete kind i := mem_nodesOfKind hu
  root := parent?_rank hu (show t.at? [] = some t from rfl)
  ancestors i hi := by
    rw [ancestors, size_nodes hu]
    exact ancestorsFrom_chain hu hi hi.le
  within p n h := by
    obtain ⟨s, hs, -⟩ := infoAt?_eq_some.1 (mem_placed.1 h)
    rw [height_arena hu]
    exact length_lt_height hs
  deepest := by
    obtain ⟨p, s, hs, hlen⟩ := t.exists_deepest
    exact ⟨p, s.info, mem_placed.2 (infoAt?_eq_some.2 ⟨s, hs, rfl⟩), by rw [hlen, height_arena hu]⟩
  measured := by
    refine mem_eval.2 ⟨?_, rfl⟩
    have hrun := reaches_measured (sits_nodes hu) [] 0 0
    rw [Nat.zero_max, Nat.zero_add 1, Nat.zero_add t.height] at hrun
    rw [height_arena hu, root?_arena hu]
    exact hrun

end Arena

/-- A unit with the arena of a tree. The arena, as a walk of a cursor fills it, numbers the nodes in the order of the
document, and the nodes name their parents and children as they are in the tree. The preorder is that of the numbers,
the nodes of a kind come in it completely, the ancestors of a node lead to the root, and the height is that of the tree,
whether they are found by recursion or by a loop over a stack. -/
theorem arena_traversed (h : u.nodes = t.arena text) :
    (∀ p n, (p, n) ∈ t.placed ↔ t.infoAt? p = some n) ∧ t.placed.Pairwise (fun x y => x.1 < y.1) ∧
    t.placed.length = t.size ∧ u.Numbers t text.toList ∧ u.Traverses t :=
  ⟨fun _ _ => mem_placed, placed_pairwise t, length_placed t, numbers h, traverses h⟩

/-- A call in front of a name on the next line. -/
theorem arena_traversed_call :
    let leaf (start stop : Nat) := SyntaxTree.node ⟨"name", true, false, false, false, none, start, stop⟩ []
    let passed := SyntaxTree.node ⟨"arguments", true, false, false, false, some "arguments", 1, 4⟩ [leaf 2 3]
    let call := SyntaxTree.node ⟨"call", true, false, false, false, none, 0, 4⟩ [leaf 0 1, passed]
    let t := SyntaxTree.node ⟨"program", true, false, false, false, none, 0, 7⟩ [call, leaf 6 7]
    let u : ParsedUnit := ⟨"a.ts", "key", some .tsx, "f(x);\ng", t.arena "f(x);\ng", [], none⟩
    u.preorder = [0, 1, 2, 3, 4, 5] ∧ u.nodesOfKind "name" = [2, 4, 5] ∧ u.children 0 = [1, 5] ∧
      u.ancestors 4 = [3, 1, 0] ∧ u.height = 4 ∧ t.InSourceOrder ∧ u.Numbers t "f(x);\ng".toList ∧ u.Traverses t := by
  intro leaf passed call t u
  obtain ⟨-, -, -, hnumbers, htraverses⟩ := arena_traversed (show u.nodes = t.arena "f(x);\ng" from rfl)
  have horder : t.InSourceOrder := by
    simp [t, call, passed, leaf, inSourceOrder_node, info]
  refine ⟨htraverses.preorder.trans (by decide), ?_, ?_, ?_, ?_, horder, hnumbers, htraverses⟩
  all_goals decide +kernel

end ParsedUnit

end TreeRepair
