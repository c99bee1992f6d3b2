import Mathlib.Data.List.Basic
import TreeRepair.Syntax.Tree

/-! Places in syntax trees. A place names a node by the children on the way to it from the root, and the order of
places as lists is the order of the document: a node comes before all below it, and all below a child come before the
next child. -/

set_option autoImplicit false

namespace TreeRepair.SyntaxTree

/-- A property of trees holds of all of them if it passes from the trees below a root to the tree. -/
@[induction_eliminator]
theorem induct {motive : SyntaxTree → Prop}
    (node : ∀ info children, (∀ c ∈ children, motive c) → motive (.node info children)) : ∀ t, motive t
  | .node info children => node info children fun c _ => induct node c

/-- The tree at a place. -/
def at? : SyntaxTree → List Nat → Option SyntaxTree
  | t, [] => some t
  | t, k :: p => (t.children[k]?).bind fun c => c.at? p

/-- What a tree says about the node at a place. -/
def infoAt? (t : SyntaxTree) (p : List Nat) : Option NodeInfo := (t.at? p).map info

mutual

/-- The nodes of a tree that are shown, in the order of the document and each with its place, if what is below a node
is visited where the node is entered. -/
def visit (shown entered : NodeInfo → Bool) : SyntaxTree → List (List Nat × NodeInfo)
  | .node info children =>
    (if shown info then [([], info)] else []) ++
      if entered info then visitAll shown entered 0 children else []

/-- A visit to the children of a node, the first of them child `k`. -/
def visitAll (shown entered : NodeInfo → Bool) (k : Nat) : List SyntaxTree → List (List Nat × NodeInfo)
  | [] => []
  | t :: ts => (t.visit shown entered).map (Prod.map (k :: ·) id) ++ visitAll shown entered (k + 1) ts

end

/-- All nodes of a tree in the order of the document, each with its place. -/
def placed (t : SyntaxTree) : List (List Nat × NodeInfo) := t.visit (fun _ => true) fun _ => true

/-- The children of a node stand in the text one behind the other, and inside the text of the node. -/
structure Ordered (t : SyntaxTree) : Prop where
  range : t.info.start ≤ t.info.stop
  within : ∀ c ∈ t.children, t.info.start ≤ c.info.start ∧ c.info.stop ≤ t.info.stop
  siblings : t.children.Pairwise fun c d => c.info.stop ≤ d.info.start

/-- The children of every node stand in the text in their order. -/
def InSourceOrder (t : SyntaxTree) : Prop := ∀ p s, t.at? p = some s → s.Ordered

variable {t s s' c : SyntaxTree} {ts : List SyntaxTree} {info n : NodeInfo} {p q : List Nat} {k j : Nat}
  {shown entered : NodeInfo → Bool}

/-! ## Trees at places -/

theorem at?_cons_eq_some : t.at? (k :: p) = some s ↔ ∃ c, t.children[k]? = some c ∧ c.at? p = some s := by
  rw [at?, Option.bind_eq_some_iff]

theorem at?_append (t : SyntaxTree) (p q : List Nat) : t.at? (p ++ q) = (t.at? p).bind (·.at? q) := by
  induction p generalizing t with
  | nil => rfl
  | cons k p ih =>
    rw [List.cons_append, at?, at?, Option.bind_assoc]
    exact Option.bind_congr fun c _ => ih c

theorem at?_concat_eq_some : t.at? (p ++ [k]) = some c ↔ ∃ s, t.at? p = some s ∧ s.children[k]? = some c := by
  rw [at?_append, Option.bind_eq_some_iff]
  refine exists_congr fun s => and_congr_right fun _ => ?_
  rw [at?_cons_eq_some]
  exact ⟨fun ⟨d, hd, hc⟩ => Option.some.inj hc ▸ hd, fun hc => ⟨c, hc, rfl⟩⟩

theorem infoAt?_cons_eq_some : t.infoAt? (k :: p) = some n ↔ ∃ c, t.children[k]? = some c ∧ c.infoAt? p = some n := by
  rw [infoAt?, at?, Option.map_bind, Option.bind_eq_some_iff]
  rfl

theorem infoAt?_eq_some : t.infoAt? p = some n ↔ ∃ s, t.at? p = some s ∧ s.info = n := Option.map_eq_some_iff

/-! ## Visits -/

theorem mem_visitAll : (p, n) ∈ visitAll shown entered k ts ↔
    ∃ j c q, ts[j]? = some c ∧ p = (k + j) :: q ∧ (q, n) ∈ c.visit shown entered := by
  induction ts generalizing k with
  | nil => simp [visitAll]
  | cons t ts ih =>
    rw [visitAll, List.mem_append, List.mem_map, ih]
    constructor
    · rintro (⟨⟨q, m⟩, hmem, heq⟩ | ⟨j, c, q, hc, rfl, hmem⟩)
      · obtain ⟨rfl, rfl⟩ := Prod.mk.inj heq
        exact ⟨0, t, q, rfl, rfl, hmem⟩
      · exact ⟨j + 1, c, q, hc, by rw [Nat.add_assoc, Nat.add_comm 1], hmem⟩
    · rintro ⟨j, c, q, hc, rfl, hmem⟩
      cases j with
      | zero =>
        obtain rfl := Option.some.inj hc
        exact .inl ⟨(q, n), hmem, rfl⟩
      | succ j => exact .inr ⟨j, c, q, hc, by rw [Nat.add_assoc, Nat.add_comm 1], hmem⟩

theorem mem_visit_node : (p, n) ∈ (node info ts).visit shown entered ↔
    (p = [] ∧ n = info ∧ shown info = true) ∨
      (entered info = true ∧ ∃ k c q, ts[k]? = some c ∧ p = k :: q ∧ (q, n) ∈ c.visit shown entered) := by
  have hbelow : (p, n) ∈ visitAll shown entered 0 ts ↔
      ∃ k c q, ts[k]? = some c ∧ p = k :: q ∧ (q, n) ∈ c.visit shown entered := by
    simpa only [Nat.zero_add] using mem_visitAll (k := 0)
  rw [visit, List.mem_append, ← hbelow]
  refine or_congr ?_ ?_
  · cases shown info <;> simp
  · cases entered info <;> simp

/-- A visit shows the nodes that are to be shown, as far as all nodes above them are entered. -/
theorem mem_visit : (p, n) ∈ t.visit shown entered ↔ t.infoAt? p = some n ∧ shown n = true ∧
    ∀ q m, q <+: p → q ≠ p → t.infoAt? q = some m → entered m = true := by
  induction t generalizing p n with
  | node info children ih =>
    rw [mem_visit_node]
    constructor
    · rintro (⟨rfl, rfl, hshown⟩ | ⟨hentered, k, c, q, hc, rfl, hmem⟩)
      · exact ⟨rfl, hshown, fun q m hq hne => absurd (List.prefix_nil.1 hq) hne⟩
      · obtain ⟨hn, hshown, habove⟩ := (ih c (List.mem_of_getElem? hc)).1 hmem
        refine ⟨infoAt?_cons_eq_some.2 ⟨c, hc, hn⟩, hshown, fun r m hr hne hm => ?_⟩
        rcases List.prefix_cons_iff.1 hr with rfl | ⟨r, rfl, hrq⟩
        · exact Option.some.inj hm ▸ hentered
        · obtain ⟨d, hd, hm⟩ := infoAt?_cons_eq_some.1 hm
          obtain rfl := Option.some.inj (hc.symm.trans hd)
          exact habove r m hrq (fun heq => hne (heq ▸ rfl)) hm
    · rintro ⟨hn, hshown, habove⟩
      cases p with
      | nil =>
        obtain rfl := Option.some.inj hn
        exact .inl ⟨rfl, rfl, hshown⟩
      | cons k q =>
        obtain ⟨c, hc, hn⟩ := infoAt?_cons_eq_some.1 hn
        refine .inr ⟨habove [] info List.nil_prefix (List.cons_ne_nil k q).symm rfl, k, c, q, hc, rfl,
          (ih c (List.mem_of_getElem? hc)).2 ⟨hn, hshown, fun r m hr hne hm => ?_⟩⟩
        exact habove (k :: r) m (List.cons_prefix_cons.2 ⟨rfl, hr⟩) (fun heq => hne (List.cons.inj heq).2)
          (infoAt?_cons_eq_some.2 ⟨c, hc, hm⟩)

theorem visitAll_pairwise (h : ∀ c ∈ ts, (c.visit shown entered).Pairwise fun x y => x.1 < y.1) (k : Nat) :
    (visitAll shown entered k ts).Pairwise fun x y => x.1 < y.1 := by
  induction ts generalizing k with
  | nil => exact List.Pairwise.nil
  | cons t ts ih =>
    obtain ⟨ht, hts⟩ := List.forall_mem_cons.1 h
    rw [visitAll, List.pairwise_append]
    refine ⟨List.pairwise_map.2 (ht.imp fun hlt => List.cons_lt_cons_self.2 hlt), ih hts (k + 1), ?_⟩
    rintro _ hx ⟨p, n⟩ hy
    obtain ⟨x, -, rfl⟩ := List.mem_map.1 hx
    obtain ⟨j, c, q, -, rfl, -⟩ := mem_visitAll.1 hy
    exact List.cons_lt_cons_iff.2 (.inl (by omega))

/-- A visit comes to the nodes in the order of their places. -/
theorem visit_pairwise (shown entered : NodeInfo → Bool) (t : SyntaxTree) :
    (t.visit shown entered).Pairwise fun x y => x.1 < y.1 := by
  induction t with
  | node info children ih =>
    rw [visit, List.pairwise_append]
    refine ⟨by split <;> simp, ?_, ?_⟩
    · split
      · exact visitAll_pairwise ih 0
      · exact List.Pairwise.nil
    · rintro x hx ⟨p, n⟩ hy
      obtain rfl : x = ([], info) := by
        split at hx
        · exact List.mem_singleton.1 hx
        · exact absurd hx List.not_mem_nil
      split at hy
      · obtain ⟨j, c, q, -, rfl, -⟩ := mem_visitAll.1 hy
        exact List.nil_lt_cons _ _
      · exact absurd hy List.not_mem_nil

theorem mem_placed : (p, n) ∈ t.placed ↔ t.infoAt? p = some n := by
  rw [placed, mem_visit]
  exact ⟨fun h => h.1, fun h => ⟨h, rfl, fun _ _ _ _ _ => rfl⟩⟩

theorem placed_pairwise (t : SyntaxTree) : t.placed.Pairwise fun x y => x.1 < y.1 := visit_pairwise _ _ t

/-! ## Trees in source order -/

theorem inSourceOrder_iff : t.InSourceOrder ↔ t.Ordered ∧ ∀ c ∈ t.children, c.InSourceOrder := by
  constructor
  · refine fun h => ⟨h [] t rfl, fun c hc p s hs => ?_⟩
    obtain ⟨k, hk⟩ := List.mem_iff_getElem?.1 hc
    exact h (k :: p) s (at?_cons_eq_some.2 ⟨c, hk, hs⟩)
  · rintro ⟨hroot, hbelow⟩ p s hs
    cases p with
    | nil => exact Option.some.inj hs ▸ hroot
    | cons k p =>
      obtain ⟨c, hc, hs⟩ := at?_cons_eq_some.1 hs
      exact hbelow c (List.mem_of_getElem? hc) p s hs

theorem inSourceOrder_node : (node info ts).InSourceOrder ↔ (info.start ≤ info.stop ∧
    (∀ c ∈ ts, info.start ≤ c.info.start ∧ c.info.stop ≤ info.stop) ∧
    ts.Pairwise fun c d => c.info.stop ≤ d.info.start) ∧ ∀ c ∈ ts, c.InSourceOrder :=
  inSourceOrder_iff.trans (and_congr_left' ⟨fun h => ⟨h.range, h.within, h.siblings⟩, fun ⟨hrange, hwithin, hsiblings⟩ =>
    ⟨hrange, hwithin, hsiblings⟩⟩)

theorem InSourceOrder.within (h : t.InSourceOrder) (hs : t.at? p = some s) :
    t.info.start ≤ s.info.start ∧ s.info.start ≤ s.info.stop ∧ s.info.stop ≤ t.info.stop := by
  induction p generalizing t with
  | nil =>
    obtain rfl := Option.some.inj hs
    exact ⟨Nat.le_refl _, (h [] _ rfl).range, Nat.le_refl _⟩
  | cons k p ih =>
    obtain ⟨c, hc, hs⟩ := at?_cons_eq_some.1 hs
    obtain ⟨hroot, hbelow⟩ := inSourceOrder_iff.1 h
    have hmem := List.mem_of_getElem? hc
    obtain ⟨hstart, hstop⟩ := hroot.within c hmem
    obtain ⟨hstart', hrange, hstop'⟩ := ih (hbelow c hmem) hs
    exact ⟨Nat.le_trans hstart hstart', hrange, Nat.le_trans hstop' hstop⟩

/-- In a tree in source order a node that comes later in the document does not begin earlier in the text. -/
theorem InSourceOrder.start_le (h : t.InSourceOrder) (hs : t.at? p = some s) (hs' : t.at? q = some s') (hlt : p < q) :
    s.info.start ≤ s'.info.start := by
  induction p generalizing t q with
  | nil =>
    obtain rfl := Option.some.inj hs
    exact (h.within hs').1
  | cons k p ih =>
    cases q with
    | nil => exact absurd hlt (List.not_lt_nil _)
    | cons j q =>
      obtain ⟨c, hc, hs⟩ := at?_cons_eq_some.1 hs
      obtain ⟨d, hd, hs'⟩ := at?_cons_eq_some.1 hs'
      obtain ⟨hroot, hbelow⟩ := inSourceOrder_iff.1 h
      rcases List.cons_lt_cons_iff.1 hlt with hkj | ⟨rfl, hpq⟩
      · obtain ⟨-, hrange, hstop⟩ := (hbelow c (List.mem_of_getElem? hc)).within hs
        obtain ⟨hstart, -, -⟩ := (hbelow d (List.mem_of_getElem? hd)).within hs'
        have hgap : c.info.stop ≤ d.info.start := by
          obtain ⟨hk, rfl⟩ := List.getElem?_eq_some_iff.1 hc
          obtain ⟨hj, rfl⟩ := List.getElem?_eq_some_iff.1 hd
          exact List.pairwise_iff_getElem.1 hroot.siblings k j hk hj hkj
        omega
      · obtain rfl := Option.some.inj (hc.symm.trans hd)
        exact ih (hbelow c (List.mem_of_getElem? hc)) hs hs' hpq

end TreeRepair.SyntaxTree
