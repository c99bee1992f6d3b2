import TreeRepair.Graph.ImportGraph

/-!
The digraph beside the list of edges. Both are filled in one pass over the imports. An edge that leads to a file is an
arc of the digraph as well, and the arc carries the place of the edge in the list; by way of that place successors are
read back from the arcs that leave a node.
-/
namespace TreeRepair

namespace ImportGraph

/-- An arc from one position to another one, with the place of its edge in the list of edges. -/
structure Arc where
  source : Nat
  target : Nat
  place : Nat
  deriving DecidableEq, Repr

/-- Whether an arc is not behind another one: by place, then by target. -/
def Arc.notBehind (a b : Arc) : Bool := a.place < b.place || (a.place == b.place && a.target ≤ b.target)

/-- The list of edges and the arcs, as far as they are filled in. -/
structure Links where
  edges : List ImportEdge
  arcs : List Arc

namespace Links

/-- Adds an import of the node at a position, if it leads to a node or to a package. -/
def add (g : ImportGraph) (i : Nat) (l : Links) (r : ImportRecord) : Links :=
  match r.resolution with
  | .internal key =>
    match g.position? key with
    | some j => ⟨l.edges ++ [⟨i, .file key, r.clause.kind⟩], l.arcs ++ [⟨i, j, l.edges.length⟩]⟩
    | none => l
  | .external package => ⟨l.edges ++ [⟨i, .package package, r.clause.kind⟩], l.arcs⟩
  | .missing _ => l

/-- Adds the imports of nodes from a position on. -/
def addFrom (g : ImportGraph) : Nat → List SourceNode → Links → Links
  | _, [], l => l
  | i, n :: rest, l => addFrom g (i + 1) rest (n.imports.foldl (add g i) l)

/-- The arcs that leave a position, the one added last first. -/
def outgoing (l : Links) (i : Nat) : List Arc := (l.arcs.filter (·.source == i)).reverse

/-- Whether the edge of an arc is of a wanted kind. -/
def isWanted (l : Links) (staticOnly : Bool) (a : Arc) : Bool :=
  !staticOnly || (l.edges[a.place]?).any (·.kind == .static)

/-- The positions that arcs lead to from a position, each once, in the order of the edges. -/
def successors (l : Links) (staticOnly : Bool) (i : Nat) : List Nat :=
  distinct ((((l.outgoing i).filter (l.isWanted staticOnly)).mergeSort Arc.notBehind).map (·.target))

end Links

/-- The list of edges and the arcs of a graph. -/
def links (g : ImportGraph) : Links := .addFrom g 0 g.nodes ⟨[], []⟩

end ImportGraph

end TreeRepair
