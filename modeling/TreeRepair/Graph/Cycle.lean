import TreeRepair.Graph.ImportGraph

/-!
Cycles of static imports. A depth-first search from every node in turn records, at each edge back to
a node on the current path, the part of the path from that node on. A cycle is kept in the rotation
that begins with its smallest position, and recorded once.
-/
namespace TreeRepair

namespace ImportGraph

/-- A depth-first search between two steps. -/
structure CycleSearch where
  /-- The nodes that are searched through. -/
  done : List Nat
  /-- The cycles met, in order. -/
  found : List (List Nat)

namespace CycleSearch

/-- The search before its first step. -/
def start : CycleSearch := ⟨[], []⟩

/-- The least of several positions. -/
def least : List Nat → Nat
  | [] => 0
  | [i] => i
  | i :: rest => min i (least rest)

/-- The rotation of a cycle that begins with its smallest position. -/
def rotate (cycle : List Nat) : List Nat :=
  let m := least cycle
  cycle.dropWhile (· != m) ++ cycle.takeWhile (· != m)

/-- The part of a path from a node on it, the path given last node first. -/
def closing (path : List Nat) (i : Nat) : List Nat := i :: (path.takeWhile (· != i)).reverse

/-- Records the cycle that an edge back to a node on the path closes. -/
def record (s : CycleSearch) (path : List Nat) (i : Nat) : CycleSearch :=
  let cycle := rotate (closing path i)
  if s.found.contains cycle then s else ⟨s.done, s.found ++ [cycle]⟩

/-- Marks a node as searched through. -/
def finish (s : CycleSearch) (i : Nat) : CycleSearch := ⟨i :: s.done, s.found⟩

/-- Searches from a node, `path` being the nodes before it, last one first. The depth bounds the
length of paths. -/
def visit (next : Nat → List Nat) : Nat → List Nat → CycleSearch → Nat → CycleSearch
  | 0, _, s, _ => s
  | depth + 1, path, s, i =>
    let here := i :: path
    let searched := (next i).foldl (fun s j =>
      if here.contains j then s.record here j
      else if s.done.contains j then s
      else visit next depth here s j) s
    searched.finish i

/-- Searches from a node unless that is done. -/
def visitRoot (next : Nat → List Nat) (depth : Nat) (s : CycleSearch) (i : Nat) : CycleSearch :=
  if s.done.contains i then s else visit next depth [] s i

end CycleSearch

/-- The cycles among the positions below `size`, where `next` gives the successors of each. -/
def cyclesOf (size : Nat) (next : Nat → List Nat) : List (List Nat) :=
  ((List.range size).foldl (CycleSearch.visitRoot next size) CycleSearch.start).found

/-- The successors of every position, computed once. -/
def successorTable (g : ImportGraph) (staticOnly : Bool) : Array (List Nat) :=
  ((List.range g.nodes.length).map (g.successors staticOnly)).toArray

/-- The cycles of static imports, by positions. -/
def cycles (g : ImportGraph) : List (List Nat) :=
  let table := g.successorTable true
  cyclesOf g.nodes.length fun i => table.getD i []

end ImportGraph

/-- An import cycle: its name and the keys of its files in import order. -/
structure ImportCycle where
  name : String
  files : List String
  deriving DecidableEq, Repr

/-- The name of the cycle that is found at an index. -/
def ImportCycle.nameAt (index : Nat) : String := "cycle:" ++ toString (index + 1)

/-- The cycles of static imports, named in order. -/
def ImportGraph.importCycles (g : ImportGraph) : List ImportCycle :=
  g.cycles.zipIdx.map fun (cycle, index) => ⟨ImportCycle.nameAt index, cycle.map g.keyAt⟩

end TreeRepair
