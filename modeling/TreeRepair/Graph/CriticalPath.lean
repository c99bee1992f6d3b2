import TreeRepair.Graph.Cycle

/-!
What is reached from the entry points. `breadthFirst` lists the nodes that imports lead to, nearest
first; a critical path keeps those of them that a failure would be felt at, with the reason.
-/
namespace TreeRepair

/-- Why a file on the way from an entry point matters. -/
inductive CriticalReason where
  | parseError
  | sideEffect
  | entry
  | provider
  | context
  deriving DecidableEq, Repr

/-- The name of a reason. -/
def CriticalReason.name : CriticalReason → String
  | .parseError => "parse_error"
  | .sideEffect => "side_effect"
  | .entry => "entry"
  | .provider => "provider"
  | .context => "context"

/-- The first reason that a file gives: parse errors, then side effects, then its role. -/
def SourceNode.criticalReason? (n : SourceNode) : Option CriticalReason :=
  if !n.errors.isEmpty then some .parseError
  else if n.hasSideEffects then some .sideEffect
  else if n.isEntryPoint then some .entry
  else
    match n.role with
    | .provider => some .provider
    | .context => some .context
    | _ => none

/-- The files that matter on the way from an entry point, nearest first. -/
structure CriticalPath where
  entry : String
  files : List (String × CriticalReason)
  deriving DecidableEq, Repr

namespace ImportGraph

/-- The nodes reached from those in a queue, in the order in which they are met; `seen` are the nodes
that have been in the queue, and the fuel bounds the number of nodes. -/
def breadthFirst (next : Nat → List Nat) : Nat → List Nat → List Nat → List Nat
  | 0, _, _ => []
  | _ + 1, _, [] => []
  | fuel + 1, seen, i :: queue =>
    let fresh := (next i).filter fun j => !seen.contains j
    i :: breadthFirst next fuel (seen ++ fresh) (queue ++ fresh)

/-- The nodes reached from a position, nearest first, where the table gives the successors of every
position. -/
def reachedFrom (g : ImportGraph) (table : Array (List Nat)) (i : Nat) : List Nat :=
  breadthFirst (fun j => table.getD j []) g.nodes.length [i] [i]

/-- The key of a node and the reason for which it matters, if there is one. -/
def critical? (g : ImportGraph) (i : Nat) : Option (String × CriticalReason) :=
  (g.nodes[i]?).bind fun n => n.criticalReason?.map (n.key, ·)

/-- The critical path from a position. -/
def criticalPath (g : ImportGraph) (table : Array (List Nat)) (i : Nat) : CriticalPath :=
  ⟨g.keyAt i, (g.reachedFrom table i).filterMap g.critical?⟩

/-- The positions at which the project is entered. -/
def entryPositions (g : ImportGraph) : List Nat :=
  (List.range g.nodes.length).filter fun i => (g.nodes[i]?).any (·.isEntryPoint)

/-- The critical paths of all entry points. -/
def criticalPaths (g : ImportGraph) : List CriticalPath :=
  g.entryPositions.map (g.criticalPath (g.successorTable false))

end ImportGraph

end TreeRepair
