import TreeRepair.Graph.Role
import TreeRepair.Syntax.Import

/-!
The import graph of a project. Its nodes are the source files in the order of their keys; an import
that leads to a node or to a package is an edge. Positions count nodes from zero, and of several
nodes with one key the last one owns it.
-/
namespace TreeRepair

/-- What the graph knows about a source file. -/
structure SourceNode where
  key : String
  role : Role
  /-- The length of the file in bytes. -/
  size : Nat
  imports : List ImportRecord
  exports : List String
  hasMarkup : Bool
  sideEffectCalls : List String
  hookCalls : List String
  errors : List ParseIssue
  /-- Markup without the rendering library in scope. -/
  lacksRenderBinding : Bool
  deriving DecidableEq, Repr

namespace SourceNode

/-- Whether loading the file has a side effect. -/
def hasSideEffects (n : SourceNode) : Bool := !n.sideEffectCalls.isEmpty

/-- The specifiers that lead to no file. -/
def unresolved (n : SourceNode) : List String :=
  n.imports.filterMap fun r =>
    match r.resolution with
    | .missing specifier => some specifier
    | _ => none

/-- Whether a project is entered at the file. -/
def isEntryPoint (n : SourceNode) : Bool := Role.isEntryPoint n.key n.role

/-- Whether the key of one node is not behind that of another. -/
def keyLe (a b : SourceNode) : Bool := !(b.key < a.key)

end SourceNode

/-- Where an edge leads. -/
inductive EdgeTarget where
  /-- To the file with a key. -/
  | file (key : String)
  | package (name : String)
  deriving DecidableEq, Repr

/-- Whether the target is a file. -/
def EdgeTarget.isFile : EdgeTarget → Bool
  | .file _ => true
  | .package _ => false

/-- An import that leads somewhere. -/
structure ImportEdge where
  /-- The position of the importing file. -/
  source : Nat
  target : EdgeTarget
  kind : ImportKind
  deriving DecidableEq, Repr

/-- The source files of a project in the order of their keys. -/
structure ImportGraph where
  nodes : List SourceNode
  deriving DecidableEq, Repr

namespace ImportGraph

/-- The graph of nodes in any order; nodes with one key stay in order. -/
def ofNodes (nodes : List SourceNode) : ImportGraph := ⟨nodes.mergeSort SourceNode.keyLe⟩

/-- The last position from `i` on of a node with a key. -/
def lastPosition? (key : String) : Nat → List SourceNode → Option Nat
  | _, [] => none
  | i, n :: rest =>
    match lastPosition? key (i + 1) rest with
    | some j => some j
    | none => if n.key = key then some i else none

/-- The position of the node that owns a key. -/
def position? (g : ImportGraph) (key : String) : Option Nat := lastPosition? key 0 g.nodes

/-- The node that owns a key. -/
def node? (g : ImportGraph) (key : String) : Option SourceNode :=
  (g.position? key).bind fun i => g.nodes[i]?

/-- The key of the node at a position. -/
def keyAt (g : ImportGraph) (i : Nat) : String := (g.nodes[i]?).elim "" (·.key)

/-! ## Edges -/

/-- Where an import leads, if that is a node or a package. -/
def target? (g : ImportGraph) : Resolution → Option EdgeTarget
  | .internal key => (g.position? key).map fun _ => .file key
  | .external package => some (.package package)
  | .missing _ => none

/-- The edges of the node at a position, in import order. -/
def edgesOf (g : ImportGraph) (i : Nat) (n : SourceNode) : List ImportEdge :=
  n.imports.filterMap fun r => (g.target? r.resolution).map fun t => ⟨i, t, r.clause.kind⟩

/-- The edges of nodes from a position on. -/
def edgesFrom (g : ImportGraph) : Nat → List SourceNode → List ImportEdge
  | _, [] => []
  | i, n :: rest => g.edgesOf i n ++ g.edgesFrom (i + 1) rest

/-- All edges, by node and then in import order. -/
def edges (g : ImportGraph) : List ImportEdge := g.edgesFrom 0 g.nodes

/-- The number of edges that lead to files. -/
def internalEdges (g : ImportGraph) : Nat :=
  (g.edges.filter (·.target.isFile)).length

/-- The number of edges that lead to packages. -/
def externalEdges (g : ImportGraph) : Nat := (g.edges.filter fun e => !e.target.isFile).length

/-- A list without repetitions, each item at its first place. -/
def distinct : List Nat → List Nat
  | [] => []
  | i :: rest => i :: (distinct rest).filter (· != i)

/-- The position that an import leads to, if it leads to a node and is of a wanted kind. -/
def successor? (g : ImportGraph) (staticOnly : Bool) (r : ImportRecord) : Option Nat :=
  match r.resolution with
  | .internal key => if staticOnly && r.clause.kind ≠ .static then none else g.position? key
  | _ => none

/-- The positions that the imports of a node lead to, each once, in import order; those of static
imports only if asked. -/
def successors (g : ImportGraph) (staticOnly : Bool) (i : Nat) : List Nat :=
  match g.nodes[i]? with
  | none => []
  | some n => distinct (n.imports.filterMap (g.successor? staticOnly))

end ImportGraph

end TreeRepair
