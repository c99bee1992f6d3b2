import TreeRepair.Config
import TreeRepair.Graph.CriticalPath
import TreeRepair.Graph.Risk
import TreeRepair.Parsing.Host

/-!
The analysis of a project: its import graph, cycles, entry points and critical paths, weak points,
the risk that they add up to and the plan to repair them. The graph is built from the source files
below a root; everything else follows from the graph.
-/
namespace TreeRepair

namespace SourceNode

/-- What the graph knows about a file, from its unit. -/
def ofUnit (file : TreeFile) (u : ParsedUnit) (imports : List ImportRecord) : SourceNode where
  key := file.key
  role := Role.ofKey file.key u.hasMarkup
  size := file.size
  imports := imports
  exports := u.exports
  hasMarkup := u.hasMarkup
  sideEffectCalls := u.sideEffectCalls
  hookCalls := u.hookCalls
  errors := u.errors
  lacksRenderBinding := u.hasMarkup && !u.bindsRenderLibrary

/-! ## Weak points -/

/-- The weak point of a file with parse errors. -/
def errorPoint? (n : SourceNode) (onPath : Bool) : Option WeakPoint :=
  n.errors.head?.map fun first =>
    ⟨n.key, .parseError, if onPath then .critical else .high,
      s!"{first.line}:{first.column}: {first.message}"⟩

/-- The weak point of a file with side effects, unless it is a utility. -/
def sideEffectPoint? (n : SourceNode) : Option WeakPoint :=
  if n.hasSideEffects && n.role != .utility then
    some ⟨n.key, .moduleSideEffect, .medium, String.intercalate ", " n.sideEffectCalls⟩
  else none

/-- The weak points of imports that lead nowhere. -/
def missingPoints (n : SourceNode) : List WeakPoint :=
  n.unresolved.map fun specifier =>
    ⟨n.key, .missingDependency, .high, s!"unresolved import '{specifier}'"⟩

/-- The weak point of markup without the rendering library. -/
def renderPoint? (n : SourceNode) : Option WeakPoint :=
  if n.lacksRenderBinding then
    some ⟨n.key, .missingImport, .medium, "markup used without React in scope"⟩
  else none

/-- The weak points of a file, given whether it is on a critical path. -/
def weakPoints (n : SourceNode) (onPath : Bool) : List WeakPoint :=
  (n.errorPoint? onPath).toList ++ n.sideEffectPoint?.toList ++ n.missingPoints ++ n.renderPoint?.toList

end SourceNode

/-- The weak point of a cycle, which names its first file again at the end. -/
def ImportCycle.weakPoint (c : ImportCycle) : WeakPoint :=
  ⟨c.name, .circularDependency, .high, String.intercalate " -> " (c.files ++ c.files.head?.toList)⟩

/-- Sums over the source files of a project. -/
structure Survey where
  /-- All source files, those that cannot be read included. -/
  files : Nat
  totalBytes : Nat
  /-- Files that no grammar accepts. -/
  recoveryUnits : Nat
  syntaxNodes : Nat
  maxDepth : Nat
  deriving DecidableEq, Repr

namespace Survey

/-- The sums of a number of files of which none has been read. -/
def start (files : Nat) : Survey := ⟨files, 0, 0, 0, 0⟩

/-- The sums with one more file read. -/
def add (s : Survey) (file : TreeFile) (u : ParsedUnit) : Survey :=
  ⟨s.files, s.totalBytes + file.size, s.recoveryUnits + (if u.recovery.isSome then 1 else 0),
    s.syntaxNodes + u.nodes.size, max s.maxDepth u.height⟩

end Survey

/-- What is found out about a project. -/
structure Analysis where
  survey : Survey
  graph : ImportGraph
  entryPoints : List String
  criticalPaths : List CriticalPath
  cycles : List ImportCycle
  weakPoints : List WeakPoint
  plan : RepairPlan
  factors : RiskFactors

namespace Analysis

/-- How many weak points are of a kind. -/
def countOf (kind : WeakKind) (points : List WeakPoint) : Nat := (points.filter (·.kind == kind)).length

/-- The number of weak points of each kind of which there is one. -/
def counts (a : Analysis) : List (WeakKind × Nat) :=
  (WeakKind.all.map fun kind => (kind, countOf kind a.weakPoints)).filter fun (_, n) => n != 0

/-- The number of files in each role that a file plays. -/
def roles (a : Analysis) : List (Role × Nat) :=
  (Role.all.map fun role => (role, (a.graph.nodes.filter (·.role == role)).length)).filter
    fun (_, n) => n != 0

/-- The weak points of a graph with given cycles, where `critical` are the files on critical paths. -/
def weakPointsOf (g : ImportGraph) (cycles : List ImportCycle) (critical : List String) :
    List WeakPoint :=
  (g.nodes.flatMap fun n => n.weakPoints (critical.contains n.key)) ++ cycles.map ImportCycle.weakPoint

/-- The analysis of a graph. -/
def ofGraph (survey : Survey) (g : ImportGraph) : Analysis :=
  let cycles := g.importCycles
  let paths := g.criticalPaths
  let critical := paths.flatMap fun p => p.files.map (·.1)
  let points := weakPointsOf g cycles critical
  let criticalErrors :=
    (g.nodes.filter fun n => !n.errors.isEmpty && critical.contains n.key).map (·.key)
  let sideEffects := (points.filter (·.kind == .moduleSideEffect)).map (·.place)
  let unresolved := (g.nodes.filter fun n => !n.unresolved.isEmpty).map (·.key)
  { survey := survey
    graph := g
    entryPoints := g.entryPositions.map g.keyAt
    criticalPaths := paths
    cycles := cycles
    weakPoints := points
    plan := .ofTargets criticalErrors sideEffects unresolved
    factors := ⟨criticalErrors.length, sideEffects.length, countOf .missingDependency points,
      cycles.length⟩ }

/-! ## Summary -/

/-- What a summary says of an analysis: its risk and its counts. -/
structure Summary where
  factors : RiskFactors
  counts : List (WeakKind × Nat)
  entryPoints : Nat
  cycles : Nat
  deriving DecidableEq, Repr

/-- The numbers of an analysis. -/
def summary (a : Analysis) : Summary :=
  ⟨a.factors, a.counts, a.entryPoints.length, a.cycles.length⟩

/-! ## Reading a project -/

/-- Nodes and sums of the files read so far, with the host and the files behind them. -/
structure Reading where
  nodes : List SourceNode
  survey : Survey
  host : ParserHost
  files : Listing

/-- Reads one more file and follows its imports; one that cannot be read is passed over. -/
def Reading.read (env : Surroundings) (resolver : Resolver) (root : Location) (r : Reading)
    (file : TreeFile) : Reading :=
  match r.host.parseFile env r.files root file.key with
  | .error _ => r
  | .ok parsed =>
    let imports := parsed.unit.dependencies (resolver parsed.files root)
    ⟨r.nodes ++ [.ofUnit file parsed.unit imports], r.survey.add file parsed.unit, parsed.host, parsed.files⟩

/-- Analyzes the source files below a root, with imports followed by a resolver; also gives the host
and the files behind the reading. -/
def runWith (env : Surroundings) (filter : SourceFilter) (resolver : Resolver) (host : ParserHost)
    (files : Listing) (root : Location) : Analysis × ParserHost × Listing :=
  let sources := filter.walkSources files root
  let r := sources.foldl (Reading.read env resolver root) ⟨[], .start sources.length, host, files⟩
  (ofGraph r.survey (.ofNodes r.nodes), r.host, r.files)

/-- The analysis whose imports are followed in the tree. -/
def run (env : Surroundings) (filter : SourceFilter) (host : ParserHost) (files : Listing)
    (root : Location) : Analysis × ParserHost × Listing :=
  runWith env filter Resolution.inTree host files root

end Analysis

end TreeRepair
