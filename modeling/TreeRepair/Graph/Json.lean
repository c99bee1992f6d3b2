import TreeRepair.Graph.Analysis
import TreeRepair.Syntax.Json

/-!
The JSON values of an analysis and its parts.
-/
namespace TreeRepair

/-- The name of a kind of import. -/
def ImportKind.name : ImportKind → String
  | .static => "static"
  | .dynamic => "dynamic"

/-- The name of what an import binds. -/
def ImportShape.name : ImportShape → String
  | .default => "default"
  | .named => "named"
  | .namespaced => "namespace"
  | .mixed => "mixed"
  | .sideEffect => "side_effect"

/-- The JSON value of where a specifier leads. -/
def Resolution.toJson : Resolution → Json
  | .internal key => .object [("type", .text "internal"), ("target", .text key)]
  | .external package => .object [("type", .text "external"), ("target", .text package)]
  | .missing specifier => .object [("type", .text "missing"), ("target", .text specifier)]

/-- The JSON value of an import. -/
def ImportRecord.toJson (r : ImportRecord) : Json :=
  .object [
    ("source", .text r.clause.specifier),
    ("resolution", r.resolution.toJson),
    ("specifiers", Json.texts r.clause.names),
    ("shape", .text r.clause.shape.name),
    ("kind", .text r.clause.kind.name),
    ("line", .nat r.clause.line)]

/-- The JSON value of a node. -/
def SourceNode.toJson (n : SourceNode) : Json :=
  .object [
    ("id", .text n.key),
    ("kind", .text n.role.name),
    ("size", .nat n.size),
    ("imports", .array (n.imports.map ImportRecord.toJson)),
    ("exports", Json.texts n.exports),
    ("has_markup", .bool n.hasMarkup),
    ("has_side_effects", .bool n.hasSideEffects),
    ("side_effect_calls", Json.texts n.sideEffectCalls),
    ("hook_calls", Json.texts n.hookCalls),
    ("parse_errors", .array (n.errors.map ParseIssue.toJson)),
    ("unresolved_imports", Json.texts n.unresolved),
    ("missing_render_binding", .bool n.lacksRenderBinding)]

/-- What an edge is said to lead to: a key, or a package with a mark in front. -/
def EdgeTarget.text : EdgeTarget → String
  | .file key => key
  | .package name => "npm:" ++ name

/-- The name of the kind of an edge's target. -/
def EdgeTarget.kindName : EdgeTarget → String
  | .file _ => "internal"
  | .package _ => "external"

/-- The JSON value of an edge of a graph. -/
def ImportGraph.edgeJson (g : ImportGraph) (e : ImportEdge) : Json :=
  .object [
    ("from", .text (g.keyAt e.source)),
    ("to", .text e.target.text),
    ("import_kind", .text e.kind.name),
    ("target", .text e.target.kindName)]

/-- The JSON value of a graph. -/
def ImportGraph.toJson (g : ImportGraph) : Json :=
  .object [
    ("nodes", .array (g.nodes.map SourceNode.toJson)),
    ("edges", .array (g.edges.map g.edgeJson))]

/-- The JSON value of a cycle. -/
def ImportCycle.toJson (c : ImportCycle) : Json :=
  .object [("id", .text c.name), ("nodes", Json.texts c.files)]

/-- The JSON value of a critical path. -/
def CriticalPath.toJson (p : CriticalPath) : Json :=
  .object [
    ("entry", .text p.entry),
    ("nodes", .array (p.files.map fun (key, reason) =>
      .object [("node", .text key), ("reason", .text reason.name)]))]

/-- The JSON value of a weak point. -/
def WeakPoint.toJson (p : WeakPoint) : Json :=
  .object [
    ("file", .text p.place),
    ("kind", .text p.kind.name),
    ("severity", .text p.severity.name),
    ("detail", .text p.detail)]

/-- The JSON value of risk factors with what they add up to. -/
def RiskFactors.toJson (f : RiskFactors) : Json :=
  .object [
    ("factors", .object [
      ("critical_parse_errors", .nat f.criticalParseErrors),
      ("side_effects", .nat f.sideEffects),
      ("missing_dependencies", .nat f.missingDependencies),
      ("cycles", .nat f.cycles)]),
    ("score", .nat f.score),
    ("level", .text f.level.name),
    ("success_probability", .ratio f.level.successPercent 100)]

/-- The JSON value of a phase. -/
def PlanPhase.toJson (p : PlanPhase) : Json :=
  .object [("name", .text p.name), ("targets", Json.texts p.targets), ("weight", .nat p.weight)]

/-- The JSON value of a plan. -/
def RepairPlan.toJson (p : RepairPlan) : Json :=
  .object [
    ("phases", .array (p.phases.map PlanPhase.toJson)),
    ("total_weight", .nat p.totalWeight)]

/-- The JSON value of a summary. -/
def Analysis.Summary.toJson (s : Analysis.Summary) : Json :=
  .object [
    ("risk", s.factors.toJson),
    ("vulnerability_counts", .object (s.counts.map fun (kind, n) => (kind.name, .nat n))),
    ("entry_points", .nat s.entryPoints),
    ("cycles", .nat s.cycles)]

/-- The JSON value of an analysis's sums. -/
def Analysis.metricsJson (a : Analysis) : Json :=
  .object [
    ("files", .nat a.survey.files),
    ("total_bytes", .nat a.survey.totalBytes),
    ("nodes_by_kind", .object (a.roles.map fun (role, n) => (role.name, .nat n))),
    ("internal_edges", .nat a.graph.internalEdges),
    ("external_edges", .nat a.graph.externalEdges),
    ("dynamic_edges", .nat (a.graph.edges.filter (·.kind == .dynamic)).length),
    ("recovery_units", .nat a.survey.recoveryUnits),
    ("syntax_nodes", .nat a.survey.syntaxNodes),
    ("max_tree_depth", .nat a.survey.maxDepth)]

/-- The JSON value of an analysis. -/
def Analysis.toJson (a : Analysis) : Json :=
  .object [
    ("graph", a.graph.toJson),
    ("metrics", a.metricsJson),
    ("execution_plan", a.plan.toJson),
    ("summary", a.summary.toJson),
    ("entry_points", Json.texts a.entryPoints),
    ("critical_paths", .array (a.criticalPaths.map CriticalPath.toJson)),
    ("cycles", .array (a.cycles.map ImportCycle.toJson)),
    ("vulnerabilities", .array (a.weakPoints.map WeakPoint.toJson))]

end TreeRepair
