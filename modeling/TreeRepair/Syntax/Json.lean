import TreeRepair.Json.Value
import TreeRepair.Syntax.Pattern

/-!
The JSON values of parsed units, their sizes and the facts about them.
-/
namespace TreeRepair

/-- The JSON value of a node: its fields in order, without their names. -/
def SyntaxNode.toJson (n : SyntaxNode) : Json :=
  .array [.text n.kind, .bool n.named, Json.optional .text n.field, .nat n.start, .nat n.stop,
    .nat n.startLine, .nat n.startColumn, .nat n.endLine, Json.optional .nat n.parent,
    .array (n.children.map .nat)]

/-- The JSON value of an issue. -/
def ParseIssue.toJson (i : ParseIssue) : Json :=
  .object [("message", .text i.message), ("line", .nat i.line), ("column", .nat i.column)]

/-- The JSON value of what is kept of a refused text. -/
def Recovery.toJson (r : Recovery) : Json :=
  .object [
    ("message", .text r.message),
    ("line", .nat r.line),
    ("column", .nat r.column),
    ("prefix_len", .nat r.prefixLength),
    ("truncated", .bool r.truncated)]

namespace ParsedUnit

/-- The JSON value of a quoted string with a placeholder. -/
def Hazard.toJson (h : Hazard) : Json :=
  .object [("node", .nat h.node), ("line", .nat h.line), ("in_attribute", .bool h.inAttribute)]

/-- The JSON value of a unit's sizes. -/
def metricsJson (u : ParsedUnit) : Json :=
  .object [
    ("error_count", .nat u.errors.length),
    ("max_depth", .nat u.height),
    ("node_count", .nat u.nodes.size)]

/-- The JSON value of the facts about a unit. -/
def patternsJson (u : ParsedUnit) : Json :=
  .object [
    ("static_imports", Json.texts u.staticImports),
    ("dynamic_imports", Json.texts u.dynamicImports),
    ("exports", Json.texts u.exports),
    ("binds_render_library", .bool u.bindsRenderLibrary),
    ("markup_elements", .nat u.markupElements),
    ("hook_calls", Json.texts u.hookCalls),
    ("side_effect_calls", Json.texts u.sideEffectCalls)]

/-- The JSON value of a unit, with its nodes if asked. Only a refused text has its start in it. -/
def toJson (nodes : Bool) (u : ParsedUnit) : Json :=
  .object ([
    ("file", .text u.file),
    ("key", .text u.key),
    ("strategy", Json.optional (fun g => .text g.name) u.grammar),
    ("errors", .array (u.errors.map ParseIssue.toJson)),
    ("recovery", Json.optional Recovery.toJson u.recovery),
    ("source_len", .nat u.source.utf8ByteSize),
    ("metrics", u.metricsJson)]
    ++ (if u.recovery.isSome then [("source", .text u.source)] else [])
    ++ (if nodes then [("nodes", .array (u.nodes.toList.map SyntaxNode.toJson))] else []))

end ParsedUnit

end TreeRepair
