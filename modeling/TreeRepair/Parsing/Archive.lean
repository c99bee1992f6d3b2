import TreeRepair.Json.Reader
import TreeRepair.Syntax.Json

/-!
Parsed units as byte strings. An `ArchiveFormat` writes units and reads them back; `ArchiveFormat.json`
writes a unit as the UTF-8 bytes of one JSON array.
-/
namespace TreeRepair

/-- A way to keep units as byte strings. -/
structure ArchiveFormat where
  encode : ParsedUnit → ByteArray
  decode : ByteArray → Option ParsedUnit

namespace ArchiveFormat

/-- Whether what is written reads back. -/
def Faithful (a : ArchiveFormat) : Prop := ∀ u, a.decode (a.encode u) = some u

/-! ## Writing -/

/-- The JSON value of an issue. -/
def issueJson (i : ParseIssue) : Json := .array [.text i.message, .nat i.line, .nat i.column]

/-- The JSON value of what is kept of a refused text. -/
def recoveryJson (r : Recovery) : Json :=
  .array [.text r.message, .nat r.line, .nat r.column, .nat r.prefixLength, .bool r.truncated]

/-- The JSON value of a unit. -/
def unitJson (u : ParsedUnit) : Json :=
  .array [.text u.file, .text u.key, Json.optional (fun g => .text g.name) u.grammar, .text u.source,
    .array (u.nodes.toList.map SyntaxNode.toJson), .array (u.errors.map issueJson),
    Json.optional recoveryJson u.recovery]

/-! ## Reading -/

/-- A value that may be null. -/
def nullable? {α : Type} (read : Json → Option α) : Json → Option (Option α)
  | .null => some none
  | v => (read v).map some

/-- The items of an array, each read. -/
def items? {α : Type} (read : Json → Option α) : Json → Option (List α)
  | .array items => items.mapM read
  | _ => none

/-- The grammar that a value names. -/
def grammar? (v : Json) : Option Grammar :=
  v.text?.bind fun name => Grammar.order.find? (·.name == name)

/-- The node of a JSON value. -/
def node? : Json → Option SyntaxNode
  | .array [k, n, f, a, b, l, c, e, p, cs] => do
    return ⟨← k.text?, ← n.bool?, ← nullable? Json.text? f, ← a.nat?, ← b.nat?, ← l.nat?, ← c.nat?,
      ← e.nat?, ← nullable? Json.nat? p, ← items? Json.nat? cs⟩
  | _ => none

/-- The issue of a JSON value. -/
def issue? : Json → Option ParseIssue
  | .array [m, l, c] => do return ⟨← m.text?, ← l.nat?, ← c.nat?⟩
  | _ => none

/-- What a JSON value says was kept of a refused text. -/
def recovery? : Json → Option Recovery
  | .array [m, l, c, n, t] => do return ⟨← m.text?, ← l.nat?, ← c.nat?, ← n.nat?, ← t.bool?⟩
  | _ => none

/-- The unit of a JSON value. -/
def unit? : Json → Option ParsedUnit
  | .array [f, k, g, s, ns, es, r] => do
    return ⟨← f.text?, ← k.text?, ← nullable? grammar? g, ← s.text?, (← items? node? ns).toArray,
      ← items? issue? es, ← nullable? recovery? r⟩
  | _ => none

/-- Units as JSON texts. -/
def json : ArchiveFormat where
  encode u := (unitJson u).compact.toUTF8
  decode bytes := do unit? (← Json.parse (← String.fromUTF8? bytes))

end ArchiveFormat

end TreeRepair
