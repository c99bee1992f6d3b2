import TreeRepair.Defect
import TreeRepair.Digest.Hash
import TreeRepair.Json.Reader

/-!
Records of a proof ledger. A record holds a verdict, the hash of the record before it and its own
hash, which is taken over the compact JSON text of all its other fields. A record is written as one
line of JSON.
-/
namespace TreeRepair

/-- The JSON value of a verdict. -/
def Verdict.toJson (v : Verdict) : Json :=
  .object [
    ("theorem", .text v.defect.name),
    ("success", .bool v.success),
    ("pattern_before", .bool v.patternBefore),
    ("pattern_after", .bool v.patternAfter),
    ("marker_present", .bool v.markerPresent),
    ("trivially_satisfied", .bool v.triviallySatisfied),
    ("errors_before", .nat v.errorsBefore),
    ("errors_after", .nat v.errorsAfter),
    ("message", .text v.message)]

/-- The defect that a JSON value names. -/
def Defect.ofJson? (v : Json) : Option Defect := v.case?.bind Defect.ofName?

/-- The verdict of a JSON value. -/
def Verdict.ofJson? (v : Json) : Option Verdict := do
  let fields ← v.fields? ["theorem", "success", "pattern_before", "pattern_after", "marker_present",
    "trivially_satisfied", "errors_before", "errors_after", "message"] 0
  match fields with
  | [some d, some s, some pb, some pa, some m, some t, some eb, some ea, some msg] =>
    return ⟨← Defect.ofJson? d, ← s.bool?, ← pb.bool?, ← pa.bool?, ← m.bool?, ← t.bool?, ← eb.nat?,
      ← ea.nat?, ← msg.text?⟩
  | _ => none

/-- An entry of a proof ledger. -/
structure ProofRecord where
  id : String
  defect : Defect
  /-- The rule that was applied. -/
  rule : String
  /-- The file that it was applied to. -/
  context : String
  verdict : Verdict
  previousHash : String
  contentHash : String
  /-- Milliseconds since the start of 1970. -/
  timestamp : Nat
  /-- Milliseconds. -/
  duration : Nat
  deriving DecidableEq, Repr

namespace ProofRecord

/-- What the content hash covers: every field but the hash itself. -/
def body (r : ProofRecord) : Json :=
  .object [
    ("id", .text r.id),
    ("theorem_id", .text r.defect.name),
    ("transformation_id", .text r.rule),
    ("context", .text r.context),
    ("verification", r.verdict.toJson),
    ("previous_hash", .text r.previousHash),
    ("timestamp_ms", .nat r.timestamp),
    ("duration_ms", .nat r.duration)]

/-- The bytes that the content hash is taken over. -/
def bodyBytes (r : ProofRecord) : ByteArray := r.body.compact.toUTF8

/-- The JSON value of a record. -/
def toJson (r : ProofRecord) : Json :=
  .object [
    ("id", .text r.id),
    ("theorem_id", .text r.defect.name),
    ("transformation_id", .text r.rule),
    ("context", .text r.context),
    ("verification", r.verdict.toJson),
    ("previous_hash", .text r.previousHash),
    ("content_hash", .text r.contentHash),
    ("timestamp_ms", .nat r.timestamp),
    ("duration_ms", .nat r.duration)]

/-- The record of a JSON value. -/
def ofJson? (v : Json) : Option ProofRecord := do
  let fields ← v.fields? ["id", "theorem_id", "transformation_id", "context", "verification",
    "previous_hash", "content_hash", "timestamp_ms", "duration_ms"] 0
  match fields with
  | [some i, some d, some r, some c, some v, some p, some h, some t, some dur] =>
    return ⟨← i.text?, ← Defect.ofJson? d, ← r.text?, ← c.text?, ← Verdict.ofJson? v, ← p.text?,
      ← h.text?, ← t.nat?, ← dur.nat?⟩
  | _ => none

/-- The line of a record, without its end. -/
def line (r : ProofRecord) : String := r.toJson.compact

/-- The record of a line. -/
def ofLine? (line : String) : Option ProofRecord := (Json.parse line).bind ofJson?

/-- A record with its content hash. -/
def withHash (hash : HashFunction) (r : ProofRecord) : ProofRecord :=
  { r with contentHash := hash r.bodyBytes }

/-- Whether the content hash is that of the other fields. -/
def isSealed (hash : HashFunction) (r : ProofRecord) : Bool := hash r.bodyBytes == r.contentHash

end ProofRecord

end TreeRepair
