import TreeRepair.Json.Reader
import TreeRepair.SortedMap

/-!
Manifests of snapshots: what a snapshot holds, and its JSON form.
-/
namespace TreeRepair

/-- What a snapshot is called and what it holds. -/
structure Snapshot where
  id : String
  tag : String
  description : String
  /-- Milliseconds since the start of 1970. -/
  timestamp : Nat
  /-- The keys of the stored files, in order. -/
  files : List String
  /-- The checksum of each stored file. -/
  checksums : SortedMap String
  totalBytes : Nat
  /-- The keys of files that were too large. -/
  skippedOversize : List String
  deriving DecidableEq, Repr

namespace Snapshot

/-- The JSON value of a manifest. -/
def toJson (s : Snapshot) : Json :=
  .object [
    ("id", .text s.id),
    ("tag", .text s.tag),
    ("description", .text s.description),
    ("timestamp_ms", .nat s.timestamp),
    ("files", Json.texts s.files),
    ("checksums", .object (s.checksums.map fun (key, sum) => (key, .text sum))),
    ("total_bytes", .nat s.totalBytes),
    ("skipped_oversize", Json.texts s.skippedOversize)]

/-- The bytes of a manifest. -/
def bytes (s : Snapshot) : ByteArray := s.toJson.pretty.toUTF8

/-- The checksum of an object's member. -/
def checksum? : String × Json → Option (String × String)
  | (key, .text sum) => some (key, sum)
  | _ => none

/-- The checksums of a JSON object. -/
def checksums? : Json → Option (SortedMap String)
  | .object members => (members.mapM checksum?).map SortedMap.ofList
  | _ => none

/-- The manifest of a JSON value, which need not say what was too large. -/
def ofJson? (v : Json) : Option Snapshot := do
  let fields ← v.fields? ["id", "tag", "description", "timestamp_ms", "files", "checksums",
    "total_bytes", "skipped_oversize"] 1
  match fields with
  | [some i, some tag, some d, some t, some fs, some cs, some n, skipped] =>
    return ⟨← i.text?, ← tag.text?, ← d.text?, ← t.nat?, ← fs.texts?, ← checksums? cs, ← n.nat?,
      ← (skipped.elim (some []) Json.texts?)⟩
  | _ => none

/-- The manifest of bytes. -/
def ofBytes? (bytes : ByteArray) : Option Snapshot := (Json.parseBytes bytes).bind ofJson?

end Snapshot

end TreeRepair
