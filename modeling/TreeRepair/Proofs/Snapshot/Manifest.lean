import TreeRepair.Snapshot.Manifest
import TreeRepair.Proofs.Json.RoundTrip
import TreeRepair.Proofs.SortedMap

/-! Manifests read back: what a snapshot says of itself is found again in its bytes. -/

set_option autoImplicit false

namespace TreeRepair

namespace Json

theorem exactItems_texts (items : List String) : ExactItems (items.map .text) := by
  induction items with
  | nil => trivial
  | cons s rest ih => exact ⟨trivial, ih⟩

theorem exactMembers_texts (members : List (String × String)) :
    ExactMembers (members.map fun m => (m.1, .text m.2)) := by
  induction members with
  | nil => trivial
  | cons m rest ih => exact ⟨trivial, ih⟩

theorem texts?_texts (items : List String) : (texts items).texts? = some items := by
  have hmap : (items.map Json.text).mapM text? = some items := by
    induction items with
    | nil => rfl
    | cons s rest ih => simp [ih, text?]
  rw [texts, texts?, hmap]

end Json

namespace Snapshot

/-- A manifest whose numbers have 64 bits and whose checksums are in the order of keys. -/
structure Writable (s : Snapshot) : Prop where
  timestamp : s.timestamp < 2 ^ 64
  totalBytes : s.totalBytes < 2 ^ 64
  sorted : s.checksums.Sorted

theorem checksums?_object {m : SortedMap String} (hm : m.Sorted) :
    checksums? (.object (m.map fun p => (p.1, .text p.2))) = some m := by
  have hmap : ∀ l : List (String × String), (l.map fun p => (p.1, Json.text p.2)).mapM checksum? = some l := by
    intro l
    induction l with
    | nil => rfl
    | cons p rest ih => simp [ih, checksum?]
  rw [checksums?, hmap, Option.map_some, SortedMap.ofList_eq_self hm]

theorem ofJson?_toJson {s : Snapshot} (h : s.Writable) : ofJson? s.toJson = some s := by
  have hsums := checksums?_object h.sorted
  simp [ofJson?, toJson, Json.fields?, Json.text?, Json.nat?, Json.texts?_texts, hsums]

theorem ofBytes?_bytes {s : Snapshot} (h : s.Writable) : ofBytes? s.bytes = some s := by
  have hexact : s.toJson.Exact :=
    ⟨trivial, trivial, trivial, h.timestamp, Json.exactItems_texts _, Json.exactMembers_texts _, h.totalBytes,
      Json.exactItems_texts _, trivial⟩
  rw [ofBytes?, bytes, Json.parseBytes_pretty hexact, Option.bind_some, ofJson?_toJson h]

/-- What is read back of a manifest names the same files, whatever has become of its numbers. -/
theorem files_of_ofBytes? {s s' : Snapshot} (h : ofBytes? s.bytes = some s') : s'.files = s.files := by
  have hlegible : s.toJson.Legible :=
    ⟨trivial, trivial, trivial, trivial, (Json.exactItems_texts s.files).recalledItems_eq.1,
      (Json.exactMembers_texts s.checksums).recalledMembers_eq.1, trivial,
      (Json.exactItems_texts s.skippedOversize).recalledItems_eq.1, trivial⟩
  have hfiles : (Json.texts s.files).recalled = Json.texts s.files :=
    congrArg Json.array (Json.exactItems_texts s.files).recalledItems_eq.2
  rw [ofBytes?, bytes, Json.parseBytes_pretty_recalled hlegible, Option.bind_some] at h
  simp only [ofJson?, toJson, Json.recalled, Json.recalledMembers, Json.fields?, hfiles] at h
  -- the files are read as texts, and no other field has a part in them
  simp [Json.texts?_texts, Option.bind_eq_some_iff] at h
  obtain ⟨id, -, tag, -, description, -, timestamp, -, sums, -, total, -, large, -, rfl⟩ := h
  rfl

end Snapshot

end TreeRepair
