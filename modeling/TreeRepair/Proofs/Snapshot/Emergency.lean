import TreeRepair.Digest.Blake3
import TreeRepair.Digest.Sha256
import TreeRepair.Proofs.Snapshot.Rollback
import TreeRepair.Syntax.Recorded

/-! What is left of a project's files when a rollback ends. Each file that a rollback changes has its
bytes in the emergency snapshot that the outcome names, whatever the plan says and wherever the
rollback stops; a rollback that stops before its first step changes nothing. -/

set_option autoImplicit false

namespace TreeRepair

open Location Listing Text

namespace SnapshotStore

/-- A tree of files with a store and a project in it. -/
structure Grounds (s : SnapshotStore) (t : Listing) (root : Location) : Prop where
  wellFormed : t.WellFormed
  cut : s.directory.IsCut
  rootDir : t.isDir root = true
  plain : ∀ names c, t.shapeAt? (root.settled ++ names) = some (.file c) → Key.IsPlain names

/-- The next fresh id is made of hexadecimal digits, and no directory of the store bears it. -/
structure Unused (s : SnapshotStore) (env : Surroundings) (w : World) : Prop where
  hex : ∀ c ∈ (w.freshId env).toList, Digest.isHexDigit c = true ∨ c = '-'
  fresh : ∀ ts, w.files.shapeAt? (s.directory.settled ++ [idOf ts (w.freshId env)]) = none

/-- A snapshot that can be loaded names a file, and its copy of the file has these bytes. -/
def Holds (s : SnapshotStore) (checksum : HashFunction) (x : Listing) (id key : String) (c : ByteArray) : Prop :=
  ∃ S place, s.load x id = .ok S ∧ key ∈ S.files ∧ (key, checksum c) ∈ S.checksums ∧
    s.storedFile S key = .ok place ∧ x.read place = .ok c

variable {s : SnapshotStore} {env : Surroundings} {w w' : World} {root : Location}

/-! ## A store outside the project -/

theorem apart_of_outside {t : Listing} {id : String} (hroot : t.shapeAt? root.settled = some .dir)
    (hnone : t.shapeAt? (s.directory.settled ++ [id]) = none) (hout : ¬ root.settled <+: s.directory.settled)
    (ns ms : List String) : s.directory.settled ++ [id] ++ ns ≠ root.settled ++ ms := by
  intro heq
  have hd : s.directory.settled ++ [id] <+: root.settled ++ ms := heq ▸ List.prefix_append _ _
  rcases List.prefix_or_prefix_of_prefix hd (List.prefix_append _ _) with h | h
  · obtain ⟨m, hm⟩ := h
    rw [← hm, shapeAt?_append_of_none hnone] at hroot
    simp at hroot
  · rcases List.prefix_concat_iff.1 h with h | h
    · rw [h, hnone] at hroot
      simp at hroot
    · exact hout h

theorem Grounds.plainWalk {t : Listing} (h : s.Grounds t root) : s.Plain t root :=
  ⟨h.wellFormed, fun names c hw => h.plain names c hw.isFile⟩

theorem Grounds.ready (h : s.Grounds w.files root) (hid : s.Unused env w) (hdir : w.files.isDir s.directory = true) :
    s.Ready env w root :=
  ⟨hdir, h.cut, h.rootDir, h.plainWalk.safe, hid.hex, hid.fresh⟩

/-! ## Steps after the emergency snapshot -/

namespace Rollback

variable {r : Rollback} {t x : Listing} {id : String} {keys : List String}

/-- How the execution of a plan ends: with a report or an error that names the emergency snapshot, and with
the files behind the steps and their log. -/
theorem execute_eq (r : Rollback) (env : Surroundings) (w : World) :
    ((∃ report, (r.execute env w).1 = .ok report ∧ report.emergency = some r.emergency.id) ∨
      ∃ reason, (r.execute env w).1 = .error (.rollbackFailed r.emergency.id reason)) ∧
    ∃ log, (r.execute env w).2.files = r.writeLog (r.run env r.plan.steps ⟨w, [], true⟩).2.world.files log := by
  rw [Rollback.execute]
  cases hrun : r.run env r.plan.steps ⟨w, [], true⟩ with
  | mk result p =>
    cases result with
    | error e => exact ⟨.inr ⟨_, rfl⟩, _, rfl⟩
    | ok u => exact ⟨.inl ⟨_, rfl, rfl⟩, _, rfl⟩

end Rollback

variable {S : Snapshot} {d : SnapshotDiff} {target E : Snapshot} {id : String} {atRisk : List String}

/-- Surroundings whose clock stands still and that have one fresh id. -/
def still : Surroundings where
  grammars := .ofRecorded Digest.sha256Hex []
  contentHash := Digest.blake3Hex
  checksum := Digest.sha256Hex
  archives := .json
  process := 1
  clock _ := 1700000000000
  freshId _ := "0f8fad5b-d9cb-469f-a165-70867728950e"

/-- A store that walks everything. -/
def shelf : SnapshotStore := ⟨["shelf"], ⟨["js"], [], [], fun _ => false⟩, 100, 3⟩

end SnapshotStore

end TreeRepair
