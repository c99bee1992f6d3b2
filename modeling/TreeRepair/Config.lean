import TreeRepair.Filter
import TreeRepair.Glob.PatternSet
import TreeRepair.Json.Value
import TreeRepair.Toml.Document

/-!
The configuration: which files count as sources and which are left out, and the limits of snapshots,
checks and parsing. `Config.parse?` reads it from a TOML document in which every entry is optional.
-/
namespace TreeRepair

/-- The settings of a run. -/
structure Config where
  /-- Extensions, without dot, of the files treated as sources. -/
  extensions : List String
  /-- Names of directories that are never entered. -/
  skipDirs : List String
  /-- Patterns of keys left out of walks. -/
  ignoreGlobs : List String
  /-- Files larger than this are left out of snapshots. -/
  maxSnapshotFileBytes : Nat
  /-- How many snapshots are kept when one is made. -/
  maxSnapshots : Nat
  /-- How many common files a comparison reads; all of them if there is no limit. -/
  diffSampleLimit : Option Nat
  /-- How many files the estimate of a snapshot's size is taken from. -/
  diskSampleFiles : Nat
  /-- Less free memory than this is reported. -/
  minFreeMemoryBytes : Nat
  /-- How many bytes of a text that no grammar accepts are kept. -/
  recoveryPrefixBytes : Nat
  /-- Whether uncommitted changes may be stashed. -/
  autoStash : Bool
  /-- Directories that are never entered, whatever their names. -/
  excludedDirs : List Location

namespace Config

/-- The settings that hold where a document says nothing. -/
def default : Config where
  extensions := ["js", "jsx", "ts", "tsx", "mjs", "cjs"]
  skipDirs := ["node_modules", "dist", "build", "out", "coverage", ".git", ".next", ".warden"]
  ignoreGlobs := ["**/*.test.*", "**/*.spec.*", "**/__tests__/**", "**/*.d.ts"]
  maxSnapshotFileBytes := 5 * 1024 * 1024
  maxSnapshots := 10
  diffSampleLimit := none
  diskSampleFiles := 100
  minFreeMemoryBytes := 256 * 1024 * 1024
  recoveryPrefixBytes := 16 * 1024
  autoStash := false
  excludedDirs := []

/-- Why there is no configuration. -/
inductive Error where
  /-- The file cannot be read. -/
  | file (fault : FileFault)
  /-- The file is no configuration in TOML. -/
  | malformed
  /-- The ignore patterns make no set. -/
  | glob (e : Glob.SetError)
  deriving DecidableEq, Repr

/-- The wording of an error. -/
def Error.message : Error → String
  | .file fault => s!"I/O error: {fault.message}"
  | .malformed => "Invalid config file"
  | .glob e => s!"Invalid ignore glob: {e.message}"

/-! ## Reading -/

/-- An unsigned integer. -/
def natOf? : Toml → Option Nat
  | .integer n => if 0 ≤ n then some n.toNat else none
  | _ => none

/-- A truth value. -/
def boolOf? : Toml → Option Bool
  | .boolean b => some b
  | _ => none

/-- A string. -/
def textOf? : Toml → Option String
  | .text s => some s
  | _ => none

/-- An array of strings. -/
def textsOf? : Toml → Option (List String)
  | .array items => items.mapM textOf?
  | _ => none

/-- The value of an entry, or the one that holds without it; nothing if it is of the wrong type. -/
def entry? {α : Type} (members : Toml.Members) (name : String) (read : Toml → Option α) (fallback : α) :
    Option α :=
  match Toml.find? name members with
  | none => some fallback
  | some v => read v

/-- The settings of a document's entries; other entries do not matter. -/
def ofMembers? (m : Toml.Members) : Option Config := do
  let extensions ← entry? m "extensions" textsOf? default.extensions
  let skipDirs ← entry? m "skip_dirs" textsOf? default.skipDirs
  let ignoreGlobs ← entry? m "ignore_globs" textsOf? default.ignoreGlobs
  let maxSnapshotFileBytes ← entry? m "max_snapshot_file_bytes" natOf? default.maxSnapshotFileBytes
  let maxSnapshots ← entry? m "max_snapshots" natOf? default.maxSnapshots
  let diffSampleLimit ← entry? m "diff_sample_limit" (fun v => (natOf? v).map some) default.diffSampleLimit
  let diskSampleFiles ← entry? m "disk_sample_files" natOf? default.diskSampleFiles
  let minFreeMemoryBytes ← entry? m "min_free_memory_bytes" natOf? default.minFreeMemoryBytes
  let recoveryPrefixBytes ← entry? m "recovery_prefix_bytes" natOf? default.recoveryPrefixBytes
  let autoStash ← entry? m "auto_stash" boolOf? default.autoStash
  return ⟨extensions, skipDirs, ignoreGlobs, maxSnapshotFileBytes, maxSnapshots, diffSampleLimit,
    diskSampleFiles, minFreeMemoryBytes, recoveryPrefixBytes, autoStash, []⟩

/-- Reads the settings of a document. -/
def parse? (text : String) : Option Config := (Toml.parse text).bind ofMembers?

/-- The text of a file that holds one in UTF-8. -/
def textOf (bytes : ByteArray) : Except Error String :=
  match String.fromUTF8? bytes with
  | some text => .ok text
  | none => .error (.file .notText)

/-- Loads the settings from a file; the default ones if there is no such file. -/
def load (t : Listing) (path : Location) : Except Error Config :=
  if t.isFile path then
    match t.read path with
    | .error fault => .error (.file fault)
    | .ok bytes => do
      let text ← textOf bytes
      match parse? text with
      | some config => .ok config
      | none => .error .malformed
  else .ok default

/-- The JSON value of the settings, without the directories found at run time. -/
def toJson (c : Config) : Json :=
  .object [
    ("extensions", Json.texts c.extensions),
    ("skip_dirs", Json.texts c.skipDirs),
    ("ignore_globs", Json.texts c.ignoreGlobs),
    ("max_snapshot_file_bytes", .nat c.maxSnapshotFileBytes),
    ("max_snapshots", .nat c.maxSnapshots),
    ("diff_sample_limit", Json.optional .nat c.diffSampleLimit),
    ("disk_sample_files", .nat c.diskSampleFiles),
    ("min_free_memory_bytes", .nat c.minFreeMemoryBytes),
    ("recovery_prefix_bytes", .nat c.recoveryPrefixBytes),
    ("auto_stash", .bool c.autoStash)]

/-- The walk rules of the settings. -/
def filter (c : Config) : Except Error SourceFilter :=
  match Glob.parseSet c.ignoreGlobs with
  | .error e => .error (.glob e)
  | .ok globs =>
    .ok {
      extensions := c.extensions
      skipDirs := c.skipDirs
      excluded := c.excludedDirs
      ignores := fun key => globs.any (·.isMatch key) }

end Config

end TreeRepair
