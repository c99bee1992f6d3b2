import TreeRepair.FileTree.Access
import TreeRepair.Json.Value
import TreeRepair.Path

/-!
The home directory of the tool: where the settings, the cache, the backups, the reports and the
ledger lie in it.
-/
namespace TreeRepair

/-- The directory that the tool keeps its own files in. -/
structure Home where
  root : Location

namespace Home

/-- The name of a home in the project that it belongs to. -/
def dirName : String := ".warden"

/-- The name of the settings. -/
def configName : String := "config.toml"

/-- The name of the directory of archives. -/
def cacheName : String := "cache"

/-- The name of the directory of snapshots. -/
def backupsName : String := "backups"

/-- The name of the directory of reports. -/
def reportsName : String := "reports"

/-- The name of the ledger. -/
def ledgerName : String := "proofs.jsonl"

/-- The settings. -/
def config (h : Home) : Location := h.root.join configName

/-- The directory of archives. -/
def cache (h : Home) : Location := h.root.join cacheName

/-- The directory of snapshots. -/
def backups (h : Home) : Location := h.root.join backupsName

/-- The directory of reports. -/
def reports (h : Home) : Location := h.root.join reportsName

/-- The ledger. -/
def ledger (h : Home) : Location := h.root.join ledgerName

/-- Makes directories one after another, up to the first that cannot be made. -/
def makeAll : List Location → Listing → Except FileFault Unit × Listing
  | [], files => (.ok (), files)
  | directory :: rest, files =>
    match files.createDirs directory with
    | (.error fault, left) => (.error fault, left)
    | (.ok (), made) => makeAll rest made

/-- Makes the directories of a home. -/
def ensure (h : Home) (files : Listing) : Except FileFault Unit × Listing :=
  makeAll [h.cache, h.backups, h.reports] files

/-- The paths of a home as texts. -/
structure Layout where
  root : String
  config : String
  cache : String
  backups : String
  reports : String
  ledger : String
  deriving DecidableEq, Repr

/-- The paths of the home at a path. -/
def layout (root : String) : Layout :=
  ⟨root, Path.join root configName, Path.join root cacheName, Path.join root backupsName,
    Path.join root reportsName, Path.join root ledgerName⟩

/-- The JSON value of the paths of a home. -/
def Layout.toJson (l : Layout) : Json :=
  .object [
    ("root", .text l.root),
    ("config", .text l.config),
    ("cache", .text l.cache),
    ("backups", .text l.backups),
    ("reports", .text l.reports),
    ("ledger", .text l.ledger)]

/-- The path of the home in a project. -/
def inProject (project : String) : String := Path.join project dirName

end Home

end TreeRepair
