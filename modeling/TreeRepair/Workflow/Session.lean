import TreeRepair.Home
import TreeRepair.Preflight
import TreeRepair.Repair.Registry
import TreeRepair.Snapshot.Rollback

/-!
Sessions. A `Site` is what a session works on and does not change: the root of the project, the home
of the tool, the settings and the store of snapshots. `openSite` reads the settings, makes the home
and opens the cache and the ledger; a home inside the project is never walked.
-/
namespace TreeRepair

/-- Why a workflow comes to no report. -/
inductive WorkflowError where
  | config (e : Config.Error)
  | file (fault : FileFault)
  | ledger (e : ProofLedger.Error)
  | snapshot (e : SnapshotError)
  /-- Critical checks have failed. -/
  | blocked (checks : List String)
  /-- There is no snapshot to go back to. -/
  | noSnapshot
  deriving DecidableEq, Repr

/-- The wording of an error. -/
def WorkflowError.message : WorkflowError → String
  | .config e => e.message
  | .file fault => s!"I/O error: {fault.message}"
  | .ledger e => e.message
  | .snapshot e => e.message
  | .blocked checks => "Pre-flight blocked the run: " ++ String.intercalate ", " checks
  | .noSnapshot => "No snapshot available to roll back to"

/-- What a session works on. -/
structure Site where
  root : Location
  /-- The root as reports show it. -/
  rootText : String
  /-- The home as reports show it. -/
  homeText : String
  config : Config
  filter : SourceFilter
  store : SnapshotStore

namespace Site

/-- What opening a session gives. -/
structure Opened where
  site : Site
  bench : Registry.Bench

/-- Whether a place is below a root that was given as a path. A root that leads nowhere has nothing
below it if its path is relative. -/
def isInside (found : Except FileFault Location) (here : Location) (root : String) (place : Location) : Bool :=
  match found with
  | .ok there => there.isBelow place
  | .error _ => root.startsWith "/" && (here.join root).isBelow place

/-- The settings under which a home inside the root is not entered. -/
def excludeHome (config : Config) (files : Listing) (found : Except FileFault Location) (here : Location)
    (root home : String) : Config :=
  match files.canonicalPath here home with
  | .error _ => config
  | .ok place =>
    if isInside found here root place then
      { config with excludedDirs := config.excludedDirs ++ [place] }
    else config

/-- A site and a bench on it, with the cache, the ledger and the rules. -/
def assemble (config : Config) (w : World) (root : Location) (rootText homeText : String) (home : Home) :
    Except WorkflowError Opened :=
  match ParseCache.openAt w.files home.cache with
  | .error fault => .error (.file fault)
  | .ok (cache, files) =>
    match ProofLedger.open? files home.ledger with
    | .error e => .error (.ledger e)
    | .ok ledger =>
      match SnapshotStore.ofConfig home.backups config, config.filter with
      | .ok store, .ok filter =>
        .ok ⟨⟨root, rootText, homeText, config, filter, store⟩,
          ⟨.fresh Rule.builtin ledger, .fresh cache config.recoveryPrefixBytes, w.withFiles files⟩⟩
      | .error e, _ => .error (.config e)
      | _, .error e => .error (.config e)

/-- Opens a session on a root and a home, given as paths seen from a directory. -/
def openSite (w : World) (here : Location) (root home : String) : Except WorkflowError Opened × World :=
  let found := w.files.canonicalPath here root
  let place := found.toOption.getD (here.join root)
  let rootText :=
    match found with
    | .ok there => there.text
    | .error _ => root
  let homeDir : Home := ⟨here.join home⟩
  match Config.load w.files homeDir.config with
  | .error e => (.error (.config e), w)
  | .ok config =>
    match homeDir.ensure w.files with
    | (.error fault, files) => (.error (.file fault), w.withFiles files)
    | (.ok (), files) =>
      let made := w.withFiles files
      let settled := excludeHome config files found here root home
      (assemble settled made place rootText home homeDir, made)

end Site

end TreeRepair
