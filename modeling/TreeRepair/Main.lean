import Std.Time.DateTime.Timestamp
import TreeRepair.CommandLine.Run
import TreeRepair.Digest.Blake3
import TreeRepair.Digest.Sha256
import TreeRepair.FileTree.Change
import TreeRepair.Syntax.Recorded

/-!
The program. It loads the files that a run may touch, runs the command line on them as a value, and
carries out the changes that the run has made. What grammars answer is read from a file of recorded
trees; what is not recorded counts as refused. Symbolic links are passed over.
-/
namespace TreeRepair.CommandLine

/-! ## Loading -/

/-- The files below a directory. -/
partial def loadDir (path : String) : IO Listing := do
  let here ← IO.currentDir
  let mut found := Listing.empty
  for entry in ← (here / path).readDir do
    let inner := path ++ "/" ++ entry.fileName
    match (← entry.path.symlinkMetadata).type with
    | .dir => found := .dir entry.fileName (← loadDir inner) found
    | .file => found := .file entry.fileName (← IO.FS.readBinFile inner) found
    | _ => pure ()
  return found

/-- A tree of files with an entry at the end of a path of names, and the directories on the way. -/
def plant (files : Listing) (names : List String) (e : Entry) : Listing :=
  (files.createDirs names.dropLast).2.putAt names e

/-- A tree of files with what lies at a path, if anything does. -/
def loadAt (files : Listing) (path : String) : IO Listing := do
  let here ← IO.currentDir
  if ← (here / path).pathExists then
    let real := toString (← IO.FS.realPath (here / path))
    let names := Location.components (Location.join [] real)
    if ← (here / path).isDir then return plant files names (.dir (← loadDir real))
    else return plant files names (.file (← IO.FS.readBinFile real))
  else return files

/-- The files of variables in a directory and those above it. -/
def loadEnvFiles (here : Location) : IO Listing := do
  let mut files := (Listing.empty.createDirs here).2
  for depth in List.range (here.length + 1) do
    files ← loadAt files (Location.text (here.take depth ++ [EnvFile.fileName]))
  return files

/-- The recorded trees in the file that a variable names. -/
def loadTrees : IO (List RecordedTrees) := do
  match ← IO.getEnv "WARDEN_TREES" with
  | none => return []
  | some path =>
    let text := (String.fromUTF8? (← IO.FS.readBinFile path)).getD ""
    return ((Json.parse text).map RecordedTrees.listOfJson).getD []

/-! ## Surroundings -/

/-- The id of a number: digits of the checksum of a seed and the number, in groups. -/
def seededId (seed : ByteArray) (n : Nat) : String :=
  let digits := (Digest.sha256Hex (seed ++ (toString n).toUTF8)).toList
  let group (start length : Nat) : String := String.ofList ((digits.drop start).take length)
  String.intercalate "-" [group 0 8, group 8 4, group 12 4, group 16 4, group 20 12]

/-- The surroundings of a run that begins at a time. -/
def surroundingsAt (start : Nat) (seed : ByteArray) (trees : List RecordedTrees) : Surroundings where
  grammars := .ofRecorded Digest.sha256Hex trees
  contentHash := Digest.blake3Hex
  checksum := Digest.sha256Hex
  archives := .json
  process := seed.data.toList.foldl (fun n b => n * 3 + b.toNat) 0
  clock n := start + n
  freshId := seededId seed

/-- Nothing is known of the machine and the version control. -/
def unknownFacts : HostFacts := ⟨none, none, none, none⟩

/-! ## Storing -/

/-- Carries out a change. -/
def carryOut : Change → IO Unit
  | .remove names => do
    let here ← IO.currentDir
    if ← (here / Location.text names).isDir then IO.FS.removeDirAll (Location.text names)
    else IO.FS.removeFile (Location.text names)
  | .makeDir names => IO.FS.createDirAll (Location.text names)
  | .writeFile names content => IO.FS.writeBinFile (Location.text names) content

/-- Runs the command line in the current directory. -/
def runHere (args : List String) : IO UInt32 := do
  let here := Location.components (Location.join [] (toString (← IO.currentDir)))
  let vars := ((← IO.getEnv homeVariable).map (homeVariable, ·)).toList
  let mut files ← loadEnvFiles here
  if let .ok a := Arguments.parse args then
    files ← loadAt files (rootOf a.options)
    files ← loadAt files (homeOf a.options ((EnvFile.apply files here vars).getD vars))
  let start := (← Std.Time.Timestamp.now).toMillisecondsSinceUnixEpoch.val.toNat
  let env := surroundingsAt start (← IO.getRandomBytes 16) (← loadTrees)
  let result := run env unknownFacts ⟨files, 0, 0⟩ here vars args
  (files.changes result.world.files).forM carryOut
  result.lines.forM IO.println
  return UInt32.ofNat result.code

end TreeRepair.CommandLine

/-- The program. -/
def main (args : List String) : IO UInt32 := TreeRepair.CommandLine.runHere args
