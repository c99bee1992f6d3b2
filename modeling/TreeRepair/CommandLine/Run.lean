import TreeRepair.CommandLine.Arguments
import TreeRepair.CommandLine.EnvFile
import TreeRepair.CommandLine.Output
import TreeRepair.Workflow.Json
import TreeRepair.Workflow.Run

/-!
A run of the command line: arguments and variables give the root and the home, a session is opened on
them, the command's report is printed and, but for `status`, written to the home.
-/
namespace TreeRepair.CommandLine

/-- What a run leaves: its exit code, the lines it has printed, and the world. -/
structure Result where
  code : Nat
  lines : List String
  world : World

/-- The exit codes. -/
inductive ExitCode where
  | success
  /-- The workflow has failed. -/
  | failure
  /-- The arguments make no sense. -/
  | usage
  /-- A number has run over, or a variable cannot be set. -/
  | breakdown
  deriving DecidableEq, Repr

/-- The number of an exit code. -/
def ExitCode.number : ExitCode → Nat
  | .success => 0
  | .failure => 1
  | .usage => 2
  | .breakdown => 101

/-- The exit code of an error. -/
def exitCodeOf : WorkflowError → ExitCode
  | .snapshot .noTimestamp => .breakdown
  | _ => .failure

/-- The variable that names the home. -/
def homeVariable : String := "WARDEN_HOME"

/-- The root that options name. -/
def rootOf (o : Options) : String := o.path.getD "."

/-- The home that options and variables name, or the one in the root. -/
def homeOf (o : Options) (vars : Variables) : String :=
  (o.home.or (vars.lookup homeVariable)).getD (Home.inProject (rootOf o))

/-- What a command comes to: its lines and its report if there is one to write. -/
structure Printed where
  lines : List String
  report : Option Json

/-- Runs a command in a session. -/
def runCommand (env : Surroundings) (facts : HostFacts) (a : Arguments) (s : Site) (b : Registry.Bench) :
    Except WorkflowError Printed × Registry.Bench :=
  let o := a.options
  match a.command with
  | .scan =>
    let (result, left) := s.scan env facts b o.dryRun o.force
    (result.map fun r => ⟨scanLines r, some r.toJson⟩, left)
  | .fix =>
    let (result, left) := s.fix env facts b o.dryRun o.force
    (result.map fun r => ⟨fixLines r, some r.toJson⟩, left)
  | .verify =>
    let (r, left) := s.verify env b
    (.ok ⟨verifyLines r, some r.toJson⟩, left)
  | .rollback =>
    let (result, left) := s.rollback env facts b o.snapshot o.dryRun o.force
    (result.map fun r => ⟨rollbackLines r, some r.toJson⟩, left)
  | .status =>
    let (r, left) := s.status env b
    (.ok ⟨statusLines r, none⟩, left)

/-- The path of a report. -/
def reportPath (home : String) (c : Command) (timestamp : Nat) : String :=
  Path.join (Path.join home Home.reportsName) (c.name ++ "-" ++ toString timestamp ++ ".json")

/-- Writes a report and prints where it is. -/
def writeReport (env : Surroundings) (w : World) (here : Location) (home : String) (c : Command)
    (printed : Printed) : Result :=
  match printed.report with
  | none => ⟨ExitCode.success.number, printed.lines, w⟩
  | some report =>
    let path := reportPath home c (w.now env)
    match w.files.write (here.join path) report.pretty.toUTF8 with
    | .error _ => ⟨ExitCode.failure.number, printed.lines, w.drawn⟩
    | .ok files => ⟨ExitCode.success.number, printed.lines ++ ["Report: " ++ path], w.drawn.withFiles files⟩

/-- Runs a command with its options and variables. -/
def runArguments (env : Surroundings) (facts : HostFacts) (w : World) (here : Location)
    (vars : Variables) (a : Arguments) : Result :=
  let home := homeOf a.options vars
  match Site.openSite w here (rootOf a.options) home with
  | (.error e, left) => ⟨(exitCodeOf e).number, [], left⟩
  | (.ok opened, _) =>
    match runCommand env facts a opened.site opened.bench with
    | (.error e, left) => ⟨(exitCodeOf e).number, [], left.world⟩
    | (.ok printed, left) => writeReport env left.world here home a.command printed

/-- Runs the command line in a directory. -/
def run (env : Surroundings) (facts : HostFacts) (w : World) (here : Location) (vars : Variables)
    (args : List String) : Result :=
  match EnvFile.apply w.files here vars with
  | none => ⟨ExitCode.breakdown.number, [], w⟩
  | some vars =>
    match Arguments.parse args with
    | .error .help => ⟨ExitCode.success.number, [], w⟩
    | .error .usage => ⟨ExitCode.usage.number, [], w⟩
    | .ok a => runArguments env facts w here vars a

end TreeRepair.CommandLine
