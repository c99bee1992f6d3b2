import TreeRepair.Text.Lines

/-!
The arguments of the command line: a home for the tool, a command, a path and the options of the
command. Options may stand before or behind the path; behind `--` everything is a path.
-/
namespace TreeRepair.CommandLine

/-- The names of commands. -/
inductive Command where
  | scan
  | fix
  | verify
  | rollback
  | status
  deriving DecidableEq, Repr

namespace Command

/-- All commands. -/
def all : List Command := [.scan, .fix, .verify, .rollback, .status]

/-- The name of a command. -/
def name : Command → String
  | .scan => "scan"
  | .fix => "fix"
  | .verify => "verify"
  | .rollback => "rollback"
  | .status => "status"

/-- The command with a name. -/
def ofName? (s : String) : Option Command := all.find? (·.name == s)

/-- Whether a command can be run dry and forced. -/
def takesFlags : Command → Bool
  | .scan | .fix | .rollback => true
  | .verify | .status => false

/-- Whether a command takes the id of a snapshot. -/
def takesSnapshot : Command → Bool
  | .rollback => true
  | _ => false

end Command

/-- What a list of arguments asks for instead of a run. -/
inductive Refusal where
  /-- Help. -/
  | help
  /-- Nothing that there is. -/
  | usage
  deriving DecidableEq, Repr

/-- The options of a command, as far as they are given. -/
structure Options where
  home : Option String
  path : Option String
  snapshot : Option String
  dryRun : Bool
  force : Bool
  deriving DecidableEq, Repr

/-- No option. -/
def Options.none : Options := ⟨.none, .none, .none, false, false⟩

/-- A command with its options. -/
structure Arguments where
  command : Command
  options : Options
  deriving DecidableEq, Repr

/-! ## Options with values -/

/-- Whether an argument can stand for a value behind an option. -/
def isValue (arg : String) : Bool := arg == "-" || !arg.startsWith "-"

/-- The value that follows an option, in the same argument behind `=` or in the next one, and the
arguments behind it; nothing if the option is another one. -/
inductive ValueOf where
  | other
  | missing
  | found (value : String) (rest : List String)

/-- Reads the option with a name at the front of arguments. -/
def valueOf (option arg : String) (rest : List String) : ValueOf :=
  if arg = option then
    match rest with
    | value :: behind => if isValue value then .found value behind else .missing
    | [] => .missing
  else if arg.startsWith (option ++ "=") then
    .found (String.ofList (arg.toList.drop (option.length + 1))) rest
  else .other

/-- What is left behind a value is not longer than what followed the option. -/
theorem valueOf_length {option arg value : String} {rest behind : List String}
    (h : valueOf option arg rest = .found value behind) : behind.length ≤ rest.length := by
  unfold valueOf at h
  split at h
  · split at h
    · split at h
      · cases h
        simp
      · cases h
    · cases h
  · split at h
    · cases h
      simp
    · cases h

/-! ## Parsing -/

/-- Whether an argument asks for help. -/
def asksHelp (arg : String) : Bool := arg == "--help" || arg.startsWith "-h"

/-- Enters the home. -/
def Options.setHome (o : Options) (value : String) : Except Refusal Options :=
  if value.isEmpty || o.home.isSome then .error .usage else .ok { o with home := some value }

/-- Enters the path. -/
def Options.setPath (o : Options) (value : String) : Except Refusal Options :=
  if value.isEmpty || o.path.isSome then .error .usage else .ok { o with path := some value }

/-- Enters the id of a snapshot. -/
def Options.setSnapshot (c : Command) (o : Options) (value : String) : Except Refusal Options :=
  if !c.takesSnapshot || o.snapshot.isSome then .error .usage else .ok { o with snapshot := some value }

/-- Enters an argument that is no option with a value. -/
def Options.setFlag (c : Command) (o : Options) (arg : String) : Except Refusal Options :=
  if asksHelp arg then .error .help
  else if isValue arg then o.setPath arg
  else if arg = "--dry-run" ∧ c.takesFlags ∧ !o.dryRun then .ok { o with dryRun := true }
  else if arg = "--force" ∧ c.takesFlags ∧ !o.force then .ok { o with force := true }
  else .error .usage

/-- Reads the arguments behind a command. -/
def readOptions (c : Command) (o : Options) : List String → Except Refusal Options
  | [] => .ok o
  | "--" :: paths => paths.foldlM Options.setPath o
  | arg :: rest =>
    match h : valueOf "--home" arg rest with
    | .missing => .error .usage
    | .found value behind =>
      have := valueOf_length h
      (o.setHome value).bind fun set => readOptions c set behind
    | .other =>
      match h : valueOf "--snapshot" arg rest with
      | .missing => .error .usage
      | .found value behind =>
        have := valueOf_length h
        (o.setSnapshot c value).bind fun set => readOptions c set behind
      | .other => (o.setFlag c arg).bind fun set => readOptions c set rest
termination_by args => args.length

/-- What arguments behind the word `help` ask for. -/
def readHelp : List String → Refusal
  | [] => .help
  | [name] => if name = "help" ∨ (Command.ofName? name).isSome then .help else .usage
  | _ => .usage

/-- Reads a command and what follows it; a home given in front of the command holds unless another one
follows. -/
def readCommand (home : Option String) (name : String) (rest : List String) : Except Refusal Arguments :=
  if name = "help" then .error (readHelp rest)
  else
    match Command.ofName? name with
    | none => .error (if asksHelp name then .help else .usage)
    | some c =>
      (readOptions c .none rest).map fun o => ⟨c, { o with home := o.home.or home }⟩

/-- Reads arguments. -/
def Arguments.read (o : Options) : List String → Except Refusal Arguments
  | [] => .error .usage
  | arg :: rest =>
    match h : valueOf "--home" arg rest with
    | .missing => .error .usage
    | .found value behind =>
      have := valueOf_length h
      (o.setHome value).bind fun set => Arguments.read set behind
    | .other => readCommand o.home arg rest
termination_by args => args.length

/-- The command and the options that arguments stand for. -/
def Arguments.parse (args : List String) : Except Refusal Arguments := Arguments.read .none args

end TreeRepair.CommandLine
