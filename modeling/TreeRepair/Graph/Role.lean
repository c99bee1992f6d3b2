import TreeRepair.Text.Lines

/-!
The role that a file plays in a project, read off its key: directory names and the stem of the file
name. The first rule that applies decides.
-/
namespace TreeRepair

/-- The part that a file plays in a project. -/
inductive Role where
  | entry
  | provider
  | context
  | component
  | route
  | hook
  | utility
  /-- None of the other roles. -/
  | module
  deriving DecidableEq, Repr

namespace Role

/-- All roles, in order. -/
def all : List Role :=
  [.entry, .provider, .context, .component, .route, .hook, .utility, .module]

/-- The name of a role. -/
def name : Role → String
  | .entry => "entry"
  | .provider => "provider"
  | .context => "context"
  | .component => "component"
  | .route => "route"
  | .hook => "hook"
  | .utility => "utility"
  | .module => "module"

/-! ## Parts of keys -/

/-- The directory names of a key. -/
def dirs (key : String) : List String := (Text.splitString '/' key).dropLast

/-- The file name of a key up to its first dot. -/
def stem (key : String) : List Char :=
  (((Text.splitString '/' key).getLastD "").toList).takeWhile (· != '.')

/-- Whether a text occurs in another one. -/
def occursIn (part : List Char) : List Char → Bool
  | [] => part.isEmpty
  | c :: cs => part.isPrefixOf (c :: cs) || occursIn part cs

/-- Whether a text begins with an ASCII capital. -/
def beginsUpper : List Char → Bool
  | [] => false
  | c :: _ => c.isUpper

/-- Whether a stem is `use` and a capital. -/
def isHookName (stem : List Char) : Bool :=
  "use".toList.isPrefixOf stem && beginsUpper (stem.drop 3)

/-! ## Rules -/

/-- Stems of entry files in any directory. -/
def frameworkStems : List String := ["_app", "_document"]

/-- Stems of entry files near the root. -/
def indexStems : List String := ["index", "main"]

/-- Whether a stem is among names. -/
def isOneOf (stem : List Char) (names : List String) : Bool := names.contains (String.ofList stem)

/-- The role of the file with a key, by whether the file holds markup. -/
def ofKey (key : String) (hasMarkup : Bool) : Role :=
  let stem := stem key
  let dirs := dirs key
  let inside (names : List String) : Bool := dirs.any names.contains
  let mentions (part : String) : Bool := occursIn part.toList stem
  if isOneOf stem indexStems && dirs.length ≤ 1 || isOneOf stem frameworkStems then .entry
  else if mentions "Provider" || inside ["providers"] then .provider
  else if mentions "Context" || inside ["context", "contexts"] then .context
  else if isHookName stem || inside ["hooks"] then .hook
  else if inside ["pages", "routes"] || occursIn "route".toList (stem.map Char.toLower) then .route
  else if inside ["components"] || hasMarkup && beginsUpper stem then .component
  else if inside ["utils", "lib", "helpers"] then .utility
  else .module

/-- Stems that make a file an entry point whatever its role. -/
def entryStems : List String := ["main", "App", "_app", "_document", "server"]

/-- Whether a project is entered at the file with a key and a role. -/
def isEntryPoint (key : String) (role : Role) : Bool := role == .entry || isOneOf (stem key) entryStems

end Role

end TreeRepair
