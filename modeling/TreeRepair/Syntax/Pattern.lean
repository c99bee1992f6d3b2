import TreeRepair.Syntax.Arena
import TreeRepair.Text.Alphanumeric
import TreeRepair.Text.Lines

/-!
Facts about a parsed source: its size, its markup and hooks, what it imports and exports, calls with
an effect on loading, and quoted strings that look like templates. Each fact is a pass over the nodes
in preorder, so a unit without a tree has none.
-/
namespace TreeRepair

namespace ParsedUnit

/-! ## Strings and calls -/

/-- The text between the quotes of a string literal, empty if there are none. -/
def stringValue (u : ParsedUnit) (i : Nat) : String :=
  let raw := u.text i
  Text.sliceOrEmpty raw 1 (raw.utf8ByteSize - 1)

/-- The text between the quotes of a string literal, if there are quotes. -/
def stringValue? (u : ParsedUnit) (i : Nat) : Option String :=
  let raw := u.text i
  (Text.slice? raw.toList 1 (raw.utf8ByteSize - 1)).map String.ofList

/-- The node of what a call calls. -/
def callee? (u : ParsedUnit) (call : Nat) : Option Nat :=
  match u.childByField? call "function" with
  | some c => some c
  | none => u.childByField? call "constructor"

/-- The first argument of a call if it is a string literal. -/
def literalArgument? (u : ParsedUnit) (call : Nat) : Option Nat :=
  match u.childByField? call "arguments" with
  | none => none
  | some arguments =>
    match u.namedChildren arguments with
    | [] => none
    | first :: _ => if u.kind first = "string" then some first else none

/-- The name that a call's result is bound to by the declaration around it. -/
def declaredName? (u : ParsedUnit) (call : Nat) : Option String :=
  match u.parent? call with
  | none => none
  | some p =>
    if u.kind p = "variable_declarator" then (u.childByField? p "name").map u.text else none

/-- The calls of a source, `new` included, with what they call. -/
def calls (u : ParsedUnit) : List (Nat × Nat) :=
  u.preorder.filterMap fun i =>
    if u.kind i = "call_expression" ∨ u.kind i = "new_expression" then (u.callee? i).map (i, ·) else none

/-! ## Side effects -/

/-- What a call at module scope may begin with to count as a side effect of loading. -/
def sensitiveApis : List String :=
  ["fetch", "XMLHttpRequest", "localStorage.", "sessionStorage.", "indexedDB.", "navigator.",
   "document.addEventListener", "window.addEventListener", "document.cookie", "setInterval",
   "setTimeout", "process.exit"]

/-- Nodes that open a scope of their own. -/
def scopeKinds : List String :=
  ["function_declaration", "function_expression", "function", "generator_function_declaration",
   "generator_function", "arrow_function", "method_definition", "class_body"]

/-- Whether a name ends in front of this text. -/
def isNameEnd : List Char → Bool
  | [] => true
  | c :: _ => !(Text.isAlphanumeric c || c == '_' || c == '$')

/-- Whether a called expression begins with a sensitive name, and the name ends there. -/
def isSensitive (callee : String) : Bool :=
  let cs := callee.toList
  sensitiveApis.any fun api =>
    api.toList.isPrefixOf cs && (api.endsWith "." || isNameEnd (cs.drop api.length))

/-- Whether no scope is around a node. -/
def atModuleScope (u : ParsedUnit) (i : Nat) : Bool :=
  (u.ancestors i).all fun a => !scopeKinds.contains (u.kind a)

/-- What calls at module scope call, where that is a side effect. -/
def sideEffectCalls (u : ParsedUnit) : List String :=
  u.calls.filterMap fun (i, c) =>
    let text := u.text c
    if isSensitive text && u.atModuleScope i then some text else none

/-! ## Hooks and markup -/

/-- The hook that a called expression names: its last part, if that is `use` and a capital. -/
def hookName? (callee : String) : Option String :=
  match (Text.cutAt '.' callee.toList).getLast? with
  | some ('u' :: 's' :: 'e' :: c :: rest) =>
    if 'A' ≤ c ∧ c ≤ 'Z' then some (String.ofList ('u' :: 's' :: 'e' :: c :: rest)) else none
  | _ => none

/-- The hooks that are called. -/
def hookCalls (u : ParsedUnit) : List String := u.calls.filterMap fun (_, c) => hookName? (u.text c)

/-- The number of markup elements. -/
def markupElements (u : ParsedUnit) : Nat :=
  (u.preorder.filter fun i => u.kind i == "jsx_element" || u.kind i == "jsx_self_closing_element").length

/-- Whether the source holds markup. -/
def hasMarkup (u : ParsedUnit) : Bool := 0 < u.markupElements

/-! ## The rendering library -/

/-- The package that markup compiles to calls of. -/
def renderLibrary : String := "react"

/-- The name those calls go through. -/
def renderBinding : String := "React"

/-- The clause of an import statement that lists what is bound. -/
def importClause? (u : ParsedUnit) (statement : Nat) : Option Nat :=
  (u.namedChildren statement).find? (u.kind · == "import_clause")

/-- Whether a part of an import clause binds the rendering library as a whole to its name. -/
def partBindsRender (u : ParsedUnit) (part : Nat) : Bool :=
  if u.kind part = "identifier" then u.text part == renderBinding
  else if u.kind part = "namespace_import" then
    (u.namedChildren part).any fun n => u.text n == renderBinding
  else false

/-- Whether an import statement binds the rendering library as a whole to its name. -/
def importBindsRender (u : ParsedUnit) (statement : Nat) : Bool :=
  match u.childByField? statement "source" with
  | none => false
  | some source =>
    u.stringValue source == renderLibrary
      && (u.importClause? statement).any fun clause => (u.namedChildren clause).any u.partBindsRender

/-- Whether a call loads the rendering library into a variable of its name. -/
def requireBindsRender (u : ParsedUnit) (call callee : Nat) : Bool :=
  u.text callee == "require"
    && (u.literalArgument? call).any (fun a => u.stringValue? a == some renderLibrary)
    && u.declaredName? call == some renderBinding

/-- Whether the source binds the rendering library to its name. -/
def bindsRenderLibrary (u : ParsedUnit) : Bool :=
  u.preorder.any (fun i => u.kind i == "import_statement" && u.importBindsRender i)
    || u.calls.any fun (i, c) => u.requireBindsRender i c

/-! ## Imports and exports -/

/-- The specifiers of import statements. -/
def staticImports (u : ParsedUnit) : List String :=
  (u.nodesOfKind "import_statement").filterMap fun i =>
    (u.childByField? i "source").map u.stringValue

/-- The literal specifiers of calls that import. -/
def dynamicImports (u : ParsedUnit) : List String :=
  u.calls.filterMap fun (i, c) =>
    if u.kind c = "import" ∨ u.text c = "require" then (u.literalArgument? i).bind u.stringValue?
    else none

/-- The text of a specifier's alias, or of its name. -/
def localName? (u : ParsedUnit) (specifier : Nat) : Option String :=
  match u.childByField? specifier "alias" with
  | some n => some (u.text n)
  | none => (u.childByField? specifier "name").map u.text

/-- The names that a declaration introduces. -/
def declarationNames (u : ParsedUnit) (declaration : Nat) : List String :=
  match u.childByField? declaration "name" with
  | some n => [u.text n]
  | none =>
    (u.namedChildren declaration).filterMap fun c =>
      if u.kind c = "variable_declarator" then (u.childByField? c "name").map u.text else none

/-- The names that an export statement exports. -/
def exportedNames (u : ParsedUnit) (statement : Nat) : List String :=
  if (u.children statement).any (u.kind · == "default") then ["default"]
  else
    match u.childByField? statement "declaration" with
    | some d => u.declarationNames d
    | none =>
      ((u.namedChildren statement).filter (u.kind · == "export_clause")).flatMap fun clause =>
        (u.namedChildren clause).filterMap u.localName?

/-- The names that the source exports. -/
def exports (u : ParsedUnit) : List String := (u.nodesOfKind "export_statement").flatMap u.exportedNames

/-! ## Templates -/

/-- A quoted string with a placeholder in it. -/
structure Hazard where
  node : Nat
  line : Nat
  /-- The string is the value of a markup attribute. -/
  inAttribute : Bool
  deriving DecidableEq, Repr

/-- Whether a text holds the start of a placeholder. -/
def hasPlaceholder : List Char → Bool
  | [] => false
  | c :: cs => (c == '$' && cs.head? == some '\x7b') || hasPlaceholder cs

/-- The quoted strings with placeholders, other than import sources. -/
def hazards (u : ParsedUnit) : List Hazard :=
  (u.nodesOfKind "string").filterMap fun i =>
    match u.node? i with
    | none => none
    | some n =>
      if n.field ≠ some "source" ∧ hasPlaceholder (u.text i).toList then
        some ⟨i, n.startLine, (u.parent? i).any (u.kind · == "jsx_attribute")⟩
      else none

/-- The number of template literals with a substitution. -/
def interpolatedTemplates (u : ParsedUnit) : Nat :=
  ((u.nodesOfKind "template_string").filter fun i =>
    (u.children i).any (u.kind · == "template_substitution")).length

end ParsedUnit

end TreeRepair
