import TreeRepair.FileTree.Access
import TreeRepair.Key
import TreeRepair.Syntax.Pattern

/-!
What a source depends on, and where each specifier leads. A specifier is followed from the directory
of the importing file; if no file is there, also with suffixes, it names a package or is missing.
-/
namespace TreeRepair

/-- Where a specifier leads. -/
inductive Resolution where
  /-- To the file with a key. -/
  | internal (key : String)
  /-- To a package. -/
  | external (package : String)
  /-- To a file that is not there. -/
  | missing (specifier : String)
  deriving DecidableEq, Repr

/-- What an import binds. -/
inductive ImportShape where
  | default
  | named
  | namespaced
  /-- A default together with names or a namespace. -/
  | mixed
  /-- Nothing; the import is there for its effect. -/
  | sideEffect
  deriving DecidableEq, Repr

/-- When an import happens. -/
inductive ImportKind where
  /-- On loading. -/
  | static
  /-- When a call is reached. -/
  | dynamic
  deriving DecidableEq, Repr

/-- An import as the source states it. -/
structure ImportClause where
  specifier : String
  /-- The names bound in the source. -/
  names : List String
  shape : ImportShape
  kind : ImportKind
  line : Nat
  deriving DecidableEq, Repr

/-- An import and where it leads. -/
structure ImportRecord where
  clause : ImportClause
  resolution : Resolution
  deriving DecidableEq, Repr

/-! ## Resolution -/

namespace Resolution

/-- What is tried behind the key of a specifier, in order. -/
def suffixes : List String :=
  ["", ".ts", ".tsx", ".js", ".jsx", ".mjs", ".cjs", "/index.ts", "/index.tsx", "/index.js", "/index.jsx"]

/-- Whether a specifier can only mean a file. -/
def isRelative (specifier : String) : Bool :=
  specifier.startsWith "./" || specifier.startsWith "../" || specifier.startsWith "/"

/-- The package of a specifier: its first segment, or its first two if the first begins with `@`. -/
def packageName (specifier : String) : String :=
  match Text.splitString '/' specifier with
  | scope :: name :: _ => if scope.startsWith "@" then scope ++ "/" ++ name else scope
  | [name] => name
  | [] => specifier

/-- The first key with a suffix that is the key of a file. -/
def probe? (isFile : String → Bool) (base : String) : Option String :=
  (suffixes.map (base ++ ·)).find? fun key => !key.isEmpty && isFile key

/-- Where a specifier leads from an importing file, by which keys are those of files. -/
def resolve (isFile : String → Bool) (importer specifier : String) : Resolution :=
  match (Key.join? (Key.parent importer) specifier).bind (probe? isFile) with
  | some key => .internal key
  | none => if isRelative specifier then .missing specifier else .external (packageName specifier)

/-- Where a specifier leads in the tree below a root. -/
def inTree (t : Listing) (root : Location) (importer specifier : String) : Resolution :=
  resolve (fun key => t.isFile (root.join key)) importer specifier

end Resolution

/-- A way to follow imports: where a specifier leads from an importing file, by what is in the tree
below a root. -/
abbrev Resolver := Listing → Location → String → String → Resolution

/-! ## Extraction -/

namespace ParsedUnit

/-- The line a node begins on. -/
def startLine (u : ParsedUnit) (i : Nat) : Nat := (u.node? i).elim 0 (·.startLine)

/-- The names that a part of an import clause binds. -/
def partNames (u : ParsedUnit) (part : Nat) : List String :=
  if u.kind part = "identifier" then [u.text part]
  else if u.kind part = "namespace_import" then (u.namedChildren part).map u.text
  else if u.kind part = "named_imports" then (u.namedChildren part).filterMap u.localName?
  else []

/-- What the parts of an import clause bind together. -/
def clauseShape (u : ParsedUnit) (parts : List Nat) : ImportShape :=
  let has (kind : String) : Bool := parts.any (u.kind · == kind)
  if has "identifier" then
    if has "named_imports" || has "namespace_import" then .mixed else .default
  else if has "namespace_import" then .namespaced
  else .named

/-- The import of an import statement. -/
def staticImport? (u : ParsedUnit) (i : Nat) : Option ImportClause :=
  (u.childByField? i "source").map fun source =>
    let specifier := u.stringValue source
    match u.importClause? i with
    | none => ⟨specifier, [], .sideEffect, .static, u.startLine i⟩
    | some clause =>
      let parts := u.namedChildren clause
      ⟨specifier, parts.flatMap u.partNames, u.clauseShape parts, .static, u.startLine i⟩

/-- The import of an export statement that passes on what another source exports. -/
def reexport? (u : ParsedUnit) (i : Nat) : Option ImportClause :=
  (u.childByField? i "source").map fun source =>
    let clauses := (u.namedChildren i).filter (u.kind · == "export_clause")
    let names := clauses.flatMap fun clause =>
      (u.namedChildren clause).filterMap fun s => (u.childByField? s "name").map u.text
    ⟨u.stringValue source, names, if names.isEmpty then .namespaced else .named, .static, u.startLine i⟩

/-- The import of a call with a literal specifier. -/
def dynamicImport? (u : ParsedUnit) (i : Nat) : Option ImportClause :=
  match u.childByField? i "function" with
  | none => none
  | some callee =>
    if u.kind callee = "import" ∨ u.text callee = "require" then
      (u.literalArgument? i).map fun a => ⟨u.stringValue a, [], .default, .dynamic, u.startLine i⟩
    else none

/-- The import of a node. -/
def import? (u : ParsedUnit) (i : Nat) : Option ImportClause :=
  if u.kind i = "import_statement" then u.staticImport? i
  else if u.kind i = "export_statement" then u.reexport? i
  else if u.kind i = "call_expression" then u.dynamicImport? i
  else none

/-- The imports of a source in source order. -/
def imports (u : ParsedUnit) : List ImportClause := u.preorder.filterMap u.import?

/-- The imports of a source and where they lead. -/
def dependencies (u : ParsedUnit) (resolve : String → String → Resolution) : List ImportRecord :=
  u.imports.map fun c => ⟨c, resolve u.file c.specifier⟩

end ParsedUnit

end TreeRepair
