import TreeRepair.Repair.Rule
import TreeRepair.Repair.Template

/-!
The three rules. Prose becomes a line comment; the rendering library is imported where markup lacks
it, into an import of the library that can take it or else on a line behind the directives; a quoted
string with a placeholder becomes a template literal.
-/
namespace TreeRepair

open Text

/-! ## Prose -/

/-- Puts a comment mark in front of every stray line of a source whose unit has errors. -/
def proposeComments (u : ParsedUnit) (source : String) : List Edit :=
  if u.hasErrors then (Prose.strayLines source).map fun l => Edit.insert l.start "// " else []

/-- Prose becomes a comment. -/
def Rule.strayTextToComment : Rule where
  id := .strayTextToComment
  title := "Comment out stray prose"
  defect := .strayText
  statement :=
    "A line comment is ignored by every grammar, so commenting a prose line removes its parse error "
      ++ "without changing program behavior."
  propose u source := .ok (proposeComments u source)
  judge := Verdict.judge .strayText

/-! ## The rendering library -/

namespace ParsedUnit

/-- Where the clause of an import statement begins, if the statement imports the rendering library
and the clause binds no default. -/
def extensionPoint? (u : ParsedUnit) (statement : Nat) : Option Nat := do
  let source ← u.childByField? statement "source"
  if u.stringValue source ≠ renderLibrary then none
  else
    let clause ← u.importClause? statement
    let first ← (u.namedChildren clause).head?
    if u.kind first = "named_imports" ∨ u.kind first = "namespace_import" then
      (u.node? clause).map (·.start)
    else none

/-- Where a default binding of the rendering library can be put into an import. -/
def extendableClause? (u : ParsedUnit) : Option Nat :=
  (u.nodesOfKind "import_statement").findSome? u.extensionPoint?

/-- Whether a statement is a directive: the line that names an interpreter, or a lone string. -/
def isDirective (u : ParsedUnit) (statement : Nat) : Bool :=
  u.kind statement == "hash_bang_line"
    || (u.kind statement == "expression_statement"
      && match u.namedChildren statement with
        | [inner] => u.kind inner == "string"
        | _ => false)

/-- Where the last of the directives at the front of statements ends, comments passed over; the given
offset if there is none. -/
def directivesEnd (u : ParsedUnit) : Nat → List Nat → Nat
  | stop, [] => stop
  | stop, s :: rest =>
    if u.kind s = "comment" then u.directivesEnd stop rest
    else if u.isDirective s then u.directivesEnd ((u.node? s).elim 0 (·.stop)) rest
    else stop

/-- Where the directives of a source end, zero without any. -/
def prologueEnd (u : ParsedUnit) : Nat :=
  match u.root? with
  | none => 0
  | some r => u.directivesEnd 0 (u.namedChildren r)

end ParsedUnit

/-- The offset behind the first line feed at or behind an offset, or the end of the text; nothing if
the offset is no boundary of the text. -/
def nextLine? (source : String) (offset : Nat) : Option Nat :=
  let cs := source.toList
  (splitAt? cs offset).map fun (_, rest) =>
    let line := rest.takeWhile (· != '\n')
    let after := offset + byteLength line
    if after < byteLength cs then after + 1 else after

/-- Where a new import line goes: behind the line that the directives end on. -/
def importOffset? (u : ParsedUnit) (source : String) : Option Nat :=
  if u.prologueEnd = 0 then some 0 else nextLine? source u.prologueEnd

/-- The line that imports the rendering library. -/
def importLine : String :=
  "import " ++ ParsedUnit.renderBinding ++ " from '" ++ ParsedUnit.renderLibrary ++ "';\n"

/-- Puts the import line in at an offset, on a line of its own. -/
def insertImport (source : String) (offset : Nat) : Edit :=
  let atOpenEnd := offset == source.utf8ByteSize && !source.isEmpty && !source.endsWith "\n"
  Edit.insert offset (if atOpenEnd then "\n" ++ importLine else importLine)

/-- Binds the rendering library in a source whose unit holds markup without it. -/
def proposeImport (u : ParsedUnit) (source : String) : Except RuleFault (List Edit) :=
  if !Defect.renderBinding.isPresent u then .ok []
  else
    match u.extendableClause? with
    | some offset => .ok [Edit.insert offset (ParsedUnit.renderBinding ++ ", ")]
    | none =>
      match importOffset? u source with
      | some offset => .ok [insertImport source offset]
      | none => .error (.crashed s!"no line behind byte {u.prologueEnd}")

/-- The rendering library is imported. -/
def Rule.ensureRenderImport : Rule where
  id := .ensureRenderImport
  title := "Bind React for markup"
  defect := .renderBinding
  statement :=
    "Markup compiles to calls on the React binding; importing the default export of 'react' puts that "
      ++ "binding in module scope."
  propose := proposeImport
  judge := Verdict.judge .renderBinding

/-! ## Placeholders -/

/-- What replaces a quoted string with a placeholder: a template literal, in braces in markup. -/
def templateFor (u : ParsedUnit) (h : ParsedUnit.Hazard) : String :=
  let literal := Template.literal (u.stringValue h.node).toList
  String.ofList (if h.inAttribute then '\x7b' :: (literal ++ ['\x7d']) else literal)

/-- The edit that replaces a quoted string with a placeholder. -/
def templateEdit (u : ParsedUnit) (h : ParsedUnit.Hazard) : Edit :=
  ⟨(u.node? h.node).elim 0 (·.start), (u.node? h.node).elim 0 (·.stop), templateFor u h⟩

/-- Quoted strings with placeholders become template literals. -/
def Rule.interpolateAttribute : Rule where
  id := .interpolateAttribute
  title := "Quoted placeholder to template literal"
  defect := .templateInterpolation
  statement :=
    "Only template literals evaluate `$\x7b\x7d`; rewriting the quoted string as a template literal "
      ++ "makes the placeholder interpolate."
  propose u _ := .ok (u.hazards.map (templateEdit u))
  judge := Verdict.judge .templateInterpolation

/-- The rules in order. -/
def Rule.builtin : List Rule :=
  [.strayTextToComment, .ensureRenderImport, .interpolateAttribute]

end TreeRepair
