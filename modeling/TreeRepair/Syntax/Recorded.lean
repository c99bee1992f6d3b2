import TreeRepair.Digest.Hash
import TreeRepair.Json.Reader
import TreeRepair.Syntax.Table

/-!
Recorded answers of grammars. A record names a text by its checksum and holds the tables of the trees
that grammars give for it. A table is a JSON object with the node kinds, the fields, and one row a
node: numbers of kind and field, flags, byte range and parent, where a number below zero says that
there is none.
-/
namespace TreeRepair

namespace SyntaxTree

/-- Whether a power of two is in a sum of different powers of two. -/
def hasFlag (flags power : Nat) : Bool := flags / power % 2 == 1

/-- The row of a JSON array. -/
def rowOfJson? (kinds fields : Array String) : Json → Option TableRow
  | .array [kind, flags, field, start, stop, parent] => do
    let kindName ← kinds[← kind.nat?]?
    let has := hasFlag (← flags.nat?)
    let fieldName := field.nat?.bind fun i => fields[i]?
    return ⟨⟨kindName, has 1, has 2, has 4, has 8, fieldName, ← start.nat?, ← stop.nat?⟩, parent.nat?⟩
  | _ => none

/-- The rows of a JSON array of arrays. -/
def rowsOfJson? (kinds fields : Array String) : Json → Option (List TableRow)
  | .array rows => rows.mapM (rowOfJson? kinds fields)
  | _ => none

/-- The tree of a JSON table. -/
def ofJson? : Json → Option SyntaxTree
  | .object members => do
    let kinds ← (← members.lookup "kinds").texts?
    let fields ← (← members.lookup "fields").texts?
    ofRows (← rowsOfJson? kinds.toArray fields.toArray (← members.lookup "nodes"))
  | _ => none

end SyntaxTree

/-- What grammars answer for a text. -/
structure RecordedTrees where
  /-- The checksum of the text. -/
  checksum : String
  /-- The trees of the grammars that have been asked. -/
  trees : List (Grammar × SyntaxTree)

namespace RecordedTrees

/-- The tree of a grammar in the members of a record. -/
def treeOf? (members : List (String × Json)) (g : Grammar) : Option (Grammar × SyntaxTree) := do
  return (g, ← SyntaxTree.ofJson? (← members.lookup g.name))

/-- The record of a JSON object. -/
def ofJson? : Json → Option RecordedTrees
  | .object members => do
    return ⟨← (← members.lookup "sha256").text?, Grammar.order.filterMap (treeOf? members)⟩
  | _ => none

/-- The records of a JSON array; items that are no records do not matter. -/
def listOfJson : Json → List RecordedTrees
  | .array items => items.filterMap ofJson?
  | _ => []

end RecordedTrees

/-- The grammars that give the recorded trees, and an error as a whole where none is recorded. -/
def Grammars.ofRecorded (checksum : HashFunction) (records : List RecordedTrees) : Grammars :=
  fun g text =>
    let sum := checksum text.toUTF8
    ((records.find? (·.checksum == sum)).bind (·.trees.lookup g)).getD (SyntaxTree.refusal text)

end TreeRepair
