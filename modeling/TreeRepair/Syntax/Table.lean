import TreeRepair.Syntax.Tree

/-!
Syntax trees from tables. A table lists the nodes of a tree in preorder, each with the row number of
its parent; a row without parent is the root.
-/
namespace TreeRepair.SyntaxTree

/-- A row of a table. -/
structure TableRow where
  info : NodeInfo
  parent : Option Nat

/-- The trees below each row as far as they are known, and the tree of the root. -/
structure TableReader where
  below : Array (List SyntaxTree)
  root : Option SyntaxTree

/-- Enters a row, those behind it being entered. -/
def TableReader.enter (row : TableRow × Nat) (r : TableReader) : TableReader :=
  let t := SyntaxTree.node row.1.info ((r.below[row.2]?).getD [])
  match row.1.parent with
  | none => ⟨r.below, some t⟩
  | some p => ⟨r.below.modify p (t :: ·), r.root⟩

/-- The tree of a table. -/
def ofRows (rows : List TableRow) : Option SyntaxTree :=
  (rows.zipIdx.foldr TableReader.enter ⟨Array.replicate rows.length [], none⟩).root

/-- A tree that is an error as a whole. -/
def refusal (text : String) : SyntaxTree :=
  .node ⟨"ERROR", true, true, false, true, none, 0, text.utf8ByteSize⟩ []

end TreeRepair.SyntaxTree
