import TreeRepair.Syntax.Arena
import TreeRepair.Text.Lines

/-!
Parsing a text with several grammars. The first grammar whose tree has no error gives a clean unit; a
text that all of them refuse gives a recovery unit with the issues of the last tree and the start of
the text.
-/
namespace TreeRepair

/-! ## Issues -/

/-- At most this many issues are recorded for a text. -/
def issueLimit : Nat := 32

/-- The start of a text that a message quotes: 40 characters of the first line, without blanks at the
ends. -/
def snippet (text : List Char) : String :=
  String.ofList (Text.trim (((Text.textLines text).headD []).take 40))

/-- What is said of a node that is an error or missing. -/
def NodeInfo.issueMessage (n : NodeInfo) (text : List Char) : String :=
  let quoted := if n.isError then snippet ((Text.slice? text n.start n.stop).getD []) else n.kind
  let mark := String.singleton (Char.ofNat 96)
  (if n.isError then "unexpected " else "missing ") ++ mark ++ quoted ++ mark

/-- The issue of a node that is an error or missing. -/
def NodeInfo.issue (n : NodeInfo) (text : List Char) (feeds : List Nat) : ParseIssue :=
  let (row, column) := rowAndColumn feeds n.start
  ⟨n.issueMessage text, row + 1, column⟩

/-- The outermost error and missing nodes of the trees that are left, in document order and at most
`limit` of them. Trees without an error inside are not entered. -/
def outermostIssues (limit : Nat) : List SyntaxTree → List NodeInfo
  | [] => []
  | t :: rest =>
    if limit = 0 then []
    else if t.info.isError || t.info.isMissing then t.info :: outermostIssues (limit - 1) rest
    else if t.info.hasError then outermostIssues limit (t.children ++ rest)
    else outermostIssues limit rest
termination_by ts => SyntaxTree.sizeAll ts
decreasing_by
  all_goals
    have := t.size_eq
    simp only [SyntaxTree.sizeAll, SyntaxTree.sizeAll_append]
    omega

/-- The issues of a tree over a text. -/
def collectIssues (t : SyntaxTree) (text : String) : List ParseIssue :=
  let cs := text.toList
  let feeds := lineFeeds 0 cs
  (outermostIssues issueLimit [t]).map fun n => n.issue cs feeds

/-! ## Units -/

/-- The first grammar that accepts a text, with its tree. -/
def Grammars.accepting? (g : Grammars) (text : String) : Option (Grammar × SyntaxTree) :=
  Grammar.order.findSome? fun grammar =>
    let t := g grammar text
    if t.info.hasError then none else some (grammar, t)

/-- The issue recorded where a refused text shows none. -/
def noTreeIssue : ParseIssue := ⟨"parser returned no tree", 1, 0⟩

/-- The issues of a text that all grammars refuse, at least one. -/
def Grammars.issues (g : Grammars) (text : String) : List ParseIssue :=
  match collectIssues (g .javascript text) text with
  | [] => [noTreeIssue]
  | issues => issues

/-- The unit of a text that all grammars refuse, with at most `limit` bytes of the text. -/
def recoveryUnit (limit : Nat) (file key text : String) (issues : List ParseIssue) : ParsedUnit :=
  let kept := String.ofList (Text.takeBytes text.toList limit)
  let last := issues.getLastD noTreeIssue
  { file := file
    key := key
    grammar := none
    source := kept
    nodes := #[]
    errors := issues
    recovery := some ⟨last.message, last.line, last.column, kept.utf8ByteSize,
      decide (kept.utf8ByteSize < text.utf8ByteSize)⟩ }

/-- Parses a text; of one that all grammars refuse, at most `limit` bytes are kept. -/
def parseText (g : Grammars) (limit : Nat) (file key text : String) : ParsedUnit :=
  match g.accepting? text with
  | some (grammar, t) => ⟨file, key, some grammar, text, t.arena text, [], none⟩
  | none => recoveryUnit limit file key text (g.issues text)

end TreeRepair
