/-!
Syntax trees as a grammar gives them for a text. Three grammars are tried in a fixed order; a grammar
answers every text with a tree, which may hold errors.
-/
namespace TreeRepair

/-- The grammars, each of which reads source texts. -/
inductive Grammar where
  | tsx
  | typescript
  | javascript
  deriving DecidableEq, Repr

namespace Grammar

/-- The order in which grammars are tried. -/
def order : List Grammar := [.tsx, .typescript, .javascript]

/-- The name of a grammar. -/
def name : Grammar → String
  | .tsx => "tsx"
  | .typescript => "typescript"
  | .javascript => "javascript"

end Grammar

/-- What a tree says about one of its nodes. -/
structure NodeInfo where
  kind : String
  /-- Not an anonymous token such as a bracket. -/
  named : Bool
  /-- Text that fits nowhere. -/
  isError : Bool
  /-- A node that the grammar asks for and the text lacks. -/
  isMissing : Bool
  /-- The node or one below it is an error or missing. -/
  hasError : Bool
  /-- The role of the node in its parent. -/
  field : Option String
  /-- The byte range of its text. -/
  start : Nat
  stop : Nat

/-- A syntax tree with children in source order. -/
inductive SyntaxTree where
  | node (info : NodeInfo) (children : List SyntaxTree)

namespace SyntaxTree

/-- What the tree says about its root. -/
def info : SyntaxTree → NodeInfo
  | .node info _ => info

/-- The trees below the root. -/
def children : SyntaxTree → List SyntaxTree
  | .node _ children => children

mutual

/-- The number of nodes. -/
def size : SyntaxTree → Nat
  | .node _ children => sizeAll children + 1

/-- The number of nodes of several trees. -/
def sizeAll : List SyntaxTree → Nat
  | [] => 0
  | t :: ts => t.size + sizeAll ts

end

/-- The number of nodes of several trees, one after another. -/
theorem sizeAll_append (ts us : List SyntaxTree) : sizeAll (ts ++ us) = sizeAll ts + sizeAll us := by
  induction ts with
  | nil => simp [sizeAll]
  | cons t ts ih => simp only [List.cons_append, sizeAll, ih]; omega

/-- A tree has one node more than the trees below its root. -/
theorem size_eq (t : SyntaxTree) : t.size = sizeAll t.children + 1 := by
  cases t with
  | node info children => rfl

end SyntaxTree

/-- What each grammar answers for each text. -/
abbrev Grammars := Grammar → String → SyntaxTree

end TreeRepair
