import TreeRepair.Digest.Hex
import TreeRepair.Glob.Machine

/-!
Sets of patterns. Most patterns are compared with a path as plain texts; each of the others has an
expression that a machine is made from. A pattern that ends in an extension has a machine of its own,
the rest share one. Expressions may not nest deeper than `depthLimit`, and the states of a machine may
not take more than `sizeLimit` bytes, so that not every list of patterns makes a set.
-/
namespace TreeRepair.Glob

/-! ## Expressions -/

/-- The signs that have a meaning in an expression. -/
def expressionSigns : List Char :=
  ['\\', '.', '+', '*', '?', '(', ')', '|', '[', ']', '\x7b', '\x7d', '^', '$', '#', '&', '-', '~']

/-- A character in an expression: a sign behind a backslash, and the bytes of one outside ASCII. -/
def quoteCharacter (c : Char) : List Char :=
  if c.toNat < 128 then (if expressionSigns.contains c then ['\\', c] else [c])
  else (String.utf8EncodeChar c).flatMap fun b => ['\\', 'x'] ++ Digest.hexByte b

/-- The ranges of a class in an expression. -/
def quoteRange (r : Char × Char) : List Char :=
  if r.1 == r.2 then quoteCharacter r.1 else quoteCharacter r.1 ++ '-' :: quoteCharacter r.2

mutual

/-- The expression of a token. -/
def Token.expression : Token → List Char
  | .literal c => quoteCharacter c
  | .any => ['.']
  | .anyRun => ['.', '*']
  | .leadingDirs => "(?:/?|.*/)".toList
  | .trailingRun => "/.*".toList
  | .innerDirs => "(?:/|/.*/)".toList
  | .byteClass negated ranges =>
    '[' :: ((if negated then ['^'] else []) ++ ranges.flatMap quoteRange ++ [']'])
  | .alternatives branches =>
    if allVoid branches then [] else "(?:".toList ++ branchesExpression branches ++ [')']

/-- The expression of a list of tokens. -/
def tokensExpression : List Token → List Char
  | [] => []
  | t :: ts => t.expression ++ tokensExpression ts

/-- The expressions of the branches that stand for something, with bars in between. -/
def branchesExpression : List (List Token) → List Char
  | [] => []
  | b :: bs =>
    if isVoidBranch b then branchesExpression bs
    else if allVoid bs then tokensExpression b
    else tokensExpression b ++ '|' :: branchesExpression bs

end

/-- The expression of a pattern. -/
def expression (g : Glob) : String := "(?-u)^" ++ String.ofList (tokensExpression g.tokens) ++ "$"

/-! ## Nesting -/

/-- The deepest nesting of an expression. -/
def depthLimit : Nat := 250

/-- How many bytes and ranges of bytes a class lists. -/
def listedItems (ranges : List (Char × Char)) : Nat :=
  ranges.foldl (fun n (low, high) =>
    if low == high then n + low.utf8Size else n + (low.utf8Size + high.utf8Size - 1)) 0

/-- The number of parts of an expression that a token adds to the list it stands in. -/
def Token.parts : Token → Nat
  | .literal c => c.utf8Size
  | .trailingRun => 2
  | .alternatives branches => if allVoid branches then 0 else 1
  | _ => 1

/-- The number of parts of a list of tokens. -/
def countParts (tokens : List Token) : Nat := tokens.foldl (fun n t => n + t.parts) 0

/-- The number of branches that stand for something. -/
def countBranches (branches : List (List Token)) : Nat :=
  branches.foldl (fun n b => if isVoidBranch b then n else n + 1) 0

mutual

/-- How deep the expression of a token is nested: a repetition, a class, a list of several items in a
class, a group, a choice and a list of several parts are a level each. -/
def Token.depth : Token → Nat
  | .literal _ | .any => 0
  | .anyRun | .trailingRun => 1
  | .leadingDirs | .innerDirs => 4
  | .byteClass _ ranges => if listedItems ranges = 1 then 1 else 2
  | .alternatives branches =>
    if allVoid branches then 0
    else (if countBranches branches = 1 then 1 else 2) + branchesDepth branches

/-- The deepest nesting in a list of tokens. -/
def tokensDepth : List Token → Nat
  | [] => 0
  | t :: ts => max t.depth (tokensDepth ts)

/-- The deepest nesting in branches. -/
def branchesDepth : List (List Token) → Nat
  | [] => 0
  | b :: bs =>
    if isVoidBranch b then branchesDepth bs
    else max ((if countParts b = 1 then 0 else 1) + tokensDepth b) (branchesDepth bs)

end

/-- How deep the expression of a pattern is nested. -/
def depth (g : Glob) : Nat := 1 + tokensDepth g.tokens

/-! ## Sets -/

/-- Why there is no machine for patterns. -/
inductive Excess where
  /-- The expression of the pattern with a number nests too deep. -/
  | depth (index : Nat)
  | size
  deriving DecidableEq, Repr

/-- The wording of an excess. -/
def Excess.message : Excess → String
  | .depth index => s!"error parsing pattern {index}"
  | .size => "error building NFA"

/-- The excess of a machine for several patterns. -/
def excess? (globs : List Glob) : Option Excess :=
  match globs.findIdx? fun g => depthLimit < g.depth with
  | some index => some (.depth index)
  | none => if isTooLarge globs then some .size else none

/-- Whether a pattern is compared with paths without a machine: a text, the start of paths before any
run, or their ending behind one or behind leading directories. -/
def isPlain : List Token → Bool
  | .leadingDirs :: .anyRun :: text | .anyRun :: text =>
    text.all Token.isLiteral && !text.isEmpty && !(text.length == 1 && text.all Token.isSeparator)
  | .leadingDirs :: text => text.all Token.isLiteral && !text.isEmpty
  | tokens =>
    match tokens.getLast? with
    | none => false
    | some .anyRun => tokens.dropLast.all Token.isLiteral && !tokens.dropLast.isEmpty
    | some .trailingRun => tokens.dropLast.all Token.isLiteral
    | some _ => tokens.all Token.isLiteral

/-- Whether tokens, given last first, end in a dot and characters other than separators behind it. -/
def hasExtension : List Token → Bool
  | .literal c :: before => c == '.' || (c != '/' && hasExtension before)
  | _ => false

/-- Why texts make no set of patterns. -/
inductive SetError where
  | malformed (e : Error)
  /-- A pattern with a machine of its own has none. -/
  | extension (expression : String) (excess : Excess)
  | shared (excess : Excess)
  deriving DecidableEq, Repr

/-- The wording of an error. -/
def SetError.message : SetError → String
  | .malformed e => e.message
  | .extension expression excess => s!"error parsing glob '{expression}': {excess.message}"
  | .shared excess => excess.message

/-- Why patterns make no set. -/
def setError? (globs : List Glob) : Option SetError :=
  let machined := globs.filter fun g => !isPlain g.tokens
  let (single, shared) := machined.partition fun g => hasExtension g.tokens.reverse
  match single.findSome? fun g => (excess? [g]).map (SetError.extension g.expression) with
  | some e => some e
  | none => if shared.isEmpty then none else (excess? shared).map .shared

/-- Reads a set of patterns. -/
def parseSet (patterns : List String) : Except SetError (List Glob) :=
  match patterns.mapM parse with
  | .error e => .error (.malformed e)
  | .ok globs =>
    match setError? globs with
    | some e => .error e
    | none => .ok globs

end TreeRepair.Glob
