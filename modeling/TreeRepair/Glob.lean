import TreeRepair.Text.Lines

/-!
Glob patterns over whole paths: `?`, `*`, `**` between separators, character classes, nested groups
of alternatives and backslash escapes. A pattern is read into tokens; a token moves the set of
positions reached so far in the bytes of a path, and a pattern matches when it reaches the end.
`*`, `?` and classes may match a separator, and `?` and a class match one byte. The `..` at the end of
a path counts as no name.
-/
namespace TreeRepair

/-! ## Patterns -/

/-- A piece of a pattern. -/
inductive Glob.Token where
  /-- The character itself. -/
  | literal (c : Char)
  /-- One byte. -/
  | any
  /-- Any bytes. -/
  | anyRun
  /-- Nothing, or any bytes up to a separator. -/
  | leadingDirs
  /-- A separator and any bytes. -/
  | trailingRun
  /-- A separator, or two with any bytes in between. -/
  | innerDirs
  /-- One byte in, or if negated outside, the UTF-8 bytes of the ranges. -/
  | byteClass (negated : Bool) (ranges : List (Char × Char))
  /-- One of several token lists; those that stand for nothing are left out. -/
  | alternatives (branches : List (List Glob.Token))

/-- A pattern that has been read. -/
structure Glob where
  tokens : List Glob.Token

namespace Glob

/-- Why a text is no pattern. -/
inductive Fault where
  | unclosedClass
  | invalidRange (low high : Char)
  | unopenedGroup
  | unclosedGroup
  | danglingEscape
  deriving DecidableEq, Repr

/-- The wording of a fault. -/
def Fault.message : Fault → String
  | .unclosedClass => "unclosed character class; missing ']'"
  | .invalidRange low high => s!"invalid range; '{low}' > '{high}'"
  | .unopenedGroup => "unopened alternate group; missing '\x7b' (maybe escape '\x7d' with '[\x7d]'?)"
  | .unclosedGroup => "unclosed alternate group; missing '\x7d' (maybe escape '\x7b' with '[\x7b]'?)"
  | .danglingEscape => "dangling '\\'"

/-- A text that is no pattern, and why. -/
structure Error where
  pattern : String
  fault : Fault
  deriving DecidableEq, Repr

/-- The wording of an error. -/
def Error.message (e : Error) : String :=
  s!"error parsing glob '{e.pattern}': {e.fault.message}"

/-! ## Reading -/

/-- A character class that is being read, its ranges last first. -/
structure ClassReader where
  /-- A `!` or `^` would negate the class. -/
  fresh : Bool
  negated : Bool
  /-- No member has been read, so that `]` and `-` stand for themselves. -/
  first : Bool
  /-- A `-` has been read behind the last member. -/
  inRange : Bool
  ranges : List (Char × Char)

/-- A group of alternatives that is being read: the branches closed so far, last first, and the
tokens, last first, of what the group stands in. -/
structure OpenGroup where
  closed : List (List Token)
  outer : List Token

/-- A pattern that is being read, its current tokens last first. -/
structure Reader where
  current : List Token
  groups : List OpenGroup
  openClass : Option ClassReader
  /-- The last character consumed. -/
  previous : Option Char
  /-- How many of the next characters belong to a token that has been added already. -/
  skip : Nat

/-- Adds a token. -/
def Reader.push (r : Reader) (t : Token) : Reader := { r with current := t :: r.current }

/-- The class behind one more of its characters other than the closing bracket. -/
def ClassReader.add (k : ClassReader) (c : Char) : Except Fault ClassReader :=
  if k.fresh && (c == '!' || c == '^') then .ok { k with fresh := false, negated := true }
  else if c == '-' && !k.first && !k.inRange then .ok { k with fresh := false, inRange := true }
  else if k.inRange && !k.first then
    match k.ranges with
    | (low, _) :: rest =>
      if c < low then .error (.invalidRange low c)
      else .ok { k with fresh := false, inRange := false, ranges := (low, c) :: rest }
    | [] => .ok { k with fresh := false, inRange := false, ranges := [(c, c)] }
  else .ok { k with fresh := false, first := false, ranges := (c, c) :: k.ranges }

/-- The token of a class whose closing bracket has been read. -/
def ClassReader.token (k : ClassReader) : Token :=
  .byteClass k.negated (if k.inRange then k.ranges.reverse ++ [('-', '-')] else k.ranges.reverse)

/-- The reader at the first star of `**`, where `next` is the character behind both; a separator
there belongs to the token. A double star that is not a whole path segment counts as two stars. -/
def Reader.doubleStar (r : Reader) (next : Option Char) : Reader :=
  let twoStars : Reader := { (r.push .anyRun).push .anyRun with skip := 1 }
  let atSlash := next == some '/'
  let taken := if atSlash then 2 else 1
  if r.current.isEmpty then
    if next.isNone || atSlash then { r.push .leadingDirs with skip := taken } else twoStars
  else
    let startsBranch := !r.groups.isEmpty && (r.previous == some ',' || r.previous == some '\x7b')
    if r.previous != some '/' && !startsBranch then twoStars
    else
      let endsBranch := !r.groups.isEmpty && (next == some ',' || next == some '\x7d')
      if next.isNone || endsBranch || atSlash then
        let merged : Token :=
          match r.current.head? with
          | some .leadingDirs => .leadingDirs
          | some .trailingRun => .trailingRun
          | _ => if atSlash then .innerDirs else .trailingRun
        { r with current := merged :: r.current.tail, skip := taken }
      else twoStars

/-- The reader behind a closing brace. -/
def Reader.closeGroup (r : Reader) : Except Fault Reader :=
  match r.groups with
  | [] => .error .unopenedGroup
  | g :: rest =>
    .ok { r with
      current := .alternatives (g.closed.reverse ++ [r.current.reverse]) :: g.outer
      groups := rest }

/-- The reader behind a comma: inside a group it opens the next branch. -/
def Reader.comma (r : Reader) : Reader :=
  match r.groups with
  | [] => r.push (.literal ',')
  | g :: rest =>
    { r with current := [], groups := ⟨r.current.reverse :: g.closed, g.outer⟩ :: rest }

/-- The reader behind a character outside classes, where `rest` follows it. -/
def Reader.step (r : Reader) (c : Char) (rest : List Char) : Except Fault Reader :=
  if c = '?' then .ok (r.push .any)
  else if c = '*' then
    if rest.head? = some '*' then .ok (r.doubleStar rest.tail.head?) else .ok (r.push .anyRun)
  else if c = '[' then .ok { r with openClass := some ⟨true, false, true, false, []⟩ }
  else if c = '\x7b' then .ok { r with current := [], groups := ⟨[], r.current⟩ :: r.groups }
  else if c = '\x7d' then r.closeGroup
  else if c = ',' then .ok r.comma
  else if c = '\\' then
    match rest.head? with
    | none => .error .danglingEscape
    | some d => .ok { r.push (.literal d) with skip := 1 }
  else .ok (r.push (.literal c))

/-- The reader behind a character inside a class. -/
def Reader.stepClass (r : Reader) (k : ClassReader) (c : Char) : Except Fault Reader :=
  if c = ']' ∧ ¬ k.first then .ok { r.push k.token with openClass := none }
  else (k.add c).map fun k => { r with openClass := some k }

/-- Reads the rest of a pattern. -/
def Reader.read : Reader → List Char → Except Fault (List Token)
  | r, [] =>
    if r.openClass.isSome then .error .unclosedClass
    else if r.groups.isEmpty then .ok r.current.reverse
    else .error .unclosedGroup
  | r, c :: cs =>
    if r.skip ≠ 0 then Reader.read { r with skip := r.skip - 1, previous := some c } cs
    else
      match (match r.openClass with | some k => r.stepClass k c | none => r.step c cs) with
      | .error fault => .error fault
      | .ok r => Reader.read { r with previous := some c } cs

/-- Reads a pattern. -/
def parse (pattern : String) : Except Error Glob :=
  match Reader.read ⟨[], [], none, none, 0⟩ pattern.toList with
  | .ok tokens => .ok ⟨tokens⟩
  | .error fault => .error ⟨pattern, fault⟩

/-! ## Matching -/

/-- For each position of a path, from the start to the end, whether it has been reached. -/
abbrev Reached := List Bool

/-- Moves over one byte that satisfies `p`. -/
def stepWhere (p : UInt8 → Bool) (path : List UInt8) (s : Reached) : Reached :=
  false :: List.zipWith (fun b live => live && p b) path s

/-- Moves over any number of bytes; `seen` tells whether an earlier position has been reached. -/
def spread : Bool → Reached → Reached
  | _, [] => []
  | seen, live :: rest => (seen || live) :: spread (seen || live) rest

/-- The byte of the path separator. -/
def separator : UInt8 := 0x2f

/-- Stays, or moves over any bytes and a separator behind them. -/
def overDirs (path : List UInt8) (s : Reached) : Reached :=
  List.zipWith (· || ·) s (stepWhere (· == separator) path (spread false s))

/-- Whether a byte belongs to the UTF-8 bytes of class ranges, where a range runs from the last byte
of its low end to the first byte of its high end. -/
def inRanges (ranges : List (Char × Char)) (b : UInt8) : Bool :=
  ranges.any fun (low, high) =>
    let lowBytes := String.utf8EncodeChar low
    let highBytes := String.utf8EncodeChar high
    if low == high then lowBytes.contains b
    else lowBytes.contains b || highBytes.contains b
      || (lowBytes.getLastD 0 ≤ b && b ≤ highBytes.headD 0)

mutual

/-- Whether a token stands for nothing at all, as a group without a branch of its own does. -/
def Token.isVoid : Token → Bool
  | .alternatives branches => allVoid branches
  | _ => false

/-- Whether every token stands for nothing. -/
def isVoidBranch : List Token → Bool
  | [] => true
  | t :: ts => t.isVoid && isVoidBranch ts

/-- Whether every branch stands for nothing. -/
def allVoid : List (List Token) → Bool
  | [] => true
  | b :: bs => isVoidBranch b && allVoid bs

end

mutual

/-- The positions reached behind a token. -/
def Token.run (path : List UInt8) : Token → Reached → Reached
  | .literal c, s => (String.utf8EncodeChar c).foldl (fun s b => stepWhere (· == b) path s) s
  | .any, s => stepWhere (fun _ => true) path s
  | .anyRun, s => spread false s
  | .leadingDirs, s => overDirs path s
  | .trailingRun, s => spread false (stepWhere (· == separator) path s)
  | .innerDirs, s => overDirs path (stepWhere (· == separator) path s)
  | .byteClass negated ranges, s => stepWhere (fun b => inRanges ranges b != negated) path s
  | .alternatives branches, s => if allVoid branches then s else runAny path branches s

/-- The positions reached behind a list of tokens. -/
def runAll (path : List UInt8) : List Token → Reached → Reached
  | [], s => s
  | t :: ts, s => runAll path ts (t.run path s)

/-- The positions reached behind one of several branches that stand for something. -/
def runAny (path : List UInt8) : List (List Token) → Reached → Reached
  | [], s => s.map fun _ => false
  | b :: bs, s =>
    if isVoidBranch b then runAny path bs s
    else List.zipWith (· || ·) (runAll path b s) (runAny path bs s)

end

/-- Whether tokens match all bytes of a path. -/
def covers (tokens : List Token) (path : String) : Bool :=
  let bytes := path.toUTF8.data.toList
  (runAll bytes tokens (true :: bytes.map fun _ => false)).getLastD false

/-! ## Names

A pattern that ends in a dot asks for the end of a name, unless it is a plain text or the plain ending
of paths. The `..` at the end of a path is not a name.
-/

/-- Whether a token is a character. -/
def Token.isLiteral : Token → Bool
  | .literal _ => true
  | _ => false

/-- Whether a token is the separator. -/
def Token.isSeparator : Token → Bool
  | .literal c => c == '/'
  | _ => false

/-- Whether tokens end in a dot. -/
def endsInDot (tokens : List Token) : Bool :=
  match tokens.getLast? with
  | some (.literal c) => c == '.'
  | _ => false

/-- Whether tokens, those for leading directories left out, are a text, or any run and a text of more
than one character. A text behind leading directories is a name if it has no separator. -/
def isPlainEnding : List Token → Bool
  | .leadingDirs :: .anyRun :: text | .anyRun :: text => text.all Token.isLiteral && 1 < text.length
  | .leadingDirs :: text => text.all Token.isLiteral && text.any Token.isSeparator
  | text => text.all Token.isLiteral

/-- Whether tokens ask for the end of a name. -/
def asksForName (tokens : List Token) : Bool := endsInDot tokens && !isPlainEnding tokens

/-- Whether a path ends in `..`. -/
def endsAbove (path : String) : Bool := (Text.splitString '/' path).getLast? == some ".."

/-- Whether the pattern matches a whole path; `**` alone matches every path. -/
def isMatch (g : Glob) (path : String) : Bool :=
  match g.tokens with
  | [.leadingDirs] => true
  | tokens => covers tokens path && !(asksForName tokens && endsAbove path)

end Glob

end TreeRepair
