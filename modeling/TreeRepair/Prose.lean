import TreeRepair.Text.Alphanumeric
import TreeRepair.Text.Lines
import TreeRepair.Text.Utf8

/-!
Lines of English prose at module scope. `Scanner` runs over a source text and knows at each line
start whether it stands in plain code, outside every bracket; `readsLikeProse` recognises a sentence;
`strayLines` lists the lines that satisfy both.
-/
namespace TreeRepair.Prose

open TreeRepair.Text

/-! ## The scanner -/

/-- The mark around template literals. -/
def backtick : Char := Char.ofNat 96

/-- What the next character belongs to. -/
inductive Mode where
  | code
  | lineComment
  | blockComment
  | quoted (quote : Char)
  | template
  deriving DecidableEq, Repr

/-- The mode, the number of open brackets, and for each open template substitution, innermost first,
the number of brackets open at its start. -/
structure Scanner where
  mode : Mode
  depth : Nat
  substitutions : List Nat
  deriving DecidableEq, Repr

/-- The scanner at the start of a text. -/
def Scanner.start : Scanner := ⟨.code, 0, []⟩

/-- Whether a line that begins here begins in plain code outside every bracket. -/
def Scanner.atModuleScope (s : Scanner) : Bool := s.mode == .code && s.depth == 0

/-- The scanner behind a character, and whether the character after it is consumed as well. -/
def Scanner.step (s : Scanner) (c : Char) (next : Option Char) : Scanner × Bool :=
  match s.mode with
  | .code =>
    if c = '/' ∧ next = some '/' then (⟨.lineComment, s.depth, s.substitutions⟩, true)
    else if c = '/' ∧ next = some '*' then (⟨.blockComment, s.depth, s.substitutions⟩, true)
    else if c = '\'' ∨ c = '"' then (⟨.quoted c, s.depth, s.substitutions⟩, false)
    else if c = backtick then (⟨.template, s.depth, s.substitutions⟩, false)
    else if c = '{' ∨ c = '(' ∨ c = '[' then (⟨.code, s.depth + 1, s.substitutions⟩, false)
    else if c = '}' ∧ s.substitutions.head? = some s.depth then
      (⟨.template, s.depth, s.substitutions.tail⟩, false)
    else if c = '}' ∨ c = ')' ∨ c = ']' then (⟨.code, s.depth - 1, s.substitutions⟩, false)
    else (s, false)
  | .lineComment =>
    if c = '\n' then (⟨.code, s.depth, s.substitutions⟩, false) else (s, false)
  | .blockComment =>
    if c = '*' ∧ next = some '/' then (⟨.code, s.depth, s.substitutions⟩, true) else (s, false)
  | .quoted quote =>
    if c = '\\' then (s, true)
    else if c = quote ∨ c = '\n' then (⟨.code, s.depth, s.substitutions⟩, false)
    else (s, false)
  | .template =>
    if c = '\\' then (s, true)
    else if c = backtick then (⟨.code, s.depth, s.substitutions⟩, false)
    else if c = '$' ∧ next = some '{' then
      (⟨.code, s.depth, s.depth :: s.substitutions⟩, true)
    else (s, false)

/-- One entry for each line feed among consumed characters: whether the line behind it begins at
module scope, by the scanner after the characters. -/
def Scanner.marks (s : Scanner) (consumed : List Char) : List Bool :=
  (consumed.filter (· == '\n')).map fun _ => s.atModuleScope

/-- For each line feed of the text, in order, whether the line behind it begins at module scope. -/
def Scanner.lineStarts : Scanner → List Char → List Bool
  | _, [] => []
  | s, c :: cs =>
    match s.step c cs.head? with
    | (t, false) => t.marks [c] ++ t.lineStarts cs
    | (t, true) =>
      match cs with
      | [] => t.marks [c]
      | d :: ds => t.marks [c, d] ++ t.lineStarts ds

/-- For each line of the text, whether it begins at module scope; the first one does. -/
def moduleScopeLineStarts (source : List Char) : List Bool :=
  true :: Scanner.start.lineStarts source

/-! ## Sentences -/

/-- The marks that may end a sentence. -/
def isSentenceEnd (c : Char) : Bool := c == '.' || c == '!' || c == '?' || c == ':'

/-- A line without its trailing sentence marks. -/
def dropSentenceEnd (line : List Char) : List Char :=
  (line.reverse.dropWhile isSentenceEnd).reverse

/-- The characters of a word: letters, digits, apostrophe, comma and hyphen. -/
def isWordCharacter (c : Char) : Bool :=
  isAlphanumeric c || c == '\'' || c == ',' || c == '-'

/-- Whether a word begins with an ASCII capital. -/
def isCapitalized : List Char → Bool
  | [] => false
  | c :: _ => 'A' ≤ c && c ≤ 'Z'

/-- Three or more words, the first one capitalized, of nothing but word characters. -/
def readsLikeProse (line : List Char) : Bool :=
  match words (dropSentenceEnd line) with
  | w :: x :: y :: rest =>
    isCapitalized w && (w :: x :: y :: rest).all fun word => word.all isWordCharacter
  | _ => false

/-! ## Stray lines -/

/-- A line of prose: its number from one on, and the byte range of its text without blanks around. -/
structure StrayLine where
  line : Nat
  start : Nat
  stop : Nat
  text : String
  deriving DecidableEq, Repr

/-- The prose among lines that are given with their scopes; `line` is the number of the first line
and `offset` its byte offset. -/
def strayAmong : Nat → Nat → List Bool → List (List Char) → List StrayLine
  | _, _, _, [] => []
  | line, offset, scopes, raw :: rest =>
    let next := strayAmong (line + 1) (offset + byteLength raw + 1) scopes.tail rest
    let text := trim raw
    if scopes.headD false && readsLikeProse text then
      let start := offset + (byteLength raw - byteLength (trimStart raw))
      ⟨line, start, start + byteLength text, String.ofList text⟩ :: next
    else next

/-- The lines of prose at module scope, in order. -/
def strayLines (source : String) : List StrayLine :=
  strayAmong 1 0 (moduleScopeLineStarts source.toList) (splitLines source.toList)

end TreeRepair.Prose
