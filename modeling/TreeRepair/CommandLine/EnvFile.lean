import TreeRepair.FileTree.Access
import TreeRepair.Text.Alphanumeric

/-!
Files of environment variables. Such a file holds assignments `NAME=value`, one on each line unless a
quoted value goes on; `export` may stand in front, and `#` opens a comment. Values may be quoted and may
mention variables. A file is read up to the first line that is none of this; a value that no variable
can have spoils the whole.
-/
namespace TreeRepair.CommandLine

open Text

/-- Variables with their values, the first of a name counts. -/
abbrev Variables := List (String × String)

namespace EnvFile

/-! ## Lines -/

/-- Where a logical line stands between two characters. -/
inductive LineState where
  | complete
  | blank
  | escaped
  | quoted (quote : Char)
  | quotedEscape (quote : Char)
  | comment
  deriving DecidableEq, Repr

/-- The state behind a character. -/
def LineState.step (s : LineState) (c : Char) : LineState :=
  let opening : LineState := if c = '\\' then .escaped else if c = '"' ∨ c = '\'' then .quoted c else .complete
  match s with
  | .blank => if c = '#' then .comment else opening
  | .complete => if isBlank c && c != '\n' && c != '\r' then .blank else opening
  | .escaped => .complete
  | .quoted q => if c = '\\' then .quotedEscape q else if c = q then .complete else .quoted q
  | .quotedEscape q => .quoted q
  | .comment => .comment

/-- The state behind a line, and the part of the line in front of a comment. -/
def scan : LineState → List Char → LineState × List Char
  | s, [] => (s, [])
  | s, c :: cs =>
    match s.step c with
    | .comment => (.comment, [])
    | next =>
      let (final, kept) := scan next cs
      (final, c :: kept)

/-- Pieces between separators with the separators at their ends; an empty last piece does not count. -/
def closedPieces {α : Type} [DecidableEq α] (sep : α) : List (List α) → List (List α)
  | [] => []
  | [l] => if l = [] then [] else [l]
  | l :: m :: ls => (l ++ [sep]) :: closedPieces sep (m :: ls)

/-- A line without a line feed at its end and a carriage return before that. -/
def chomp (line : List Char) : List Char :=
  match line.reverse with
  | '\n' :: '\r' :: rest => rest.reverse
  | '\n' :: rest => rest.reverse
  | _ => line

/-- The logical lines of a text. Of the first one `front` has been read so far, last character first;
it does not open with a comment, since a comment ends its line. The last one is nothing if the text ends
inside it. -/
def logicalLines : LineState → List Char → List (List Char) → List (Option (List Char))
  | .complete, [], [] => []
  | _, _, [] => [none]
  | s, front, line :: rest =>
    if front.isEmpty && (trimStart line).head? = some '#' then some [] :: logicalLines .complete [] rest
    else
      match scan s line with
      | (.complete, _) => some (chomp (front.reverseAux line)) :: logicalLines .complete [] rest
      | (.comment, kept) => some (front.reverseAux kept) :: logicalLines .complete [] rest
      | (next, _) => logicalLines next (line.reverseAux front) rest

/-! ## Values -/

/-- How a value is being read. -/
inductive ValueMode where
  | plain
  | strong
  | weak
  deriving DecidableEq, Repr

/-- The name of a variable that is being mentioned, last character first. -/
inductive Mention where
  | none
  | bare (name : List Char)
  | braced (name : List Char)

/-- A value between two characters. -/
structure ValueReader where
  mode : ValueMode
  mention : Mention
  escaped : Bool
  /-- Only a comment may follow. -/
  ended : Bool
  /-- The value so far, last character first. -/
  out : List Char

/-- The reader behind the characters that a mention stands for. -/
def ValueReader.mentioned (lookup : String → String) (r : ValueReader) (name : List Char) : ValueReader :=
  { r with mention := .none, out := (lookup (String.ofList name.reverse)).toList.reverseAux r.out }

/-- The reader behind one character more of the value. -/
def ValueReader.push (r : ValueReader) (c : Char) : ValueReader := { r with out := c :: r.out }

/-- The reader behind an escaped character, if that can be escaped. -/
def ValueReader.unescape (r : ValueReader) (c : Char) : Option ValueReader :=
  let done : ValueReader := { r with escaped := false }
  if c = '\\' ∨ c = '\'' ∨ c = '"' ∨ c = '$' ∨ c = ' ' then some (done.push c)
  else if c = 'n' then some (done.push '\n')
  else none

/-- The reader behind a character of a mention. -/
def ValueReader.stepMention (lookup : String → String) (r : ValueReader) (c : Char) : ValueReader :=
  match r.mention with
  | .none => r
  | .bare name =>
    if isAlphanumeric c then { r with mention := .bare (c :: name) }
    else if c = '\x7b' ∧ name = [] then { r with mention := .braced [] }
    else
      let done := r.mentioned lookup name
      if c = '$' then { done with mention := .bare [] } else done.push c
  | .braced name =>
    if !isAlphanumeric c && c == '\x7d' then r.mentioned lookup name
    else { r with mention := .braced (c :: name) }

/-- The reader behind a character outside mentions and escapes. -/
def ValueReader.stepText (r : ValueReader) (c : Char) : ValueReader :=
  if c = '$' then { r with mention := .bare [] }
  else if r.mode = .weak then
    if c = '"' then { r with mode := .plain }
    else if c = '\\' then { r with escaped := true }
    else r.push c
  else if c = '\'' then { r with mode := .strong }
  else if c = '"' then { r with mode := .weak }
  else if c = '\\' then { r with escaped := true }
  else if c = ' ' ∨ c = '\t' then { r with ended := true }
  else r.push c

/-- The reader behind a character, if that can stand there. -/
def ValueReader.step (lookup : String → String) (r : ValueReader) (c : Char) : Option ValueReader :=
  if r.escaped then r.unescape c
  else if r.mode = .strong then some (if c = '\'' then { r with mode := .plain } else r.push c)
  else
    match r.mention with
    | .none => some (r.stepText c)
    | _ => some (r.stepMention lookup c)

/-- Reads the rest of a value. -/
def readValue (lookup : String → String) : ValueReader → List Char → Option String
  | r, [] =>
    if r.mode = .plain then
      match r.mention with
      | .none => some (String.ofList r.out.reverse)
      | .bare name => some (String.ofList (r.mentioned lookup name).out.reverse)
      | .braced _ => none
    else none
  | r, c :: cs =>
    if r.ended then
      if c = ' ' ∨ c = '\t' then readValue lookup r cs
      else if c = '#' then readValue lookup r []
      else none
    else
      match r.step lookup c with
      | none => none
      | some next => readValue lookup next cs

/-! ## Assignments -/

/-- Whether a name may begin with a character. -/
def isNameStart (c : Char) : Bool := c.isAlpha || c == '_'

/-- Whether a name may hold a character. -/
def isNameCharacter (c : Char) : Bool := c.isAlphanum || c == '_' || c == '.'

/-- The name at the front of a text. -/
def name? (cs : List Char) : Option (String × List Char) :=
  match cs with
  | c :: _ =>
    if isNameStart c then
      some (String.ofList (cs.takeWhile isNameCharacter), trimStart (cs.dropWhile isNameCharacter))
    else none
  | [] => none

/-- What follows an equals sign. -/
def afterEquals? : List Char → Option (List Char)
  | '=' :: rest => some (trimStart rest)
  | _ => none

/-- The name that is assigned to at the front of a line, and the text of its value. -/
def assignment? (cs : List Char) : Option (String × List Char) := do
  let (name, rest) ← name? cs
  match afterEquals? rest with
  | some value => return (name, value)
  | none =>
    if name = "export" then
      let (name, rest) ← name? rest
      return (name, ← afterEquals? rest)
    else none

/-- What a line says. -/
inductive Line where
  | nothing
  | assigns (name value : String)
  | malformed

/-- Reads a logical line. -/
def readLine (lookup : String → String) (line : List Char) : Line :=
  let cs := trimStart (trimEnd line)
  if cs = [] ∨ cs.head? = some '#' then .nothing
  else
    match assignment? cs with
    | none => .malformed
    | some (name, value) =>
      if value = [] ∨ value.head? = some '#' then .assigns name ""
      else
        match readValue lookup ⟨.plain, .none, false, false, []⟩ value with
        | none => .malformed
        | some text => .assigns name text

/-- Whether a variable can have a value: the character with number zero would end it. -/
def isPossible (value : String) : Bool := value.toList.all (·.toNat != 0)

/-- Variables with one more set; nothing if it cannot have the value. One that is set keeps its value. -/
def setVariable (name value : String) (set : Variables) : Option Variables :=
  if (set.lookup name).isSome then some set
  else if isPossible value then some (set ++ [(name, value)])
  else none

/-- Variables with the assignments of lines, up to one that is malformed; nothing if one cannot be
carried out. `own` holds what the file has assigned so far, latest first. -/
def assign : List (Option (List Char)) → Variables → Variables → Option Variables
  | [], _, set => some set
  | none :: _, _, set => some set
  | some line :: rest, own, set =>
    let lookup (name : String) : String := ((set.lookup name).or (own.lookup name)).getD ""
    match readLine lookup line with
    | .malformed => some set
    | .nothing => assign rest own set
    | .assigns name value =>
      match setVariable name value set with
      | none => none
      | some set => assign rest ((name, value) :: own) set

/-- The texts of byte lines up to the first that is not in UTF-8. -/
def textsBefore : List (List UInt8) → List (List Char)
  | [] => []
  | line :: rest =>
    match String.fromUTF8? line.toByteArray with
    | none => []
    | some text => text.toList :: textsBefore rest

/-- A text without a byte order mark. -/
def dropOrderMark : List (List Char) → List (List Char)
  | (c :: cs) :: rest => if c.toNat = 0xfeff then cs :: rest else (c :: cs) :: rest
  | lines => lines

/-- Variables with the assignments of a file's content; nothing if one cannot be carried out. -/
def load (content : ByteArray) (set : Variables) : Option Variables :=
  let lines := dropOrderMark (textsBefore (closedPieces 10 (cutAt 10 content.data.toList)))
  assign (logicalLines .complete [] lines) [] set

/-! ## Finding the file -/

/-- The name of the file. -/
def fileName : String := ".env"

/-- The content of the file in a directory or the nearest one above that has it; the names of the
directory are given innermost first. -/
def findUp? (files : Listing) : List String → Option ByteArray
  | [] => (files.read [fileName]).toOption
  | name :: above =>
    match files.read ((name :: above).reverse ++ [fileName]) with
    | .ok content => some content
    | .error _ => findUp? files above

/-- Variables with the assignments of the file found from a directory; nothing if one cannot be carried
out. -/
def apply (files : Listing) (here : List String) (set : Variables) : Option Variables :=
  match findUp? files here.reverse with
  | none => some set
  | some content => load content set

end EnvFile

end TreeRepair.CommandLine
