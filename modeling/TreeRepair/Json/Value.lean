import TreeRepair.Digest.Hex
import TreeRepair.Text.Decimal

/-!
JSON values and their two texts: `compact` on one line without blanks, `pretty` with two blanks of
indentation a level. Object members keep their order.
-/
namespace TreeRepair

/-- A JSON value. -/
inductive Json where
  | null
  | bool (b : Bool)
  /-- An integer from 0 to 2^64 - 1. -/
  | nat (n : Nat)
  /-- A quotient, written with six decimals. -/
  | ratio (numerator denominator : Nat)
  /-- Well-formed text that stands for nothing used here: any other number, or a string or an object
  with half of a surrogate pair in its text. -/
  | other
  | text (s : String)
  | array (items : List Json)
  | object (members : List (String × Json))

namespace Json

/-! ## Strings and numbers -/

/-- The written form of one character of a string. -/
def escape (c : Char) : List Char :=
  if c = '"' then ['\\', '"']
  else if c = '\\' then ['\\', '\\']
  else if c = '\n' then ['\\', 'n']
  else if c = '\r' then ['\\', 'r']
  else if c = '\t' then ['\\', 't']
  else if c.toNat = 8 then ['\\', 'b']
  else if c.toNat = 12 then ['\\', 'f']
  else if c.toNat < 32 then
    ['\\', 'u', '0', '0', Digest.hexDigit (c.toNat / 16), Digest.hexDigit (c.toNat % 16)]
  else [c]

/-- The written form of a string, in double quotes. -/
def quote (cs : List Char) : List Char := '"' :: (cs.flatMap escape ++ ['"'])

/-- A quotient with six decimals. -/
def ratioChars (numerator denominator : Nat) : List Char := Text.fixedPoint 6 numerator denominator

/-! ## Compact text -/

mutual

/-- The compact text of a value. -/
def compactChars : Json → List Char
  | .null => ['n', 'u', 'l', 'l']
  | .bool true => ['t', 'r', 'u', 'e']
  | .bool false => ['f', 'a', 'l', 's', 'e']
  | .nat n => Text.digits n
  | .ratio n d => ratioChars n d
  | .other => ['n', 'u', 'l', 'l']
  | .text s => quote s.toList
  | .array items => '[' :: (compactItems items ++ [']'])
  | .object members => '\x7b' :: (compactMembers members ++ ['\x7d'])

/-- The compact texts of values with commas in between. -/
def compactItems : List Json → List Char
  | [] => []
  | [v] => compactChars v
  | v :: rest => compactChars v ++ ',' :: compactItems rest

/-- The compact texts of members with commas in between. -/
def compactMembers : List (String × Json) → List Char
  | [] => []
  | [(k, v)] => quote k.toList ++ ':' :: compactChars v
  | (k, v) :: rest => quote k.toList ++ ':' :: (compactChars v ++ ',' :: compactMembers rest)

end

/-- The text of a value on one line. -/
def compact (v : Json) : String := String.ofList v.compactChars

/-! ## Indented text -/

/-- A new line at a level of indentation. -/
def newLine (level : Nat) : List Char := '\n' :: List.replicate (2 * level) ' '

mutual

/-- The indented text of a value at a level. -/
def prettyChars (level : Nat) : Json → List Char
  | .array [] => ['[', ']']
  | .array items => '[' :: (prettyItems (level + 1) items ++ newLine level ++ [']'])
  | .object [] => ['\x7b', '\x7d']
  | .object members => '\x7b' :: (prettyMembers (level + 1) members ++ newLine level ++ ['\x7d'])
  | .null => compactChars .null
  | .bool b => compactChars (.bool b)
  | .nat n => compactChars (.nat n)
  | .ratio n d => compactChars (.ratio n d)
  | .other => compactChars .other
  | .text s => compactChars (.text s)

/-- The indented texts of values, each on a new line. -/
def prettyItems (level : Nat) : List Json → List Char
  | [] => []
  | [v] => newLine level ++ prettyChars level v
  | v :: rest => newLine level ++ prettyChars level v ++ ',' :: prettyItems level rest

/-- The indented texts of members, each on a new line. -/
def prettyMembers (level : Nat) : List (String × Json) → List Char
  | [] => []
  | [(k, v)] => newLine level ++ quote k.toList ++ ':' :: ' ' :: prettyChars level v
  | (k, v) :: rest =>
    newLine level ++ quote k.toList ++ ':' :: ' ' :: (prettyChars level v ++ ',' :: prettyMembers level rest)

end

/-- The text of a value with one item or member a line. -/
def pretty (v : Json) : String := String.ofList (v.prettyChars 0)

/-! ## Building values -/

/-- An array of strings. -/
def texts (items : List String) : Json := .array (items.map .text)

/-- The value, or null if there is none. -/
def optional {α : Type} (f : α → Json) : Option α → Json
  | none => .null
  | some a => f a

end Json

end TreeRepair
