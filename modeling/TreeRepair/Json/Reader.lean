import TreeRepair.Json.Value
import TreeRepair.Text.Utf8

/-!
Reading JSON text (RFC 8259). `parse` accepts one value with blanks around it. Integers from 0 to
2^64 - 1 are read exactly; other numbers, and strings with half a surrogate pair, are accepted as
values that stand for nothing. `parseBytes` reads bytes, and what is not UTF-8 in them makes a string
that stands for nothing.
-/
namespace TreeRepair.Json

/-! ## Strings -/

/-- The character that stands for bytes that are not UTF-8. No JSON text holds it. -/
def strayBytes : Char := Char.ofNat 0

/-- A unit of a string: a character as it stands, the number of a `\u` escape, or bytes that are no
character. -/
inductive CodeUnit where
  | plain (c : Char)
  | escaped (n : Nat)
  | stray

/-- The value of a hexadecimal digit. -/
def hexValue? (c : Char) : Option Nat :=
  if '0' ≤ c ∧ c ≤ '9' then some (c.toNat - 48)
  else if 'a' ≤ c ∧ c ≤ 'f' then some (c.toNat - 87)
  else if 'A' ≤ c ∧ c ≤ 'F' then some (c.toNat - 55)
  else none

/-- The value of four hexadecimal digits. -/
def hex4? (a b c d : Char) : Option Nat := do
  let w ← hexValue? a
  let x ← hexValue? b
  let y ← hexValue? c
  let z ← hexValue? d
  return ((w * 16 + x) * 16 + y) * 16 + z

/-- The character that a one-letter escape stands for. -/
def simpleEscape? (c : Char) : Option Char :=
  if c = '"' ∨ c = '\\' ∨ c = '/' then some c
  else if c = 'b' then some (Char.ofNat 8)
  else if c = 'f' then some (Char.ofNat 12)
  else if c = 'n' then some '\n'
  else if c = 'r' then some '\r'
  else if c = 't' then some '\t'
  else none

/-- The units of a string up to its closing quote, and what follows. -/
def readUnits : List Char → Option (List CodeUnit × List Char)
  | [] => none
  | '"' :: rest => some ([], rest)
  | '\\' :: 'u' :: a :: b :: c :: d :: rest =>
    match hex4? a b c d with
    | none => none
    | some n => (readUnits rest).map fun (us, r) => (.escaped n :: us, r)
  | '\\' :: e :: rest =>
    match simpleEscape? e with
    | none => none
    | some c => (readUnits rest).map fun (us, r) => (.plain c :: us, r)
  | c :: rest =>
    if c = strayBytes then (readUnits rest).map fun (us, r) => (.stray :: us, r)
    else if c.toNat < 32 ∨ c = '\\' then none
    else (readUnits rest).map fun (us, r) => (.plain c :: us, r)

/-- The characters of a string: surrogate pairs are put together; half a pair and stray bytes have no
character. -/
def joinUnits : List CodeUnit → Option (List Char)
  | [] => some []
  | .plain c :: rest => (joinUnits rest).map (c :: ·)
  | .stray :: _ => none
  | .escaped n :: rest =>
    if 0xdc00 ≤ n ∧ n ≤ 0xdfff then none
    else if 0xd800 ≤ n ∧ n ≤ 0xdbff then
      match rest with
      | .escaped m :: rest =>
        if 0xdc00 ≤ m ∧ m ≤ 0xdfff then
          (joinUnits rest).map (Char.ofNat (0x10000 + (n - 0xd800) * 0x400 + (m - 0xdc00)) :: ·)
        else none
      | _ => none
    else (joinUnits rest).map (Char.ofNat n :: ·)

/-! ## Numbers -/

/-- Whether a character is a decimal digit. -/
def isDigit (c : Char) : Bool := '0' ≤ c && c ≤ '9'

/-- The value of decimal digits. -/
def ofDigits (ds : List Char) : Nat := ds.foldl (fun n d => n * 10 + (d.toNat - 48)) 0

/-- What follows one or more digits. -/
def skipDigits? (cs : List Char) : Option (List Char) :=
  match cs with
  | c :: rest => if isDigit c then some (rest.dropWhile isDigit) else none
  | [] => none

/-- What follows an optional fraction, and whether there is one. -/
def skipFraction? : List Char → Option (List Char × Bool)
  | '.' :: rest => (skipDigits? rest).map (·, true)
  | cs => some (cs, false)

/-- What follows an optional exponent, and whether there is one. -/
def skipExponent? : List Char → Option (List Char × Bool)
  | e :: rest =>
    if e = 'e' ∨ e = 'E' then
      match rest with
      | s :: digits => (skipDigits? (if s = '+' ∨ s = '-' then digits else rest)).map (·, true)
      | [] => none
    else some (e :: rest, false)
  | [] => some ([], false)

/-- A number without a sign: an integer part without a needless zero, a fraction, an exponent. -/
def readUnsigned (negative : Bool) (cs : List Char) : Option (Json × List Char) :=
  let whole := cs.takeWhile isDigit
  let rest := cs.dropWhile isDigit
  if whole.isEmpty || (whole.length > 1 && whole.head? == some '0') then none
  else do
    let (rest, hasFraction) ← skipFraction? rest
    let (rest, hasExponent) ← skipExponent? rest
    let n := ofDigits whole
    if negative || hasFraction || hasExponent || n ≥ Nat.pow 2 64 then return (.other, rest)
    else return (.nat n, rest)

/-! ## Values -/

/-- Blanks between tokens. -/
def isSpace (c : Char) : Bool := c == ' ' || c == '\n' || c == '\t' || c == '\r'

/-- A text without leading blanks. -/
def skipSpace (cs : List Char) : List Char := cs.dropWhile isSpace

/-- The value of a string in a text, or `other` if it has no characters. -/
def ofUnits (us : List CodeUnit) : Json :=
  match joinUnits us with
  | some cs => .text (String.ofList cs)
  | none => .other

/-- An object of members whose keys may have no characters. -/
def ofMembers (members : List (Json × Json)) : Json :=
  match members.mapM fun | (.text k, v) => some (k, v) | _ => none with
  | some ms => .object ms
  | none => .other

mutual

/-- Reads a value without blanks in front; the fuel bounds the depth plus the number of parts. -/
def readValue : Nat → List Char → Option (Json × List Char)
  | 0, _ => none
  | fuel + 1, cs =>
    match cs with
    | 'n' :: 'u' :: 'l' :: 'l' :: rest => some (.null, rest)
    | 't' :: 'r' :: 'u' :: 'e' :: rest => some (.bool true, rest)
    | 'f' :: 'a' :: 'l' :: 's' :: 'e' :: rest => some (.bool false, rest)
    | '"' :: rest => (readUnits rest).map fun (us, r) => (ofUnits us, r)
    | '-' :: rest => readUnsigned true rest
    | '[' :: rest =>
      match skipSpace rest with
      | ']' :: rest => some (.array [], rest)
      | rest => (readItems fuel rest).map fun (vs, r) => (.array vs, r)
    | c :: rest =>
      if c = '\x7b' then
        match skipSpace rest with
        | d :: more =>
          if d = '\x7d' then some (.object [], more)
          else (readMembers fuel (d :: more)).map fun (ms, r) => (ofMembers ms, r)
        | [] => none
      else if isDigit c then readUnsigned false (c :: rest)
      else none
    | [] => none

/-- Reads the items of an array and its closing bracket. -/
def readItems : Nat → List Char → Option (List Json × List Char)
  | 0, _ => none
  | fuel + 1, cs =>
    match readValue fuel cs with
    | none => none
    | some (v, rest) =>
      match skipSpace rest with
      | ']' :: rest => some ([v], rest)
      | ',' :: rest => (readItems fuel (skipSpace rest)).map fun (vs, r) => (v :: vs, r)
      | _ => none

/-- Reads the members of an object and its closing brace. -/
def readMembers : Nat → List Char → Option (List (Json × Json) × List Char)
  | 0, _ => none
  | fuel + 1, cs =>
    match cs with
    | '"' :: rest =>
      match readUnits rest with
      | none => none
      | some (us, rest) =>
        match skipSpace rest with
        | ':' :: rest =>
          match readValue fuel (skipSpace rest) with
          | none => none
          | some (v, rest) =>
            match skipSpace rest with
            | ',' :: rest =>
              (readMembers fuel (skipSpace rest)).map fun (ms, r) => ((ofUnits us, v) :: ms, r)
            | d :: rest => if d = '\x7d' then some ([(ofUnits us, v)], rest) else none
            | [] => none
        | _ => none
    | _ => none

end

/-- Reads characters that hold one value. -/
def readAll (cs : List Char) : Option Json :=
  match readValue (2 * cs.length + 1) (skipSpace cs) with
  | some (v, rest) => if (skipSpace rest).isEmpty then some v else none
  | none => none

/-- Reads a text that holds one value. -/
def parse (text : String) : Option Json :=
  let cs := text.toList
  if cs.contains strayBytes then none else readAll cs

/-- Reads bytes that hold one value. They need be UTF-8 only where a string is to have characters. -/
def parseBytes (bytes : ByteArray) : Option Json :=
  let bs := bytes.data.toList
  if bs.contains 0 then none else readAll (Text.decodeChars strayBytes bs)

/-! ## Records -/

/-- The values of the named fields of an object, none of which may occur twice; members with other
names do not matter. An array stands for the fields in order and may leave out the last `spare`. -/
def fields? (names : List String) (spare : Nat) : Json → Option (List (Option Json))
  | .object members =>
    names.mapM fun name =>
      match members.filter (·.1 == name) with
      | [] => some none
      | [(_, v)] => some (some v)
      | _ => none
  | .array items =>
    if items.length ≤ names.length && names.length ≤ items.length + spare then
      some (items.map some ++ List.replicate (names.length - items.length) none)
    else none
  | _ => none

/-- The integer of a value. -/
def nat? : Json → Option Nat
  | .nat n => some n
  | _ => none

/-- The truth value of a value. -/
def bool? : Json → Option Bool
  | .bool b => some b
  | _ => none

/-- The string of a value. -/
def text? : Json → Option String
  | .text s => some s
  | _ => none

/-- The strings of an array of strings. -/
def texts? : Json → Option (List String)
  | .array items => items.mapM text?
  | _ => none

/-- The name of a value that stands for one of several cases: the name itself, or an object with the
name as its one member and nothing in it. -/
def case? : Json → Option String
  | .text s => some s
  | .object [(s, .null)] => some s
  | _ => none

end TreeRepair.Json
