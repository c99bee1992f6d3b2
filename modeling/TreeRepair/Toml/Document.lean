import TreeRepair.Toml.Scalar

/-!
TOML 1.0 documents. `parse` reads a document into a table, or nothing if the text is malformed or
defines something twice. Floats, dates and times are accepted without their values.
-/
namespace TreeRepair

/-- How a table has come about, which decides how it may grow. -/
inductive Toml.TableKind where
  /-- Named by a header: no other header and no dotted key may reopen it. -/
  | explicit
  /-- Written in braces: nothing may be added to it. -/
  | inline
  /-- Passed through by the path of a header. -/
  | implicit
  /-- Passed through by the path of a dotted key. -/
  | dotted
  deriving DecidableEq, Repr

/-- A TOML value. -/
inductive Toml where
  | text (s : String)
  | integer (n : Int)
  | boolean (b : Bool)
  /-- A float, a date or a time. -/
  | other
  | array (items : List Toml)
  | table (kind : Toml.TableKind) (members : List (String × Toml))
  /-- The tables of `[[…]]` headers with one path, last one first. -/
  | tables (items : List (List (String × Toml)))

namespace Toml

/-- The members of a table. -/
abbrev Members := List (String × Toml)

/-! ## Growing tables -/

/-- The value of a key. -/
def find? (key : String) (members : Members) : Option Toml := members.lookup key

/-- Sets the value of a key, in place or at the end. -/
def put (key : String) (value : Toml) : Members → Members
  | [] => [(key, value)]
  | (k, v) :: rest => if k = key then (k, value) :: rest else (k, v) :: put key value rest

/-- Changes the table that a path of keys leads to, making tables of the given kind on the way. No
path may pass through a table in braces, and no dotted one through an explicit table; in the last of
several tables a path goes on. -/
def descend (kind : TableKind) (change : TableKind → Members → Option Members) :
    List String → TableKind → Members → Option Members
  | [], here, members => change here members
  | key :: path, _, members =>
    match find? key members with
    | none => (descend kind change path kind []).map fun inner => put key (.table kind inner) members
    | some (.table k inner) =>
      if k = .inline ∨ (kind = .dotted ∧ k = .explicit) then none
      else (descend kind change path k inner).map fun inner => put key (.table k inner) members
    | some (.tables (last :: earlier)) =>
      (descend kind change path .explicit last).map fun inner =>
        put key (.tables (inner :: earlier)) members
    | some _ => none

/-- Adds a member under a dotted path. A key without a path may not go into a table that dotted keys
made, nor one with a path into any other table. -/
def define (path : List String) (key : String) (value : Toml) (here : TableKind) (members : Members) :
    Option Members :=
  descend .dotted (fun kind inner =>
    if decide (kind = .dotted) == path.isEmpty then none
    else if (find? key inner).isSome then none
    else some (put key value inner)) path here members

/-! ## Lines and keys -/

/-- What follows a comment up to the end of its line. -/
def comment? : List Char → Option (List Char)
  | '#' :: rest => some (rest.dropWhile isLineCharacter)
  | _ => none

/-- What follows the end of a line, before which only blanks and a comment may stand. -/
def lineEnd? (cs : List Char) : Option (List Char) :=
  let cs := skipBlanks cs
  let cs := (comment? cs).getD cs
  if cs.isEmpty then some [] else newline? cs

/-- Characters of a bare key. -/
def isKeyCharacter (c : Char) : Bool :=
  isDigit c || ('a' ≤ c && c ≤ 'z') || ('A' ≤ c && c ≤ 'Z') || c == '-' || c == '_'

/-- One part of a key, bare or quoted. -/
def keyPart? (cs : List Char) : Option (String × List Char) :=
  match lineString? cs with
  | some (s, rest) => some (String.ofList s, rest)
  | none =>
    let part := cs.takeWhile isKeyCharacter
    if part.isEmpty then none else some (String.ofList part, cs.dropWhile isKeyCharacter)

/-- The deepest nesting of keys and of values. -/
def depthLimit : Nat := 80

/-- A key of parts with dots in between and blanks around; the fuel bounds the parts. -/
def keyParts? : Nat → List Char → Option (List String × List Char)
  | 0, _ => none
  | fuel + 1, cs =>
    match keyPart? (skipBlanks cs) with
    | none => none
    | some (part, rest) =>
      match skipBlanks rest with
      | '.' :: rest => (keyParts? fuel rest).map fun (parts, r) => (part :: parts, r)
      | rest => some ([part], rest)

/-- A key: its path, its last part, and what follows. -/
def key? (cs : List Char) : Option (List String × String × List Char) :=
  match keyParts? depthLimit cs with
  | none => none
  | some (parts, rest) =>
    match parts.getLast? with
    | none => none
    | some last => if parts.length < depthLimit then some (parts.dropLast, last, rest) else none

/-! ## Values -/

/-- What follows a comment is shorter. -/
theorem length_of_comment? {cs rest : List Char} (h : comment? cs = some rest) :
    rest.length < cs.length := by
  unfold comment? at h
  split at h
  · rw [← Option.some.inj h, List.length_cons, Nat.lt_add_one_iff]
    exact length_dropWhile_le isLineCharacter _
  · simp at h

/-- What follows blanks, line breaks and comments. -/
def skipSpace? (cs : List Char) : Option (List Char) :=
  match _hn : newline? (skipBlanks cs) with
  | some rest => skipSpace? rest
  | none =>
    match _hc : comment? (skipBlanks cs) with
    | some rest =>
      match _hm : newline? rest with
      | some more => skipSpace? more
      | none => none
    | none => some (skipBlanks cs)
termination_by cs.length
decreasing_by
  · have := length_of_newline? _hn
    have : (skipBlanks cs).length ≤ cs.length := length_dropWhile_le isLineBlank cs
    omega
  · have := length_of_newline? _hm
    have := length_of_comment? _hc
    have : (skipBlanks cs).length ≤ cs.length := length_dropWhile_le isLineBlank cs
    omega

mutual

/-- Reads a value. The fuel bounds the parts that follow; `depth` counts the brackets around. -/
def value? : Nat → Nat → List Char → Option (Toml × List Char)
  | 0, _, _ => none
  | fuel + 1, depth, cs =>
    match cs with
    | [] => none
    | c :: rest =>
      if c = '"' ∨ c = '\'' then (string? cs).map fun (s, r) => (.text (String.ofList s), r)
      else if c = '[' then
        if depth + 1 < depthLimit then
          (items? fuel (depth + 1) rest).map fun (vs, r) => (.array vs, r)
        else none
      else if c = '\x7b' then
        if depth + 1 < depthLimit then
          match skipBlanks rest with
          | d :: more =>
            if d = '\x7d' then some (.table .inline [], more)
            else (pairs? fuel (depth + 1) (d :: more) []).map fun (ms, r) => (.table .inline ms, r)
          | [] => none
        else none
      else if c = '+' ∨ c = '-' ∨ isDigit c then
        match dateTime? cs with
        | some rest => some (.other, rest)
        | none =>
          match float? cs with
          | some rest => some (.other, rest)
          | none => (integer? cs).map fun (n, r) => (.integer n, r)
      else
        match cs with
        | 't' :: 'r' :: 'u' :: 'e' :: rest => some (.boolean true, rest)
        | 'f' :: 'a' :: 'l' :: 's' :: 'e' :: rest => some (.boolean false, rest)
        | 'i' :: 'n' :: 'f' :: rest => some (.other, rest)
        | 'n' :: 'a' :: 'n' :: rest => some (.other, rest)
        | _ => none

/-- Reads the items of an array and its closing bracket; a comma may follow the last item. -/
def items? : Nat → Nat → List Char → Option (List Toml × List Char)
  | 0, _, _ => none
  | fuel + 1, depth, cs =>
    match skipSpace? cs with
    | none => none
    | some (']' :: rest) => some ([], rest)
    | some cs =>
      match value? fuel depth cs with
      | none => none
      | some (v, rest) =>
        match skipSpace? rest with
        | some (']' :: rest) => some ([v], rest)
        | some (',' :: rest) => (items? fuel depth rest).map fun (vs, r) => (v :: vs, r)
        | _ => none

/-- Reads the members of an inline table and its closing brace, adding them to those read so far. -/
def pairs? : Nat → Nat → List Char → Members → Option (Members × List Char)
  | 0, _, _, _ => none
  | fuel + 1, depth, cs, members =>
    match key? cs with
    | some (path, key, '=' :: rest) =>
      match value? fuel depth (skipBlanks rest) with
      | none => none
      | some (v, rest) =>
        match define path key v .explicit members with
        | none => none
        | some members =>
          match skipBlanks rest with
          | ',' :: rest => pairs? fuel depth rest members
          | d :: rest => if d = '\x7d' then some (members, rest) else none
          | [] => none
    | _ => none

end

/-! ## Documents -/

/-- The document so far, and the path of the header whose table the next keys go into. -/
structure Progress where
  root : Members
  header : List String

/-- Opens the table of a plain header: a new one, or one that only headers have passed through. -/
def openTable (key : String) (members : Members) : Option Members :=
  match find? key members with
  | none => some (put key (.table .explicit []) members)
  | some (.table .implicit inner) => some (put key (.table .explicit inner) members)
  | some _ => none

/-- Opens the next of several tables. -/
def openNextTable (key : String) (members : Members) : Option Members :=
  match find? key members with
  | none => some (put key (.tables [[]]) members)
  | some (.tables items) => some (put key (.tables ([] :: items)) members)
  | some _ => none

/-- Reads a header line: the document with its table opened, and what follows the line. -/
def header? (p : Progress) (cs : List Char) : Option (Progress × List Char) :=
  let (several, body) : Bool × List Char :=
    match cs with
    | '[' :: '[' :: rest => (true, rest)
    | _ => (false, cs.tail)
  match key? body with
  | none => none
  | some (path, key, rest) =>
    let closed : Option (List Char) :=
      match several, rest with
      | true, ']' :: ']' :: rest => some rest
      | false, ']' :: rest => some rest
      | _, _ => none
    match closed.bind lineEnd? with
    | none => none
    | some rest =>
      let change := if several then openNextTable key else openTable key
      (descend .implicit (fun _ inner => change inner) path .explicit p.root).map fun root =>
        (⟨root, path ++ [key]⟩, rest)

/-- Adds a member to the table of the current header. -/
def addMember (p : Progress) (path : List String) (key : String) (v : Toml) : Option Progress :=
  (descend .implicit (fun _ inner => define path key v .explicit inner) p.header .explicit p.root).map
    fun root => ⟨root, p.header⟩

/-- Reads a line with a key and a value; the fuel bounds the characters. -/
def member? (fuel : Nat) (p : Progress) (cs : List Char) : Option (Progress × List Char) :=
  match key? cs with
  | some (path, key, '=' :: rest) =>
    match value? (2 * fuel + 2) 0 (skipBlanks rest) with
    | none => none
    | some (v, rest) =>
      match lineEnd? rest with
      | none => none
      | some rest => (addMember p path key v).map (·, rest)
  | _ => none

/-- Reads the lines of a document; the fuel bounds the characters. -/
def lines? : Nat → Progress → List Char → Option Members
  | 0, _, _ => none
  | fuel + 1, p, cs =>
    match skipBlanks cs with
    | [] => some p.root
    | c :: rest =>
      let cs := c :: rest
      if c = '#' then
        match lineEnd? cs with
        | none => none
        | some rest => lines? fuel p rest
      else if c = '\n' ∨ c = '\r' then
        match newline? cs with
        | none => none
        | some rest => lines? fuel p rest
      else
        match (if c = '[' then header? p cs else member? fuel p cs) with
        | none => none
        | some (p, rest) => lines? fuel p rest

/-- A text without a byte order mark in front. -/
def dropMark : List Char → List Char
  | [] => []
  | c :: rest => if c.toNat = 0xfeff then rest else c :: rest

/-- Reads a document. -/
def parse (text : String) : Option Members :=
  let cs := dropMark text.toList
  lines? (cs.length + 1) ⟨[], []⟩ cs

end Toml

end TreeRepair
