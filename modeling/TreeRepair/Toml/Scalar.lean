/-!
Scalars of TOML 1.0: strings in their four forms, integers, and the shapes of floats, dates and times.
A reader takes the text from where the scalar begins and gives its value and what follows, or nothing
if no such scalar begins there.
-/
namespace TreeRepair.Toml

/-! ## Characters -/

/-- Blanks inside a line. -/
def isLineBlank (c : Char) : Bool := c == ' ' || c == '\t'

/-- Characters that may stand in a comment or a string on one line. -/
def isLineCharacter (c : Char) : Bool :=
  c == '\t' || (32 ≤ c.toNat && c.toNat ≤ 126) || 128 ≤ c.toNat

/-- Decimal digits. -/
def isDigit (c : Char) : Bool := '0' ≤ c && c ≤ '9'

/-- The value of a digit in a base up to sixteen. -/
def digitValue? (base : Nat) (c : Char) : Option Nat :=
  let n :=
    if '0' ≤ c ∧ c ≤ '9' then c.toNat - 48
    else if 'a' ≤ c ∧ c ≤ 'f' then c.toNat - 87
    else if 'A' ≤ c ∧ c ≤ 'F' then c.toNat - 55
    else 16
  if n < base then some n else none

/-- A text without leading blanks. -/
def skipBlanks (cs : List Char) : List Char := cs.dropWhile isLineBlank

/-- What follows a line break, which is a line feed with or without a carriage return before it. -/
def newline? : List Char → Option (List Char)
  | '\n' :: rest => some rest
  | '\r' :: '\n' :: rest => some rest
  | _ => none

/-- What follows a line break is shorter. -/
theorem length_of_newline? {cs rest : List Char} (h : newline? cs = some rest) :
    rest.length < cs.length := by
  unfold newline? at h
  split at h
  · rw [← Option.some.inj h, List.length_cons]
    omega
  · rw [← Option.some.inj h, List.length_cons, List.length_cons]
    omega
  · simp at h

/-- Skipping adds nothing. -/
theorem length_dropWhile_le (p : Char → Bool) (cs : List Char) : (cs.dropWhile p).length ≤ cs.length :=
  (List.dropWhile_sublist p).length_le

/-! ## Strings -/

/-- The value of digits in base sixteen, if all of them are digits. -/
def hexNumber? (ds : List Char) : Option Nat :=
  ds.foldlM (fun n d => (digitValue? 16 d).map (n * 16 + ·)) 0

/-- The character with a number, unless it is half of a surrogate pair or out of range. -/
def scalarChar? (n : Nat) : Option Char := if n.isValidChar then some (Char.ofNat n) else none

/-- The character that an escape with digits stands for, and what follows. -/
def numberedEscape? (length : Nat) (cs : List Char) : Option (Char × List Char) :=
  let ds := cs.take length
  if ds.length = length then ((hexNumber? ds).bind scalarChar?).map (·, cs.drop length) else none

/-- What follows the digits of an escape is not longer. -/
theorem length_of_numberedEscape? {length : Nat} {cs rest : List Char} {d : Char}
    (h : numberedEscape? length cs = some (d, rest)) : rest.length ≤ cs.length := by
  simp only [numberedEscape?] at h
  split at h
  · obtain ⟨e, -, he⟩ := Option.map_eq_some_iff.1 h
    rw [← (Prod.mk.inj he).2, List.length_drop]
    omega
  · simp at h

/-- The character that a letter or a sign behind a backslash stands for. -/
def escapedSign? (c : Char) : Option Char :=
  if c = 'b' then some (Char.ofNat 8)
  else if c = 't' then some '\t'
  else if c = 'n' then some '\n'
  else if c = 'f' then some (Char.ofNat 12)
  else if c = 'r' then some '\r'
  else if c = '"' ∨ c = '\\' then some c
  else none

/-- The character behind a backslash, and what follows it. -/
def escape? : List Char → Option (Char × List Char)
  | [] => none
  | c :: rest =>
    if c = 'u' then numberedEscape? 4 rest
    else if c = 'U' then numberedEscape? 8 rest
    else (escapedSign? c).map (·, rest)

/-- What follows an escape is shorter. -/
theorem length_of_escape? {cs rest : List Char} {d : Char} (h : escape? cs = some (d, rest)) :
    rest.length < cs.length := by
  cases cs with
  | nil => simp [escape?] at h
  | cons c cs =>
    rw [List.length_cons, Nat.lt_add_one_iff]
    simp only [escape?] at h
    split at h
    · exact length_of_numberedEscape? h
    · split at h
      · exact length_of_numberedEscape? h
      · obtain ⟨e, -, he⟩ := Option.map_eq_some_iff.1 h
        exact Nat.le_of_eq (congrArg List.length (Prod.mk.inj he).2.symm)

/-- The rest of a basic string, behind its opening quote. -/
def basicTail? : List Char → Option (List Char × List Char)
  | [] => none
  | c :: rest =>
    if c = '"' then some ([], rest)
    else if c = '\\' then
      match _he : escape? rest with
      | none => none
      | some (d, more) => (basicTail? more).map fun (ds, r) => (d :: ds, r)
    else if isLineCharacter c then (basicTail? rest).map fun (ds, r) => (c :: ds, r)
    else none
termination_by cs => cs.length
decreasing_by
  · have := length_of_escape? _he
    simp only [List.length_cons]
    omega
  · simp

/-- The rest of a literal string, behind its opening quote. -/
def literalTail? : List Char → Option (List Char × List Char)
  | [] => none
  | c :: rest =>
    if c = '\'' then some ([], rest)
    else if isLineCharacter c then (literalTail? rest).map fun (ds, r) => (c :: ds, r)
    else none

/-- At three or more quotes: how many of them belong to the text before the closing three, at most
two, and what follows. -/
def closing? (quote : Char) (cs : List Char) : Option (Nat × List Char) :=
  let n := min 5 (cs.takeWhile (· == quote)).length
  if 3 ≤ n then some (n - 3, cs.drop n) else none

/-- Blanks and characters of line breaks. -/
def isBlankOrBreak (c : Char) : Bool := isLineBlank c || c == '\n' || c == '\r'

/-- Whether every carriage return comes right before a line feed. -/
def returnsPaired : List Char → Bool
  | [] => true
  | '\r' :: '\n' :: rest => returnsPaired rest
  | c :: rest => c != '\r' && returnsPaired rest

/-- What follows the blanks and line breaks that a backslash at a line's end removes. -/
def continuation? (cs : List Char) : Option (List Char) :=
  match newline? (skipBlanks cs) with
  | none => none
  | some rest =>
    if returnsPaired (rest.takeWhile isBlankOrBreak) then some (rest.dropWhile isBlankOrBreak) else none

/-- What follows a line's end is shorter. -/
theorem length_of_continuation? {cs rest : List Char} (h : continuation? cs = some rest) :
    rest.length < cs.length := by
  simp only [continuation?] at h
  split at h
  · simp at h
  · rename_i more hn
    have := length_of_newline? hn
    have := length_dropWhile_le isLineBlank cs
    split at h
    · rw [← Option.some.inj h]
      have := length_dropWhile_le isBlankOrBreak more
      unfold skipBlanks at *
      omega
    · simp at h

/-- The rest of a basic string of several lines, behind its opening quotes. -/
def multilineBasicTail? : List Char → Option (List Char × List Char)
  | [] => none
  | c :: rest =>
    if c = '"' then
      match closing? '"' (c :: rest) with
      | some (n, rest) => some (List.replicate n '"', rest)
      | none => (multilineBasicTail? rest).map fun (ds, r) => (c :: ds, r)
    else if c = '\\' then
      match _he : escape? rest with
      | some (d, more) => (multilineBasicTail? more).map fun (ds, r) => (d :: ds, r)
      | none =>
        match _hc : continuation? rest with
        | some more => multilineBasicTail? more
        | none => none
    else
      match _hn : newline? (c :: rest) with
      | some more => (multilineBasicTail? more).map fun (ds, r) => ('\n' :: ds, r)
      | none =>
        if isLineCharacter c then (multilineBasicTail? rest).map fun (ds, r) => (c :: ds, r)
        else none
termination_by cs => cs.length
decreasing_by
  · simp
  · have := length_of_escape? _he
    simp only [List.length_cons]
    omega
  · have := length_of_continuation? _hc
    simp only [List.length_cons]
    omega
  · exact length_of_newline? _hn
  · simp

/-- The rest of a literal string of several lines, behind its opening quotes. -/
def multilineLiteralTail? : List Char → Option (List Char × List Char)
  | [] => none
  | c :: rest =>
    if c = '\'' then
      match closing? '\'' (c :: rest) with
      | some (n, rest) => some (List.replicate n '\'', rest)
      | none => (multilineLiteralTail? rest).map fun (ds, r) => (c :: ds, r)
    else
      match _hn : newline? (c :: rest) with
      | some more => (multilineLiteralTail? more).map fun (ds, r) => ('\n' :: ds, r)
      | none =>
        if isLineCharacter c then (multilineLiteralTail? rest).map fun (ds, r) => (c :: ds, r)
        else none
termination_by cs => cs.length
decreasing_by
  · simp
  · exact length_of_newline? _hn
  · simp

/-- What follows a line break, or the text itself. -/
def dropNewline (cs : List Char) : List Char := (newline? cs).getD cs

/-- A string on one line. -/
def lineString? : List Char → Option (List Char × List Char)
  | '"' :: rest => basicTail? rest
  | '\'' :: rest => literalTail? rest
  | _ => none

/-- A string in any of the four forms. -/
def string? : List Char → Option (List Char × List Char)
  | '"' :: '"' :: '"' :: rest => multilineBasicTail? (dropNewline rest)
  | '\'' :: '\'' :: '\'' :: rest => multilineLiteralTail? (dropNewline rest)
  | cs => lineString? cs

/-! ## Numbers -/

/-- Digits, of which any but the first may follow an underscore, and what follows them. -/
def digitRun? (accepts : Char → Bool) (cs : List Char) : Option (List Char × List Char) :=
  match cs with
  | [] => none
  | c :: rest => if accepts c then (more rest).map fun (ds, r) => (c :: ds, r) else none
where
  /-- The digits behind the first one. -/
  more : List Char → Option (List Char × List Char)
    | [] => some ([], [])
    | '_' :: rest =>
      match rest with
      | [] => none
      | d :: rest => if accepts d then (more rest).map fun (ds, r) => (d :: ds, r) else none
    | c :: rest =>
      if accepts c then (more rest).map fun (ds, r) => (c :: ds, r) else some ([], c :: rest)

/-- Whether a text begins with a minus sign, and what follows a sign if there is one. -/
def sign : List Char → Bool × List Char
  | '+' :: rest => (false, rest)
  | '-' :: rest => (true, rest)
  | cs => (false, cs)

/-- The digits of a decimal integer without needless zeros, and what follows. -/
def decimalDigits? : List Char → Option (List Char × List Char)
  | '0' :: rest => some (['0'], rest)
  | cs => digitRun? isDigit cs

/-- The value of digits in a base. -/
def numberIn (base : Nat) (ds : List Char) : Nat :=
  ds.foldl (fun n d => n * base + (digitValue? base d).getD 0) 0

/-- The value of digits in a base, where 64 digits are enough; with more of them, leading zeros aside,
a number that 64 bits do not hold. -/
def shortNumberIn (base : Nat) (ds : List Char) : Nat :=
  if 64 < (ds.dropWhile (· == '0')).length then Nat.pow 2 64 else numberIn base ds

/-- An integer of 64 bits with a sign. -/
def bounded? (n : Int) : Option Int := if -9223372036854775808 ≤ n ∧ n < 9223372036854775808 then some n else none

/-- An integer with a base mark in front. -/
def markedInteger? (base : Nat) (cs : List Char) : Option (Int × List Char) :=
  match digitRun? (fun c => (digitValue? base c).isSome) cs with
  | none => none
  | some (ds, rest) => (bounded? (shortNumberIn base ds)).map (·, rest)

/-- An integer. -/
def integer? : List Char → Option (Int × List Char)
  | '0' :: 'x' :: rest => markedInteger? 16 rest
  | '0' :: 'o' :: rest => markedInteger? 8 rest
  | '0' :: 'b' :: rest => markedInteger? 2 rest
  | cs =>
    let (negative, digits) := sign cs
    match decimalDigits? digits with
    | none => none
    | some (ds, rest) =>
      let n : Int := shortNumberIn 10 ds
      (bounded? (if negative then -n else n)).map (·, rest)

/-- The exponent of a float and what follows it. -/
def exponent? : List Char → Option (Int × List Char)
  | e :: rest =>
    if e = 'e' ∨ e = 'E' then
      let (negative, digits) := sign rest
      (digitRun? isDigit digits).map fun (ds, r) =>
        let n : Int := shortNumberIn 10 ds
        (if negative then -n else n, r)
    else none
  | [] => none

/-- The least number that is too large for a double: it rounds to infinity. It has 309 digits. -/
def floatLimit : Nat := Nat.pow 2 1024 - Nat.pow 2 970

/-- Whether the number of some digits, times ten to the power of a scale, is too large for a double. What
counts is the number of places before the point, and at 309 of them the number that these make up. -/
def overflows (ds : List Char) (scale : Int) : Bool :=
  let significant := ds.dropWhile (· == '0')
  let places : Int := significant.length + scale
  if significant.isEmpty then false
  else if places = 309 then
    let whole := significant.take 309
    floatLimit ≤ numberIn 10 whole * Nat.pow 10 (309 - whole.length)
  else 309 < places

/-- The digits of a number with a fraction or an exponent, its scale, and what follows. -/
def scaled? (cs : List Char) : Option (List Char × Int × List Char) :=
  match decimalDigits? cs with
  | none => none
  | some (whole, rest) =>
    match exponent? rest with
    | some (e, rest) => some (whole, e, rest)
    | none =>
      match rest with
      | '.' :: rest =>
        match digitRun? isDigit rest with
        | none => none
        | some (fraction, rest) =>
          let places : Int := fraction.length
          match exponent? rest with
          | some (e, rest) => some (whole ++ fraction, e - places, rest)
          | none => some (whole ++ fraction, -places, rest)
      | _ => none

/-- What follows a float with a fraction or an exponent. One that is too large has to be negative: it
counts as minus infinity. -/
def numericFloat? (cs : List Char) : Option (List Char) :=
  let (negative, digits) := sign cs
  match scaled? digits with
  | none => none
  | some (ds, scale, rest) => if !negative && overflows ds scale then none else some rest

/-- What follows a float. -/
def float? (cs : List Char) : Option (List Char) :=
  match numericFloat? cs with
  | some rest => some rest
  | none =>
    match (sign cs).2 with
    | 'i' :: 'n' :: 'f' :: rest => some rest
    | 'n' :: 'a' :: 'n' :: rest => some rest
    | _ => none

/-! ## Dates and times -/

/-- A number of exactly `length` digits within bounds, and what follows. -/
def fixedNumber? (length low high : Nat) (cs : List Char) : Option (Nat × List Char) :=
  let ds := cs.take length
  let n := numberIn 10 ds
  if ds.length = length ∧ ds.all isDigit ∧ low ≤ n ∧ n ≤ high then some (n, cs.drop length) else none

/-- What follows a given character. -/
def expect? (c : Char) : List Char → Option (List Char)
  | [] => none
  | d :: rest => if d = c then some rest else none

/-- The number of days of a month. -/
def daysIn (year month : Nat) : Nat :=
  if month = 2 then
    if (year % 4 = 0 ∧ year % 100 ≠ 0) ∨ year % 400 = 0 then 29 else 28
  else if month = 4 ∨ month = 6 ∨ month = 9 ∨ month = 11 then 30
  else 31

/-- What follows a date. -/
def date? (cs : List Char) : Option (List Char) := do
  let (year, cs) ← fixedNumber? 4 0 9999 cs
  let cs ← expect? '-' cs
  let (month, cs) ← fixedNumber? 2 1 12 cs
  let cs ← expect? '-' cs
  let (_, cs) ← fixedNumber? 2 1 (daysIn year month) cs
  return cs

/-- What follows a time of day. -/
def time? (cs : List Char) : Option (List Char) := do
  let (_, cs) ← fixedNumber? 2 0 23 cs
  let cs ← expect? ':' cs
  let (_, cs) ← fixedNumber? 2 0 59 cs
  let cs ← expect? ':' cs
  let (_, cs) ← fixedNumber? 2 0 60 cs
  match cs with
  | '.' :: d :: rest => if isDigit d then return rest.dropWhile isDigit else return cs
  | _ => return cs

/-- What follows the distance of a time from universal time. -/
def zone? : List Char → Option (List Char)
  | [] => none
  | c :: rest =>
    if c = 'Z' ∨ c = 'z' then some rest
    else if c = '+' ∨ c = '-' then do
      let (_, cs) ← fixedNumber? 2 0 23 rest
      let cs ← expect? ':' cs
      let (_, cs) ← fixedNumber? 2 0 59 cs
      return cs
    else none

/-- What follows a date, a time, or both with or without a zone. -/
def dateTime? (cs : List Char) : Option (List Char) :=
  match date? cs with
  | none => time? cs
  | some rest =>
    match rest with
    | c :: afterMark =>
      if c = 'T' ∨ c = 't' ∨ c = ' ' then
        match time? afterMark with
        | some rest => some ((zone? rest).getD rest)
        | none => some (c :: afterMark)
      else some (c :: afterMark)
    | [] => some []

end TreeRepair.Toml
