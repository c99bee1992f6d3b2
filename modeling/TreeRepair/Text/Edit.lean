import TreeRepair.Text.Utf8

/-!
Edits of a text by byte ranges. `applyEdits` widens each range outward to boundaries and splices from
the last range to the first: a `Cut` runs back through the text, what lies before it is as it was
given, and what lies behind it is done. A range outside the text is refused, and so are two ranges
that share a byte.
-/
namespace TreeRepair.Text

/-- The replacement of the bytes `[start, stop)` of a text; an insertion if `start = stop`. -/
structure Edit where
  start : Nat
  stop : Nat
  replacement : String
  deriving DecidableEq, Repr, Inhabited

/-- Puts a text in at an offset. -/
def Edit.insert (offset : Nat) (text : String) : Edit := ⟨offset, offset, text⟩

/-- Why a list of edits cannot be applied. -/
inductive EditError where
  /-- The range runs backwards or past the end of a text of `length` bytes. -/
  | outOfBounds (start stop length : Nat)
  /-- The widened range shares a byte with a later one. -/
  | overlapping (start stop : Nat)
  deriving DecidableEq, Repr

/-- The wording of an edit error. -/
def EditError.message : EditError → String
  | .outOfBounds start stop length =>
    s!"Edit {start}..{stop} out of bounds for text of {length} bytes"
  | .overlapping start stop => s!"Edit {start}..{stop} overlaps a later edit"

/-- The order of application: later starts first; at one start replacements before insertions, and
what was given later first. -/
def Edit.comesBefore (x y : Nat × Edit) : Bool :=
  if x.2.start ≠ y.2.start then y.2.start < x.2.start
  else
    let insertion (e : Edit) : Bool := e.start == e.stop
    if insertion x.2 ≠ insertion y.2 then insertion y.2 else y.1 ≤ x.1

/-- The edits with their places in the given list, in order of application. -/
def Edit.ordered (edits : List Edit) : List (Nat × Edit) :=
  ((List.range edits.length).zip edits).mergeSort Edit.comesBefore

/-! ## Splicing -/

/-- A text cut in two at a boundary. -/
structure Cut where
  /-- What lies before the cut, last character first. -/
  before : List Char
  /-- The number of bytes before the cut. -/
  offset : Nat
  /-- What lies behind the cut. -/
  after : List Char
  deriving DecidableEq, Repr

namespace Cut

/-- The cut at the end of a text. -/
def atEnd (cs : List Char) : Cut := ⟨cs.reverse, byteLength cs, []⟩

/-- The text on both sides of a cut. -/
def toText (c : Cut) : List Char := c.before.reverseAux c.after

/-- The last characters of a text that begin at or behind an offset go behind the cut. -/
def keepFrom (n : Nat) : List Char → Nat → List Char → Cut
  | [], offset, after => ⟨[], offset, after⟩
  | c :: before, offset, after =>
    if n + c.utf8Size ≤ offset then keepFrom n before (offset - c.utf8Size) (c :: after)
    else ⟨c :: before, offset, after⟩

/-- The last characters of a text that end behind an offset are lost. -/
def dropFrom (n : Nat) : List Char → Nat → List Char → Cut
  | [], offset, after => ⟨[], offset, after⟩
  | c :: before, offset, after =>
    if n < offset then dropFrom n before (offset - c.utf8Size) after
    else ⟨c :: before, offset, after⟩

/-- Moves the cut back to the first boundary that is not before an offset. -/
def backTo (c : Cut) (n : Nat) : Cut := keepFrom n c.before c.offset c.after

/-- Replaces the text from the last boundary that is not behind an offset up to the cut. -/
def replaceFrom (c : Cut) (n : Nat) (replacement : List Char) : Cut :=
  let kept := dropFrom n c.before c.offset c.after
  ⟨kept.before, kept.offset, replacement ++ kept.after⟩

/-- Applies an edit whose range ends at or before the cut. -/
def apply (c : Cut) (e : Edit) : Cut := (c.backTo e.stop).replaceFrom e.start e.replacement.toList

end Cut

/-- Applies edits of a text of `length` bytes that are in order. Every range has to end at or before
the cut, which is where the range applied last starts. -/
def spliceDown (text : List Char) (length : Nat) : Cut → List Edit → Except EditError Cut
  | c, [] => .ok c
  | c, e :: rest =>
    if e.stop < e.start || length < e.stop then .error (.outOfBounds e.start e.stop length)
    else if c.offset < e.stop then
      .error (.overlapping (floorBoundary text e.start) (ceilBoundary text e.stop))
    else spliceDown text length (c.apply e) rest

/-- Splices edits into a text. Insertions at one offset keep their given order. -/
def applyEdits (text : String) (edits : List Edit) : Except EditError String :=
  let cs := text.toList
  (spliceDown cs (byteLength cs) (.atEnd cs) ((Edit.ordered edits).map (·.2))).map fun c =>
    String.ofList c.toText

end TreeRepair.Text
