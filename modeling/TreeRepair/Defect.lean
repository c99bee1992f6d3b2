import TreeRepair.Json.Value
import TreeRepair.Prose
import TreeRepair.Syntax.Pattern

/-!
The defects that repairs are about. Each has a pattern that a unit shows or does not show, a marker
that a repair leaves behind, and a verdict on a repair: the pattern is gone and the marker in place,
or the pattern never was there, and the parse errors have not grown in number.
-/
namespace TreeRepair

open Prose Text

/-- A class of defects in a source. -/
inductive Defect where
  /-- Prose at module scope. -/
  | strayText
  /-- Markup without the rendering library in scope. -/
  | renderBinding
  /-- A placeholder in a quoted string. -/
  | templateInterpolation
  deriving DecidableEq, Repr

namespace Defect

/-- All defects, in order. -/
def all : List Defect := [.strayText, .renderBinding, .templateInterpolation]

/-- The name of a defect. -/
def name : Defect → String
  | .strayText => "stray-text"
  | .renderBinding => "render-binding"
  | .templateInterpolation => "template-interpolation"

/-- The defect with a name. -/
def ofName? (s : String) : Option Defect := all.find? (·.name == s)

/-- What is wrong with a source that shows the defect. -/
def precondition : Defect → String
  | .strayText => "Stray non-code text at module scope breaks parsing."
  | .renderBinding => "Markup usage requires the rendering library bound in scope."
  | .templateInterpolation => "`$\x7b\x7d` inside a quoted string is never interpolated."

/-- What holds of a source after the repair. -/
def postcondition : Defect → String
  | .strayText => "Replacing each stray line with a line comment restores validity."
  | .renderBinding => "A default or namespace import of React is present."
  | .templateInterpolation => "The string is a template literal with a substitution."

/-- The JSON value of what is said of the defect. -/
def toJson (d : Defect) : Json :=
  .object [
    ("id", .text d.name),
    ("precondition", .text d.precondition),
    ("postcondition", .text d.postcondition)]

/-- Whether a unit shows the defect. -/
def isPresent (d : Defect) (u : ParsedUnit) : Bool :=
  match d with
  | .strayText => u.hasErrors && !(strayLines u.source).isEmpty
  | .renderBinding => u.hasMarkup && !u.bindsRenderLibrary
  | .templateInterpolation => !u.hazards.isEmpty

/-- The line comment that a stray line becomes. -/
def commentOf (l : StrayLine) : List Char := "// ".toList ++ l.text.toList

/-- The lines of a text without the blanks around them. -/
def trimmedLines (text : String) : List (List Char) := (textLines text.toList).map trim

/-- Whether the comment of each stray line is among some lines. -/
def haveComments (present : List (List Char)) (lines : List StrayLine) : Bool :=
  lines.all fun l => present.contains (commentOf l)

/-- Whether the unit `after` carries the marker of the defect's repair in `before`. -/
def hasMarker (d : Defect) (before after : ParsedUnit) : Bool :=
  match d with
  | .strayText =>
    let lines := strayLines before.source
    !lines.isEmpty && haveComments (trimmedLines after.source) lines
  | .renderBinding => after.bindsRenderLibrary
  | .templateInterpolation => 0 < after.interpolatedTemplates

end Defect

/-- The verdict on a repair. -/
structure Verdict where
  defect : Defect
  success : Bool
  patternBefore : Bool
  patternAfter : Bool
  markerPresent : Bool
  /-- There was nothing to repair. -/
  triviallySatisfied : Bool
  errorsBefore : Nat
  errorsAfter : Nat
  message : String
  deriving DecidableEq, Repr

namespace Verdict

/-- The verdict on an attempt that has not come to a result. -/
def failed (d : Defect) (message : String) : Verdict :=
  ⟨d, false, false, false, false, false, 0, 0, message⟩

/-- The verdict on a repair of a defect from one unit to another. -/
def judge (d : Defect) (before after : ParsedUnit) : Verdict :=
  let patternBefore := d.isPresent before
  let patternAfter := d.isPresent after
  let marker := patternBefore && d.hasMarker before after
  let errorsBefore := before.errors.length
  let errorsAfter := after.errors.length
  let fixed := patternBefore && !patternAfter && marker
  let noRegression := decide (errorsAfter ≤ errorsBefore)
  let message :=
    if !noRegression then s!"parse errors increased from {errorsBefore} to {errorsAfter}"
    else if !patternBefore then "pattern absent; trivially satisfied"
    else if patternAfter then "pattern still present after transformation"
    else if !marker then "corrective marker missing"
    else "pattern removed and marker present"
  { defect := d
    success := (fixed || !patternBefore) && noRegression
    patternBefore := patternBefore
    patternAfter := patternAfter
    markerPresent := marker
    triviallySatisfied := !patternBefore
    errorsBefore := errorsBefore
    errorsAfter := errorsAfter
    message := message }

end Verdict

end TreeRepair
