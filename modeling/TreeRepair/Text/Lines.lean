import TreeRepair.Text.Blank

/-!
Sequences cut at a separator, and two ways to cut a text into lines. `splitLines` keeps every piece
between line feeds, the last one included; `textLines` drops an empty last piece and a carriage
return before a line feed.
-/
namespace TreeRepair.Text

/-- The pieces of a sequence between the items equal to `sep`, at least one. -/
def cutAt {α : Type} [DecidableEq α] (sep : α) : List α → List (List α)
  | [] => [[]]
  | c :: cs =>
    if c = sep then [] :: cutAt sep cs
    else
      match cutAt sep cs with
      | [] => [[c]]
      | l :: ls => (c :: l) :: ls

/-- The pieces between line feeds. -/
def splitLines (cs : List Char) : List (List Char) := cutAt '\n' cs

/-- A sequence without one trailing item equal to `mark`. -/
def dropMark {α : Type} [DecidableEq α] (mark : α) : List α → List α
  | [] => []
  | [c] => if c = mark then [] else [c]
  | c :: d :: cs => c :: dropMark mark (d :: cs)

/-- The pieces that a separator or the end of the text closes, the empty rest behind a last separator
not counted; a `mark` before a closing separator is dropped. -/
def closeLines {α : Type} [DecidableEq α] (mark : α) : List (List α) → List (List α)
  | [] => []
  | [l] => if l = [] then [] else [l]
  | l :: m :: ls => dropMark mark l :: closeLines mark (m :: ls)

/-- The lines of a text. -/
def textLines (cs : List Char) : List (List Char) := closeLines '\r' (splitLines cs)

/-- The pieces of a string between the characters equal to `sep`. -/
def splitString (sep : Char) (s : String) : List String :=
  (cutAt sep s.toList).map String.ofList

end TreeRepair.Text
