import TreeRepair.Glob

/-!
What a pattern comes to before a machine is made for it. A `Shape` is kept simple while it is put
together: texts that follow one another are one text, a choice between single bytes or characters is a
class, and parts that all branches of a choice begin with stand in front of it.
-/
namespace TreeRepair.Glob

/-! ## Runs -/

/-- Runs of numbers, each given by its first and its last one. -/
abbrev Runs := List (Nat × Nat)

/-- Puts a run in front of others that begin no earlier; those that it reaches become part of it. -/
def joinRun (r : Nat × Nat) : Runs → Runs
  | [] => [r]
  | s :: rest => if s.1 ≤ r.2 + 1 then joinRun (r.1, max r.2 s.2) rest else r :: s :: rest

/-- Runs in order, with a gap between any two. -/
def Runs.sorted (runs : Runs) : Runs := (runs.mergeSort fun r s => r.1 ≤ s.1).foldr joinRun []

/-- The runs of bytes that a class accepts. -/
def acceptedRuns (negated : Bool) (ranges : List (Char × Char)) : Runs :=
  let accepted := (List.range 256).filter fun n => inRanges ranges (UInt8.ofNat n) != negated
  Runs.sorted (accepted.map fun n => (n, n))

/-! ## Shapes -/

/-- What is left of a pattern once it is simple. -/
inductive Shape where
  | empty
  | text (bytes : List UInt8)
  /-- One byte of the runs. -/
  | byteOf (runs : Runs)
  /-- One character of the runs. -/
  | characterOf (runs : Runs)
  /-- Any bytes. -/
  | anyRun
  | optionalSeparator
  | sequence (parts : List Shape)
  | choice (branches : List Shape)

namespace Shape

mutual

/-- Whether two shapes are the same. -/
def same : Shape → Shape → Bool
  | .empty, .empty => true
  | .text a, .text b => a == b
  | .byteOf a, .byteOf b => a == b
  | .characterOf a, .characterOf b => a == b
  | .anyRun, .anyRun => true
  | .optionalSeparator, .optionalSeparator => true
  | .sequence a, .sequence b => sameAll a b
  | .choice a, .choice b => sameAll a b
  | _, _ => false

/-- Whether two lists of shapes are the same. -/
def sameAll : List Shape → List Shape → Bool
  | [], [] => true
  | a :: as, b :: bs => same a b && sameAll as bs
  | _, _ => false

end

mutual

/-- The number of shapes in a shape, itself included. -/
def weight : Shape → Nat
  | .sequence parts => weightAll parts + 1
  | .choice branches => weightAll branches + 1
  | _ => 1

/-- The number of shapes in a list of shapes. -/
def weightAll : List Shape → Nat
  | [] => 0
  | s :: rest => weight s + weightAll rest

end

/-! ## Sequences -/

/-- The parts of a shape that follow one another. -/
def parts : Shape → List Shape
  | .empty => []
  | .sequence ps => ps
  | s => [s]

/-- Parts with texts that follow one another put together. -/
def mergeTexts : List Shape → List Shape
  | [] => []
  | .text a :: rest =>
    match mergeTexts rest with
    | .text b :: more => .text (a ++ b) :: more
    | more => .text a :: more
  | s :: rest => s :: mergeTexts rest

/-- Shapes one after another. -/
def ofParts (shapes : List Shape) : Shape :=
  match mergeTexts (shapes.flatMap parts) with
  | [] => .empty
  | [s] => s
  | ps => .sequence ps

/-! ## Choices -/

/-- The branches of a shape. -/
def branches : Shape → List Shape
  | .choice bs => bs
  | s => [s]

/-- One byte of the runs; a single byte is a text. -/
def ofByteRuns : Runs → Shape
  | [(a, b)] => if a = b then .text [UInt8.ofNat a] else .byteOf [(a, b)]
  | runs => .byteOf runs

/-- One character of the runs; a single character is a text. -/
def ofCharacterRuns : Runs → Shape
  | [(a, b)] => if a = b then .text (String.utf8EncodeChar (Char.ofNat a)) else .characterOf [(a, b)]
  | runs => .characterOf runs

/-- The number of the character that a shape is, as a run. -/
def character? : Shape → Option (Nat × Nat)
  | .text bytes =>
    match (String.fromUTF8? bytes.toByteArray).map String.toList with
    | some [c] => some (c.toNat, c.toNat)
    | _ => none
  | _ => none

/-- The byte that a shape is, as a run. -/
def byte? : Shape → Option (Nat × Nat)
  | .text [b] => some (b.toNat, b.toNat)
  | _ => none

/-- Whether no run leaves ASCII. -/
def isAscii (runs : Runs) : Bool := runs.all fun r => r.2 < 128

/-- The runs of characters of a class. -/
def characterRuns? : Shape → Option Runs
  | .characterOf runs => some runs
  | .byteOf runs => if isAscii runs then some runs else none
  | _ => none

/-- The runs of bytes of a class. -/
def byteRuns? : Shape → Option Runs
  | .byteOf runs => some runs
  | .characterOf runs => if isAscii runs then some runs else none
  | _ => none

/-- The class that branches come to, if all are single characters, single bytes or classes. -/
def asClass? (branches : List Shape) : Option Shape :=
  let characters := ((branches.mapM character?).map Runs.sorted).map ofCharacterRuns
  let bytes := ((branches.mapM byte?).map Runs.sorted).map ofByteRuns
  let characterClasses := ((branches.mapM characterRuns?).map (Runs.sorted ·.flatten)).map ofCharacterRuns
  let byteClasses := ((branches.mapM byteRuns?).map (Runs.sorted ·.flatten)).map ofByteRuns
  ((characters.or bytes).or characterClasses).or byteClasses

/-- The parts of a sequence. -/
def sequence? : Shape → Option (List Shape)
  | .sequence ps => some ps
  | _ => none

/-- How many parts two lists have in common in front. -/
def commonFront : List Shape → List Shape → Nat
  | a :: as, b :: bs => if same a b then commonFront as bs + 1 else 0
  | _, _ => 0

/-- What all branches have in common in front, if all are sequences. -/
def sharedFront (branches : List Shape) : List Shape :=
  match branches.mapM sequence? with
  | some (first :: rest) => first.take ((rest.map (commonFront first)).foldl min first.length)
  | _ => []

/-- One of several shapes; the fuel bounds how often a common front is taken out. -/
def ofBranchesFrom : Nat → List Shape → Shape
  | 0, shapes => .choice shapes
  | fuel + 1, shapes =>
    match shapes.flatMap branches with
    | [s] => s
    | flat =>
      match asClass? flat, sharedFront flat with
      | some s, _ => s
      | none, [] => .choice flat
      | none, front =>
        let tails := flat.map fun s => ofParts (s.parts.drop front.length)
        ofParts (front ++ [ofBranchesFrom fuel tails])

/-- One of several shapes. -/
def ofBranches (shapes : List Shape) : Shape := ofBranchesFrom (weightAll shapes + 1) shapes

/-- The text of a shape that is one. -/
def text? : Shape → Option (List UInt8)
  | .text bytes => some bytes
  | _ => none

end Shape

/-! ## Shapes of patterns -/

/-- The separator as a text. -/
def separatorShape : Shape := .text [separator]

mutual

/-- The shape of a token. -/
def Token.shape : Token → Shape
  | .literal c => .text (String.utf8EncodeChar c)
  | .any => .byteOf [(0, 255)]
  | .anyRun => .anyRun
  | .leadingDirs => .choice [.optionalSeparator, .sequence [.anyRun, separatorShape]]
  | .trailingRun => .sequence [separatorShape, .anyRun]
  | .innerDirs => .choice [separatorShape, .sequence [separatorShape, .anyRun, separatorShape]]
  | .byteClass negated ranges => Shape.ofByteRuns (acceptedRuns negated ranges)
  | .alternatives branches =>
    if allVoid branches then .empty else Shape.ofBranches (branchShapes branches)

/-- The shapes of a list of tokens. -/
def tokenShapes : List Token → List Shape
  | [] => []
  | t :: ts => t.shape :: tokenShapes ts

/-- The shapes of the branches that stand for something. -/
def branchShapes : List (List Token) → List Shape
  | [] => []
  | b :: bs =>
    if isVoidBranch b then branchShapes bs else Shape.ofParts (tokenShapes b) :: branchShapes bs

end

/-- The shape of a pattern. -/
def shape (g : Glob) : Shape := Shape.ofParts (tokenShapes g.tokens)

end TreeRepair.Glob
