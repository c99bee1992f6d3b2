import TreeRepair.Glob.Shape

/-!
How large a machine for patterns is. A machine reads a path forwards, and a second one reads it
backwards. Its states are counted in bytes: each has the same size, and ways out that choose between
several states or bytes come on top.
-/
namespace TreeRepair.Glob

/-- The bytes of a state. -/
def stateSize : Nat := 32

/-- The bytes of a way out of a state that chooses by the next byte. -/
def stepSize : Nat := 8

/-- The bytes of a way out of a state that chooses freely. -/
def choiceSize : Nat := 4

/-- The bytes of the states for one byte of the runs. -/
def byteSize (runs : Runs) : Nat := 2 * stateSize + stepSize * runs.length

/-- The bytes of the states for a choice of several, without what is chosen from. -/
def choiceOf (n : Nat) : Nat := 2 * stateSize + choiceSize * n

/-- Each item once, where it occurs first. -/
def distinct {α : Type} [DecidableEq α] : List α → List α
  | [] => []
  | a :: rest => a :: (distinct rest).filter (· ≠ a)

/-- What follows an item at the front of lists. -/
def tailsBehind {α : Type} [DecidableEq α] (a : α) (lists : List (List α)) : List (List α) :=
  lists.filterMap fun | [] => none | b :: rest => if b = a then some rest else none

/-! ## Texts

A choice between texts is a tree that follows them byte by byte. Where a text ends, the bytes that
follow in later texts are kept apart from those in earlier ones.
-/

/-- The groups of texts between those that have ended; of those in front only one counts. -/
def groupsBetweenEnds (texts : List (List UInt8)) : List (List (List UInt8)) :=
  Text.cutAt [] (if texts.head? = some [] then [] :: texts.dropWhile (· = []) else texts)

/-- The bytes of the states of a tree for texts, without the one at its ends; the fuel bounds their
length. -/
def textTreeSize : Nat → List (List UInt8) → Nat
  | 0, _ => 0
  | fuel + 1, texts =>
    if texts.all List.isEmpty then 0
    else
      let groups := groupsBetweenEnds texts
      let groupSize (group : List (List UInt8)) : Nat :=
        let firsts := distinct (group.filterMap List.head?)
        let below := firsts.map fun b => textTreeSize fuel (tailsBehind b group)
        (if group.isEmpty then 0 else choiceSize + stateSize)
          + (if firsts.length ≤ 1 then 0 else stepSize * firsts.length) + below.sum
      stateSize + choiceSize * (groups.length - 1) + (groups.map groupSize).sum

/-- The bytes of the states for a choice between texts. -/
def textsSize (backwards : Bool) (texts : List (List UInt8)) : Nat :=
  let read := if backwards then texts.map List.reverse else texts
  let longest := (read.map List.length).foldl max 0
  stateSize + textTreeSize (longest + 1) read

/-! ## Characters -/

/-- Where a run of characters has to be cut so that their bytes are all combinations of runs of bytes:
the last number in front of the cut. -/
def cutRun? (r : Nat × Nat) : Option Nat :=
  match [0x7f, 0x7ff, 0xffff].find? fun last => r.1 ≤ last && last < r.2 with
  | some last => some last
  | none =>
    if r.2 < 128 then none
    else [0x40, 0x1000, 0x40000].findSome? fun block =>
      if r.1 / block = r.2 / block then none
      else if r.1 % block ≠ 0 then some (r.1 - r.1 % block + block - 1)
      else if r.2 % block ≠ block - 1 then some (r.2 - r.2 % block - 1)
      else none

/-- The runs of bytes, one behind another, of a run of characters; the fuel bounds the number of cuts
on the way to one of them. -/
def byteRunsOf : Nat → Nat × Nat → List Runs
  | 0, _ => []
  | fuel + 1, r =>
    match cutRun? r with
    | some last => byteRunsOf fuel (r.1, last) ++ byteRunsOf fuel (last + 1, r.2)
    | none =>
      let bytes (n : Nat) : List Nat := (String.utf8EncodeChar (Char.ofNat n)).map UInt8.toNat
      [(bytes r.1).zip (bytes r.2)]

/-- What can be left to read behind the first runs of sequences of runs. -/
def remainders : Nat → List Runs → List (List Runs)
  | 0, _ => []
  | fuel + 1, sequences =>
    if sequences.all List.isEmpty then []
    else
      sequences :: (distinct (sequences.filterMap List.head?)).flatMap fun r =>
        remainders fuel (tailsBehind r sequences)

/-- The bytes of the states that read the bytes of one of several characters. What can be left to read
is a state forwards, what has been read is one backwards. -/
def characterSize (backwards : Bool) (runs : Runs) : Nat :=
  if Shape.isAscii runs then byteSize runs
  else
    let sequences := runs.flatMap (byteRunsOf 32)
    if backwards then
      let read := distinct (sequences.flatMap fun s => (List.range s.length).map fun n => s.take (n + 1))
      choiceOf sequences.length + stateSize * read.length
    else
      let states := distinct (remainders 5 sequences)
      states.foldl (fun n s =>
        n + stateSize + stepSize * (distinct (s.filterMap List.head?)).length) stateSize

/-! ## Machines -/

mutual

/-- The bytes of the states for a shape. -/
def Shape.size (backwards : Bool) : Shape → Nat
  | .empty => stateSize
  | .text bytes => stateSize * bytes.length
  | .byteOf runs => byteSize runs
  | .characterOf runs => characterSize backwards runs
  | .anyRun => stateSize + 2 * choiceSize + byteSize [(0, 255)]
  | .optionalSeparator => choiceOf 2 + stateSize
  | .sequence parts => Shape.sizes backwards parts
  | .choice branches =>
    match branches.mapM Shape.text? with
    | some texts => textsSize backwards texts
    | none => choiceOf branches.length + Shape.sizes backwards branches

/-- The bytes of the states for several shapes. -/
def Shape.sizes (backwards : Bool) : List Shape → Nat
  | [] => 0
  | s :: rest => Shape.size backwards s + Shape.sizes backwards rest

end

/-- The bytes of the states for a pattern: one at each end of a path and one that tells that it matches,
and forwards two that note where the match lies. -/
def patternSize (backwards : Bool) (g : Glob) : Nat :=
  let frame := if backwards then 3 else 5
  match g.shape with
  | .empty => stateSize * frame
  | s => stateSize * frame + s.size backwards

/-- The bytes of a machine for several patterns. -/
def machineSize (backwards : Bool) (globs : List Glob) : Nat :=
  globs.foldl (fun n g => n + patternSize backwards g)
    (stateSize + if globs.length ≤ 1 then 0 else choiceOf globs.length)

/-- The most bytes of the states of a machine. -/
def sizeLimit : Nat := 10 * 1024 * 1024

/-- Whether the machines for patterns are too large. -/
def isTooLarge (globs : List Glob) : Bool :=
  sizeLimit < machineSize false globs || sizeLimit < machineSize true globs

end TreeRepair.Glob
