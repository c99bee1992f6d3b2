import TreeRepair.FileTree.Listing
import TreeRepair.Text.Lines

/-!
Access to a tree of files by absolute paths. A `Location` is a path cut at its separators; `locate`
follows it through directories, where `..` goes up and empty pieces and `.` stay. Each access either
gives its result or says why it fails. A change of one entry that fails changes nothing; making or
removing directories one by one can end half way, so these give the files that are left as well.
-/
namespace TreeRepair

/-- An absolute path below the root of the file tree, cut at its separators. -/
abbrev Location := List String

/-- Why an access to a file fails. -/
inductive FileFault where
  | noEntry
  | alreadyThere
  | noDevice
  | notDirectory
  | isDirectory
  | invalidArgument
  | nameTooLong
  | notEmpty
  /-- A name holds the character with number zero. -/
  | nulByte
  /-- A file that should hold a text is not in UTF-8. -/
  | notText
  deriving DecidableEq, Repr

/-- The wording of a fault. -/
def FileFault.message : FileFault → String
  | .noEntry => "No such file or directory (os error 2)"
  | .alreadyThere => "File exists (os error 17)"
  | .noDevice => "No such device (os error 19)"
  | .notDirectory => "Not a directory (os error 20)"
  | .isDirectory => "Is a directory (os error 21)"
  | .invalidArgument => "Invalid argument (os error 22)"
  | .nameTooLong => "File name too long (os error 36)"
  | .notEmpty => "Directory not empty (os error 39)"
  | .nulByte => "file name contained an unexpected NUL byte"
  | .notText => "stream did not contain valid UTF-8"

namespace Location

/-- Whether a piece stays where it is. -/
def isVoid (piece : String) : Bool := piece == "" || piece == "."

/-- The pieces that say something. -/
def components (l : Location) : List String := l.filter fun p => !isVoid p

/-- Whether two paths have the same components. -/
def same (l m : Location) : Bool := l.components == m.components

/-- Whether the components of `base` begin those of the path. -/
def isBelow (base l : Location) : Bool := base.components.isPrefixOf l.components

/-- A relative path behind a location; an absolute one stands alone. -/
def join (l : Location) (path : String) : Location :=
  match Text.splitString '/' path with
  | "" :: p :: rest => p :: rest
  | pieces => l ++ pieces

/-- A location without its last component. -/
def parent (l : Location) : Location := l.components.dropLast

/-- The paths that end at each component, from the last one up, and the root; the pieces are given from
the end. -/
def upwards : List String → List Location
  | [] => [[]]
  | piece :: above =>
    if isVoid piece then upwards above else (piece :: above).reverse :: upwards above

/-- A path and the paths above it, from the longest to the root. -/
def ancestors (l : Location) : List Location := l :: (upwards l.reverse).tail

/-- A location as a text. -/
def text (l : Location) : String := "/" ++ String.intercalate "/" l

/-- The number of bytes of a location as a text. -/
def byteSize (l : Location) : Nat := l.foldl (fun n p => n + 1 + p.utf8ByteSize) 0

end Location

namespace Listing

/-- The longest name in bytes. -/
def nameLimit : Nat := 255

/-- The longest path in bytes. -/
def pathLimit : Nat := 4095

/-- Whether a name holds the character with number zero. -/
def hasNul (l : Location) : Bool := l.any fun p => p.toList.any (·.toNat == 0)

/-- Refuses what is no path at all. -/
def checkPath (l : Location) : Except FileFault Unit :=
  if hasNul l then .error .nulByte
  else if pathLimit < l.byteSize then .error .nameTooLong
  else .ok ()

/-- The names on the way to a place, given from the last one with the directories that they lie in. -/
def trailNames (trail : List (String × Listing)) : List String := (trail.map (·.1)).reverse

/-- Follows pieces from a place in the tree, given by what is there and the trail to it: the names that
the path stands for, the last of which need not exist. -/
def locateFrom : Option Entry → List (String × Listing) → Location → Except FileFault (List String)
  | _, trail, [] => .ok (trailNames trail)
  | none, _, _ :: _ => .error .noEntry
  | some (.file _), _, _ :: _ => .error .notDirectory
  | some (.dir here), trail, piece :: rest =>
    if Location.isVoid piece then locateFrom (some (.dir here)) trail rest
    else if piece = ".." then
      match trail with
      | [] => locateFrom (some (.dir here)) [] rest
      | (_, above) :: trail => locateFrom (some (.dir above)) trail rest
    else if nameLimit < piece.utf8ByteSize then .error .nameTooLong
    else locateFrom (here.child? piece) ((piece, here) :: trail) rest

/-- The names that a path stands for, the last of which need not exist. -/
def locate (t : Listing) (l : Location) : Except FileFault (List String) :=
  match checkPath l with
  | .ok () => locateFrom (some (.dir t)) [] l
  | .error fault => .error fault

/-! ## Reading -/

/-- What a path stands for. -/
def entryAt (t : Listing) (l : Location) : Except FileFault Entry :=
  match t.locate l with
  | .error fault => .error fault
  | .ok names =>
    match t.find? names with
    | some e => .ok e
    | none => .error .noEntry

/-- Whether a path leads to a file. -/
def isFile (t : Listing) (l : Location) : Bool :=
  match t.entryAt l with
  | .ok (.file _) => true
  | _ => false

/-- Whether a path leads to a directory. -/
def isDir (t : Listing) (l : Location) : Bool :=
  match t.entryAt l with
  | .ok (.dir _) => true
  | _ => false

/-- Whether a path leads to anything. -/
def isThere (t : Listing) (l : Location) : Bool := (t.entryAt l).toOption.isSome

/-- The content of a file. -/
def read (t : Listing) (l : Location) : Except FileFault ByteArray :=
  match t.entryAt l with
  | .ok (.file content) => .ok content
  | .ok (.dir _) => .error .isDirectory
  | .error fault => .error fault

/-- The content of a file that holds a text. -/
def readText (t : Listing) (l : Location) : Except FileFault String :=
  match t.read l with
  | .ok bytes =>
    match String.fromUTF8? bytes with
    | some text => .ok text
    | none => .error .notText
  | .error fault => .error fault

/-- What lies in a directory. -/
def listing (t : Listing) (l : Location) : Except FileFault Listing :=
  match t.entryAt l with
  | .ok (.dir inner) => .ok inner
  | .ok (.file _) => .error .notDirectory
  | .error fault => .error fault

/-- The names on the way to what a path leads to. The path is followed piece by piece, so that its
length does not matter. -/
def canonical (t : Listing) (l : Location) : Except FileFault Location :=
  if hasNul l then .error .nulByte
  else
    match locateFrom (some (.dir t)) [] l with
    | .ok names => if (t.find? names).isSome then .ok names else .error .noEntry
    | .error fault => .error fault

/-- What a path as a text stands for, seen from a directory; the empty text is no path. -/
def canonicalPath (t : Listing) (here : Location) (path : String) : Except FileFault Location :=
  if path.isEmpty then .error .noEntry else t.canonical (here.join path)

/-! ## Changing -/

/-- The pieces of a path without separators at its end, the last one first. -/
def fromLastPiece (l : Location) : List String := l.reverse.dropWhile (· == "")

/-- Writes a file, in place of the one that is there or as a new one. A path with a separator at its end
asks for a directory. -/
def write (t : Listing) (l : Location) (content : ByteArray) : Except FileFault Listing :=
  if l.getLast? = some "" then
    match checkPath l, t.listing (fromLastPiece l).tail.reverse with
    | .error fault, _ => .error fault
    | .ok (), .error fault => .error fault
    | .ok (), .ok _ => .error .isDirectory
  else
    match t.locate l with
    | .error fault => .error fault
    | .ok names =>
      match t.find? names with
      | some (.dir _) => .error .isDirectory
      | _ => .ok (t.putAt names (.file content))

/-- Adds bytes at the end of a file, which is made if need be. -/
def append (t : Listing) (l : Location) (content : ByteArray) : Except FileFault Listing :=
  t.write l ((t.read l).toOption.getD ByteArray.empty ++ content)

/-- Removes a file. -/
def removeFile (t : Listing) (l : Location) : Except FileFault Listing :=
  match t.entryAt l, t.locate l with
  | .ok (.file _), .ok names => .ok (t.removeAt names)
  | .ok (.dir _), _ => .error .isDirectory
  | .error fault, _ => .error fault
  | _, .error fault => .error fault

/-- Takes an empty directory out of the one that it lies in. `.` and `..` are no names under which
one lies there. -/
def removeEmptyDir (t : Listing) (l : Location) : Except FileFault Listing :=
  match fromLastPiece l with
  | [] => .error .notEmpty
  | last :: above =>
    match t.listing above.reverse with
    | .error fault => .error fault
    | .ok _ =>
      if last = "." then .error .invalidArgument
      else if last = ".." then .error .notEmpty
      else
        match t.listing l, t.locate l with
        | .ok .empty, .ok names => .ok (t.removeAt names)
        | .ok _, _ => .error .notEmpty
        | .error fault, _ => .error fault

/-- Removes all that lies in a directory and then the directory itself. Where its path leads nowhere
once what lies in it is gone, it stays and counts as removed. -/
def removeDir (t : Listing) (l : Location) : Except FileFault Unit × Listing :=
  match t.listing l, t.locate l with
  | .ok _, .ok names =>
    let emptied := t.putAt names (.dir .empty)
    match emptied.removeEmptyDir l with
    | .ok left => (.ok (), left)
    | .error .noEntry => (.ok (), emptied)
    | .error fault => (.error fault, emptied)
  | .error fault, _ => (.error fault, t)
  | _, .error fault => (.error fault, t)

/-- Makes a directory in the one that it is to lie in. `.` and `..` are names of what is there. -/
def makeDir (t : Listing) (l : Location) : Except FileFault Listing :=
  match checkPath l, fromLastPiece l with
  | .error fault, _ => .error fault
  | _, [] => .error .alreadyThere
  | _, last :: above =>
    match t.listing above.reverse, t.locate above.reverse with
    | .error fault, _ => .error fault
    | _, .error fault => .error fault
    | .ok inner, .ok names =>
      if last = "." ∨ last = ".." then .error .alreadyThere
      else if nameLimit < last.utf8ByteSize then .error .nameTooLong
      else if (inner.child? last).isSome then .error .alreadyThere
      else .ok (t.putAt (names ++ [last]) (.dir .empty))

/-- Makes the first of some directories, each of which lies below the next. What is missing below is
made only when what lies above is there. -/
def createDirsAlong (t : Listing) : List Location → Except FileFault Unit × Listing
  | [] => (.error .noEntry, t)
  | l :: above =>
    let settle (t : Listing) (fault : FileFault) : Except FileFault Unit × Listing :=
      (if t.isDir l then .ok () else .error fault, t)
    match t.makeDir l with
    | .ok made => (.ok (), made)
    | .error .noEntry =>
      match createDirsAlong t above with
      | (.error fault, left) => (.error fault, left)
      | (.ok (), left) =>
        match left.makeDir l with
        | .ok made => (.ok (), made)
        | .error fault => settle left fault
    | .error fault => settle t fault

/-- Makes a directory and those above it that are missing. Where one cannot be made, those made before
it stay. -/
def createDirs (t : Listing) (l : Location) : Except FileFault Unit × Listing :=
  match checkPath l with
  | .ok () => createDirsAlong t l.ancestors
  | .error fault => (.error fault, t)

/-- Gives a file another path, in place of a file that is there. -/
def rename (t : Listing) (source target : Location) : Except FileFault Listing :=
  match t.read source with
  | .error fault => .error fault
  | .ok content =>
    match t.write target content with
    | .error fault => .error fault
    | .ok written => written.removeFile source

end Listing

end TreeRepair
