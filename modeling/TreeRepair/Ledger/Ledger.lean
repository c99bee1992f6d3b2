import TreeRepair.FileTree.Access
import TreeRepair.Ledger.Record

/-!
Proof ledgers: append-only lists of records, each of which holds the hash of the one before it. A
ledger may have a file with one record a line; `open?` reads it, `append` adds to both, and
`checkChain` recomputes every hash and link.
-/
namespace TreeRepair

/-- A ledger in memory, and the file that it is kept in if there is one. -/
structure ProofLedger where
  records : List ProofRecord
  file : Option Location

namespace ProofLedger

/-- The hash in the place of a previous one in the first record. -/
def genesisHash : String := String.ofList (List.replicate 64 '0')

/-- A ledger without a file and without records. -/
def inMemory : ProofLedger := ⟨[], none⟩

/-- Why a ledger cannot be opened or does not hold together. -/
inductive Error where
  | file (fault : FileFault)
  /-- A line of the file, counted from one, is no record. -/
  | corrupt (line : Nat)
  /-- A record, counted from zero, does not hold the hash of the one before it. -/
  | brokenLink (index : Nat)
  /-- The hash of a record, counted from zero, is not that of its fields. -/
  | brokenContent (index : Nat)
  deriving DecidableEq, Repr

/-- The wording of an error. -/
def Error.message : Error → String
  | .file fault => s!"I/O error: {fault.message}"
  | .corrupt line => s!"Corrupt ledger line {line}"
  | .brokenLink index => s!"Proof chain broken at record {index}: previous hash does not match"
  | .brokenContent index => s!"Proof chain broken at record {index}: content hash mismatch"

/-! ## Reading -/

/-- The lines of a file: what line feeds close, without a carriage return before them, and a last
line without an end. -/
def fileLines (bytes : ByteArray) : List (List UInt8) :=
  Text.closeLines 13 (Text.cutAt 10 bytes.data.toList)

/-- The records of lines, of which blank ones do not count; the first line has the given number. -/
def readLines : Nat → List (List UInt8) → Except Error (List ProofRecord)
  | _, [] => .ok []
  | n, line :: rest =>
    match String.fromUTF8? line.toByteArray with
    | none => .error (.file .notText)
    | some text =>
      if (Text.trim text.toList).isEmpty then readLines (n + 1) rest
      else
        match ProofRecord.ofLine? text with
        | none => .error (.corrupt n)
        | some r => (readLines (n + 1) rest).map (r :: ·)

/-- The records of a file's content. -/
def readRecords (bytes : ByteArray) : Except Error (List ProofRecord) := readLines 1 (fileLines bytes)

/-- Opens the ledger kept in a file; without the file it has no records. -/
def open? (t : Listing) (file : Location) : Except Error ProofLedger :=
  if t.isThere file then
    match t.read file with
    | .error fault => .error (.file fault)
    | .ok bytes => (readRecords bytes).map fun records => ⟨records, some file⟩
  else .ok ⟨[], some file⟩

/-! ## Appending -/

/-- The hash that the next record holds as previous. -/
def head (l : ProofLedger) : String := (l.records.getLast?).elim genesisHash (·.contentHash)

/-- The file tree with a record's line at the end of the ledger's file. If the file cannot be written
the line is missing there. -/
def persist (l : ProofLedger) (t : Listing) (r : ProofRecord) : Listing :=
  match l.file with
  | none => t
  | some file =>
    match t.createDirs file.parent with
    | (.error _, left) => left
    | (.ok (), made) =>
      match made.append file (r.line ++ "\n").toUTF8 with
      | .error _ => made
      | .ok written => written

/-- The next record of a ledger. -/
def nextRecord (hash : HashFunction) (l : ProofLedger) (id : String) (timestamp : Nat)
    (rule context : String) (verdict : Verdict) (duration : Nat) : ProofRecord :=
  ProofRecord.withHash hash ⟨id, verdict.defect, rule, context, verdict, l.head, "", timestamp, duration⟩

/-- A ledger with one more record in memory. -/
def push (l : ProofLedger) (r : ProofRecord) : ProofLedger := ⟨l.records ++ [r], l.file⟩

/-- The first record with an id. -/
def get? (l : ProofLedger) (id : String) : Option ProofRecord := l.records.find? (·.id == id)

/-! ## Checking -/

/-- Checks records from an index on, the first of which is to hold the given previous hash. -/
def checkFrom (hash : HashFunction) : Nat → String → List ProofRecord → Except Error Unit
  | _, _, [] => .ok ()
  | i, expected, r :: rest =>
    if r.previousHash ≠ expected then .error (.brokenLink i)
    else if !r.isSealed hash then .error (.brokenContent i)
    else checkFrom hash (i + 1) r.contentHash rest

/-- Checks every hash and link, and gives the number of records. -/
def checkChain (hash : HashFunction) (l : ProofLedger) : Except Error Nat :=
  (checkFrom hash 0 genesisHash l.records).map fun _ => l.records.length

/-! ## Summary -/

/-- The numbers of a ledger. -/
structure Summary where
  total : Nat
  succeeded : Nat
  failed : Nat
  /-- The defects that records are about, in order. -/
  defects : List Defect
  deriving DecidableEq, Repr

/-- The numbers of a ledger. -/
def summary (l : ProofLedger) : Summary :=
  let succeeded := (l.records.filter (·.verdict.success)).length
  { total := l.records.length
    succeeded := succeeded
    failed := l.records.length - succeeded
    defects := Defect.all.filter fun d => l.records.any (·.defect == d) }

/-- The JSON value of a summary; the rate of success is zero without records. -/
def Summary.toJson (s : Summary) : Json :=
  .object [
    ("total", .nat s.total),
    ("succeeded", .nat s.succeeded),
    ("failed", .nat s.failed),
    ("success_rate", .ratio s.succeeded s.total),
    ("theorems", Json.texts (s.defects.map Defect.name))]

end ProofLedger

end TreeRepair
