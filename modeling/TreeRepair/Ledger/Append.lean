import TreeRepair.Ledger.Ledger
import TreeRepair.Surroundings

/-!
Appending to a proof ledger in a world: the new record takes its id and its time from there, and its
line goes to the end of the ledger's file.
-/
namespace TreeRepair.ProofLedger

/-- What appending gives: the record, the ledger with it, and the world with its line. -/
structure Appended where
  entry : ProofRecord
  ledger : ProofLedger
  world : World

/-- Appends a record of an attempt. The record is in the ledger even where its line cannot be
written. -/
def append (l : ProofLedger) (env : Surroundings) (w : World) (rule context : String)
    (verdict : Verdict) (duration : Nat) : Appended :=
  let r := l.nextRecord env.contentHash (w.freshId env) (w.now env) rule context verdict duration
  ⟨r, l.push r, w.drawn.withFiles (l.persist w.files r)⟩

end TreeRepair.ProofLedger
