import TreeRepair.Ledger.Append
import TreeRepair.Proofs.FileTree.Frames
import TreeRepair.Proofs.Snapshot.Copies

/-! What an append leaves behind. The ledger has one record more, and no file but its own is changed. -/

set_option autoImplicit false

namespace TreeRepair.ProofLedger

open Location Listing

variable {l : ProofLedger} {t : Listing} {place : Location}

theorem persist_sameFiles (hfile : l.file = some place) (hcut : place.IsCut) (r : ProofRecord) :
    SameFiles (place.settled <+: ·) t (l.persist t r) := by
  have hmade : SameFiles (place.settled <+: ·) t (t.createDirs place.parent).2 := .createDirs hcut.parent
  unfold persist
  simp only [hfile]
  cases hc : t.createDirs place.parent with
  | mk res made =>
    rw [hc] at hmade
    cases res with
    | error fault => exact hmade
    | ok u =>
      simp only
      split
      · exact hmade
      · rename_i written hw
        exact hmade.trans ((KeptBeyond.write hw hcut (List.prefix_refl _)).sameFiles fun _ hq => hq)

end TreeRepair.ProofLedger
