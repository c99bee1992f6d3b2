import TreeRepair.Proofs.FileTree.Frames

/-! Rules for the files of a tree. A rule says of a file, by its place and its content, whether it may be there. What is
removed breaks no rule and neither do directories, so a change keeps a rule that what it writes obeys. -/

set_option autoImplicit false

namespace TreeRepair.Listing

open Location

/-- A well-formed tree all of whose files obey a rule. -/
structure EachFile (P : List String → ByteArray → Prop) (t : Listing) : Prop where
  wellFormed : t.WellFormed
  obeys : ∀ q c, t.shapeAt? q = some (.file c) → P q c

variable {P : List String → ByteArray → Prop} {t x : Listing} {l : Location}

theorem EachFile.of_files (h : t.EachFile P) (hwf : x.WellFormed)
    (hfiles : ∀ q c, x.shapeAt? q = some (.file c) → t.shapeAt? q = some (.file c) ∨ P q c) : x.EachFile P :=
  ⟨hwf, fun q c hq => (hfiles q c hq).elim (h.obeys q c) id⟩

theorem EachFile.createDirs (h : t.EachFile P) (hcut : l.IsCut) : (t.createDirs l).2.EachFile P :=
  h.of_files (h.wellFormed.createDirs hcut) fun _ _ hq => .inl (shapeAt?_createDirs_file.1 hq)

theorem EachFile.write (h : t.EachFile P) (hcut : l.IsCut) {c : ByteArray} (hw : t.write l c = .ok x)
    (hP : P l.settled c) : x.EachFile P := by
  refine h.of_files (h.wellFormed.write hcut hw) fun q c' hq => ?_
  rw [shapeAt?_write hw] at hq
  split at hq
  · rename_i heq
    obtain rfl : c = c' := by simpa using hq
    exact .inr (heq ▸ hP)
  · exact .inl hq

theorem EachFile.removeFile (h : t.EachFile P) (hr : t.removeFile l = .ok x) : x.EachFile P := by
  refine h.of_files (h.wellFormed.removeFile hr) fun q c hq => ?_
  rw [shapeAt?_removeFile hr] at hq
  split at hq
  · cases hq
  · exact .inl hq

/-- A file that is taken away again if it can be. -/
theorem EachFile.retract (h : t.EachFile P) (l : Location) : ((t.removeFile l).toOption.getD t).EachFile P := by
  cases hr : t.removeFile l with
  | error fault => exact h
  | ok x => exact h.removeFile hr

theorem EachFile.removeDir (h : t.EachFile P) (l : Location) : (t.removeDir l).2.EachFile P := by
  refine h.of_files (h.wellFormed.removeDir l) fun q c hq => ?_
  rcases shapeAt?_removeDir t l q with hsame | ⟨-, hnone⟩
  · exact .inl (hsame ▸ hq)
  · rw [hnone] at hq
    cases hq

theorem EachFile.rename (h : t.EachFile P) {source target : Location} (hcut : target.IsCut)
    (hr : t.rename source target = .ok x) (hP : ∀ c, P target.settled c) : x.EachFile P := by
  refine h.of_files (h.wellFormed.rename hcut hr) fun q c hq => ?_
  rw [shapeAt?_rename hr] at hq
  split at hq
  · cases hq
  split at hq
  · rename_i heq
    exact .inr (heq ▸ hP c)
  · exact .inl hq

theorem EachFile.sameFiles (h : t.EachFile P) {but : List String → Prop} (hs : SameFiles but t x)
    (hP : ∀ q c, but q → P q c) : x.EachFile P := by
  refine h.of_files (hs.wellFormed h.wellFormed) fun q c hq => ?_
  by_cases hbut : but q
  · exact .inr (hP q c hbut)
  · exact .inl ((hs.files q c hbut).1 hq)

end TreeRepair.Listing
