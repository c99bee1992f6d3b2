import TreeRepair.FileTree.Access
import TreeRepair.Proofs.FileTree.Entries

/-! Where paths lead. Without links a path has one possible end, `Location.settled`, which its pieces
alone determine; the tree only decides whether the path can be followed (`Passable`). So one path
followed in two trees leads to one place, and reading through it is reading there. -/

set_option autoImplicit false

namespace TreeRepair

namespace Location

/-- The names that a path leads to from a place: `..` drops the last of them, void pieces stay. -/
def settleFrom : List String → Location → List String
  | here, [] => here
  | here, piece :: rest =>
    if isVoid piece then settleFrom here rest
    else if piece = ".." then settleFrom here.dropLast rest
    else settleFrom (here ++ [piece]) rest

/-- The names that a path leads to from the root. -/
def settled (l : Location) : List String := settleFrom [] l

/-- A piece that goes down to the entry with its name. -/
def GoesDown (n : String) : Prop := isVoid n = false ∧ n ≠ ".."

theorem settleFrom_append (here : List String) (l m : Location) :
    settleFrom here (l ++ m) = settleFrom (settleFrom here l) m := by
  induction l generalizing here with
  | nil => rfl
  | cons p rest ih =>
    simp only [List.cons_append, settleFrom]
    split
    · exact ih here
    · split <;> exact ih _

theorem settleFrom_of_goesDown {names : List String} (h : ∀ n ∈ names, GoesDown n) (here : List String) :
    settleFrom here names = here ++ names := by
  induction names generalizing here with
  | nil => simp [settleFrom]
  | cons n ns ih =>
    obtain ⟨hv, hu⟩ := h n (List.mem_cons_self ..)
    rw [settleFrom, if_neg (by simp [hv]), if_neg hu, ih (fun m hm => h m (List.mem_cons_of_mem n hm))]
    simp

theorem settled_append (l m : Location) : (l ++ m).settled = settleFrom l.settled m := settleFrom_append [] l m

theorem settled_append_names {names : List String} (h : ∀ n ∈ names, GoesDown n) (l : Location) :
    (l ++ names).settled = l.settled ++ names := by
  rw [settled_append, settleFrom_of_goesDown h]

theorem settleFrom_components (here : List String) (l : Location) :
    settleFrom here l.components = settleFrom here l := by
  induction l generalizing here with
  | nil => rfl
  | cons p rest ih =>
    unfold components at ih ⊢
    rw [List.filter_cons]
    by_cases hv : isVoid p = true
    · simp only [hv, settleFrom, if_true]
      simpa using ih here
    · simp only [Bool.not_eq_true] at hv
      simp [hv, settleFrom, ih]

theorem settled_components (l : Location) : settled l.components = l.settled := settleFrom_components [] l

theorem mem_of_mem_settleFrom {here : List String} {l : Location} {n : String} (h : n ∈ settleFrom here l) :
    n ∈ here ∨ n ∈ l ∧ GoesDown n := by
  induction l generalizing here with
  | nil => exact .inl h
  | cons p rest ih =>
    rw [settleFrom] at h
    split at h
    · exact (ih h).imp_right fun hn => ⟨List.mem_cons_of_mem p hn.1, hn.2⟩
    · rename_i hv
      split at h
      · exact (ih h).imp (fun hn => List.dropLast_subset _ hn) fun hn => ⟨List.mem_cons_of_mem p hn.1, hn.2⟩
      · rename_i hu
        rcases ih h with hn | hn
        · refine (List.mem_append.1 hn).imp_right fun hn => ?_
          rw [List.mem_singleton.1 hn]
          exact ⟨List.mem_cons_self .., by simpa using hv, hu⟩
        · exact .inr ⟨List.mem_cons_of_mem p hn.1, hn.2⟩

theorem mem_of_mem_settled {l : Location} {n : String} (h : n ∈ l.settled) : n ∈ l ∧ GoesDown n :=
  (mem_of_mem_settleFrom h).resolve_left (List.not_mem_nil)

theorem settled_of_void_end (l : Location) {v : String} (hv : isVoid v = true) : (l ++ [v]).settled = l.settled := by
  rw [settled_append, settleFrom, if_pos hv, settleFrom]

end Location

namespace Listing

open Location

/-- Whether a path can be followed from a place: each of its pieces is met in a directory, and no name
is too long. What it leads to need not exist. -/
def Passable (t : Listing) : List String → Location → Prop
  | _, [] => True
  | here, piece :: rest =>
    t.shapeAt? here = some .dir ∧
      if isVoid piece then Passable t here rest
      else if piece = ".." then Passable t here.dropLast rest
      else piece.utf8ByteSize ≤ nameLimit ∧ Passable t (here ++ [piece]) rest

/-- The directories of a trail are those on the way to its end. -/
def Trailed (t : Listing) : List (String × Listing) → Prop
  | [] => True
  | (_, above) :: trail => t.find? (trailNames trail) = some (.dir above) ∧ Trailed t trail

@[simp] theorem trailNames_nil : trailNames [] = [] := rfl

@[simp] theorem trailNames_cons (n : String) (x : Listing) (trail : List (String × Listing)) :
    trailNames ((n, x) :: trail) = trailNames trail ++ [n] := by simp [trailNames]

theorem locateFrom_eq_ok {t : Listing} (trail : List (String × Listing)) (ht : Trailed t trail) (l : Location)
    (names : List String) :
    locateFrom (t.find? (trailNames trail)) trail l = .ok names ↔
      t.Passable (trailNames trail) l ∧ names = settleFrom (trailNames trail) l := by
  induction l generalizing trail with
  | nil =>
    cases t.find? (trailNames trail) <;> simp [locateFrom, Passable, settleFrom, eq_comm]
  | cons piece rest ih =>
    cases hf : t.find? (trailNames trail) with
    | none => simp [locateFrom, Passable, shapeAt?, hf]
    | some e =>
      cases e with
      | file c => simp [locateFrom, Passable, shapeAt?, hf, Entry.shape]
      | dir here =>
        have hs : t.shapeAt? (trailNames trail) = some .dir := shapeAt?_eq_dir.2 ⟨here, hf⟩
        simp only [locateFrom, Passable, settleFrom, hs, true_and]
        by_cases hv : isVoid piece = true
        · simp only [hv, if_true]
          rw [← hf]
          exact ih trail ht
        · simp only [hv]
          by_cases hu : piece = ".."
          · simp only [hu, if_true]
            cases trail with
            | nil =>
              rw [trailNames_nil] at hf
              have hi := ih [] trivial
              rw [trailNames_nil, hf] at hi
              simpa using hi
            | cons step trail =>
              obtain ⟨n, above⟩ := step
              have hi := ih trail ht.2
              rw [ht.1] at hi
              simpa using hi
          · simp only [hu]
            have hchild : here.child? piece = t.find? (trailNames ((piece, here) :: trail)) := by
              rw [trailNames_cons, find?_append, hf, Option.bind_some, ← find?_eq_follow?, find?_cons]
              cases here.child? piece <;> simp [Entry.follow?]
            by_cases hl : nameLimit < piece.utf8ByteSize
            · have hgt : ¬ piece.utf8ByteSize ≤ nameLimit := by omega
              simp [hl, hgt]
            · rw [hchild]
              have hi := ih ((piece, here) :: trail) ⟨hf, ht⟩
              have hle : piece.utf8ByteSize ≤ nameLimit := by omega
              simpa [hl, hle] using hi

theorem locate_eq_ok {t : Listing} {l : Location} {names : List String} :
    t.locate l = .ok names ↔ checkPath l = .ok () ∧ t.Passable [] l ∧ names = l.settled := by
  unfold locate
  cases hc : checkPath l with
  | error fault => simp
  | ok u =>
    have h := locateFrom_eq_ok (t := t) [] trivial l names
    simpa [settled] using h

/-! ## Paths that can be followed -/

theorem Passable.append {t : Listing} {here : List String} {l m : Location} :
    t.Passable here (l ++ m) ↔ t.Passable here l ∧ t.Passable (settleFrom here l) m := by
  induction l generalizing here with
  | nil => simp [Passable, settleFrom]
  | cons p rest ih =>
    simp only [List.cons_append, Passable, settleFrom]
    split
    · rw [ih, and_assoc]
    · split
      · rw [ih, and_assoc]
      · rw [ih]; tauto

theorem Passable.shapeAt?_dropLast {t : Listing} {here : List String} {l : Location}
    (h : t.Passable here l) (hh : t.shapeAt? here.dropLast = some .dir) :
    t.shapeAt? (settleFrom here l).dropLast = some .dir := by
  induction l generalizing here with
  | nil => exact hh
  | cons p rest ih =>
    obtain ⟨hd, hp⟩ := h
    simp only [settleFrom]
    by_cases hv : isVoid p = true
    · simp only [hv, if_true] at hp ⊢
      exact ih hp hh
    · simp only [hv] at hp ⊢
      by_cases hu : p = ".."
      · simp only [hu, if_true] at hp ⊢
        refine ih hp ?_
        by_cases hl : here.dropLast = []
        · simp [hl]
        · refine shapeAt?_of_append (q := [here.dropLast.getLast hl]) ?_ (by simp)
          rw [List.dropLast_append_getLast hl, hh]
          simp
      · simp only [hu] at hp ⊢
        refine ih hp.2 ?_
        rwa [List.dropLast_concat]

theorem Passable.mono {t t' : Listing} {here : List String} {l : Location} (h : t.Passable here l)
    (hd : ∀ p, t.shapeAt? p = some .dir → t'.shapeAt? p = some .dir) : t'.Passable here l := by
  induction l generalizing here with
  | nil => trivial
  | cons p rest ih =>
    obtain ⟨h1, h2⟩ := h
    refine ⟨hd _ h1, ?_⟩
    split
    · rename_i hv
      simp only [hv, if_true] at h2
      exact ih h2
    · rename_i hv
      simp only [hv] at h2
      split
      · rename_i hu
        simp only [hu, if_true] at h2
        exact ih h2
      · rename_i hu
        simp only [hu] at h2
        exact ⟨h2.1, ih h2.2⟩

/-- Names that go down lead to whatever stands there. -/
theorem passable_names {t : Listing} {here names : List String} (h : ∀ n ∈ names, GoesDown n)
    (hl : ∀ n ∈ names, n.utf8ByteSize ≤ nameLimit) (hne : t.shapeAt? (here ++ names) ≠ none) :
    t.Passable here names := by
  induction names generalizing here with
  | nil => trivial
  | cons n ns ih =>
    obtain ⟨hv, hu⟩ := h n (List.mem_cons_self ..)
    refine ⟨shapeAt?_of_append hne (by simp), ?_⟩
    simp only [hv, hu, if_false]
    refine ⟨hl n (List.mem_cons_self ..), ih (fun m hm => h m (List.mem_cons_of_mem n hm))
      (fun m hm => hl m (List.mem_cons_of_mem n hm)) ?_⟩
    simpa using hne

/-! ## Paths that a path begins with -/

theorem prefix_append_cases {a l m : List String} (h : a <+: l ++ m) : a <+: l ∨ ∃ n, a = l ++ n ∧ n <+: m := by
  obtain ⟨t, ht⟩ := h
  rcases List.append_eq_append_iff.1 ht with ⟨x, hx, -⟩ | ⟨x, hx, hm⟩
  · exact .inl ⟨x, hx.symm⟩
  · exact .inr ⟨x, hx, t, hm.symm⟩

theorem Passable.shapeAt?_of_prefix {t : Listing} {here : List String} {a l : Location} (h : t.Passable here l)
    (hd : t.shapeAt? (settleFrom here l) = some .dir) (ha : a <+: l) :
    t.shapeAt? (settleFrom here a) = some .dir := by
  obtain ⟨m, rfl⟩ := ha
  rw [Passable.append] at h
  cases m with
  | nil => simpa using hd
  | cons p rest => exact h.2.1

/-- What a path with names at its end begins with: a directory on the way to the names, or some of the
names. -/
theorem settled_of_prefix {t : Listing} {base a : Location} {names : List String} (h : t.Passable [] base)
    (hd : t.shapeAt? base.settled = some .dir) (hn : ∀ n ∈ names, GoesDown n) (ha : a <+: base ++ names) :
    t.shapeAt? a.settled = some .dir ∨ ∃ ns, ns ≠ [] ∧ ns <+: names ∧ a.settled = base.settled ++ ns := by
  rcases prefix_append_cases ha with hb | ⟨ns, rfl, hns⟩
  · exact .inl (h.shapeAt?_of_prefix hd hb)
  · have hset : settled (base ++ ns) = base.settled ++ ns :=
      settled_append_names (fun n hmem => hn n (hns.subset hmem)) base
    by_cases hne : ns = []
    · subst hne
      exact .inl (by simpa using hd)
    · exact .inr ⟨ns, hne, hns, hset⟩

theorem Passable.components {t : Listing} {here : List String} {l : Location} (h : t.Passable here l) :
    t.Passable here l.components := by
  induction l generalizing here with
  | nil => exact h
  | cons p rest ih =>
    obtain ⟨h1, h2⟩ := h
    cases hv : isVoid p with
    | true => simpa [Location.components, hv] using ih (by simpa [hv] using h2)
    | false =>
      have hc : Location.components (p :: rest) = p :: Location.components rest := by simp [Location.components, hv]
      rw [hc]
      refine ⟨h1, ?_⟩
      simp only [hv, Bool.false_eq_true, if_false] at h2 ⊢
      split
      · rename_i hup
        rw [if_pos hup] at h2
        exact ih h2
      · rename_i hup
        rw [if_neg hup] at h2
        exact ⟨h2.1, ih h2.2⟩

end Listing

end TreeRepair
