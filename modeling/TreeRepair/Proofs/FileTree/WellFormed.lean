import TreeRepair.Proofs.FileTree.Access

/-! Trees that a file system can hold: every name is one that a directory can hold and stands in it
once. All changes keep trees so, as long as their paths are cut at separators. -/

set_option autoImplicit false

namespace TreeRepair

/-- A name that a directory can hold. -/
structure IsName (n : String) : Prop where
  goesDown : Location.GoesDown n
  noSlash : '/' ∉ n.toList
  noNul : ∀ c ∈ n.toList, c.toNat ≠ 0
  short : n.utf8ByteSize ≤ Listing.nameLimit

/-- Each directory holds proper names, and each of them once. -/
def Listing.WellFormed : Listing → Prop
  | .empty => True
  | .file n _ rest => IsName n ∧ rest.child? n = none ∧ rest.WellFormed
  | .dir n inner rest => IsName n ∧ rest.child? n = none ∧ inner.WellFormed ∧ rest.WellFormed

/-- All that lies in an entry is well formed. -/
def Entry.WellFormed : Entry → Prop
  | .file _ => True
  | .dir inner => inner.WellFormed

/-- A path whose pieces hold no separator. -/
def Location.IsCut (l : Location) : Prop := ∀ p ∈ l, '/' ∉ p.toList

instance (n : String) : Decidable (Location.GoesDown n) := inferInstanceAs (Decidable (_ ∧ _))

instance (n : String) : Decidable (IsName n) :=
  have := List.decidableBAll (fun c : Char => c.toNat ≠ 0) n.toList
  decidable_of_iff (Location.GoesDown n ∧ '/' ∉ n.toList ∧ (∀ c ∈ n.toList, c.toNat ≠ 0) ∧
      n.utf8ByteSize ≤ Listing.nameLimit)
    ⟨fun ⟨h1, h2, h3, h4⟩ => ⟨h1, h2, h3, h4⟩, fun ⟨h1, h2, h3, h4⟩ => ⟨h1, h2, h3, h4⟩⟩

instance (l : Location) : Decidable l.IsCut := List.decidableBAll (fun p : String => '/' ∉ p.toList) l

instance Listing.decidableWellFormed : (t : Listing) → Decidable t.WellFormed
  | .empty => isTrue trivial
  | .file n _ rest =>
    have := decidableWellFormed rest
    inferInstanceAs (Decidable (IsName n ∧ rest.child? n = none ∧ rest.WellFormed))
  | .dir n inner rest =>
    have := decidableWellFormed inner
    have := decidableWellFormed rest
    inferInstanceAs (Decidable (IsName n ∧ rest.child? n = none ∧ inner.WellFormed ∧ rest.WellFormed))

namespace Listing

open Location

theorem child?_of_wellFormed {t : Listing} (h : t.WellFormed) {n : String} {e : Entry} (hc : t.child? n = some e) :
    IsName n ∧ e.WellFormed := by
  induction t with
  | empty => simp [child?] at hc
  | file m c rest ih =>
    obtain ⟨hm, -, hr⟩ := h
    simp only [child?] at hc
    split at hc
    · rename_i he
      simp only [Option.some.injEq] at hc
      subst hc he
      exact ⟨hm, trivial⟩
    · exact ih hr hc
  | dir m inner rest _ ih =>
    obtain ⟨hm, -, hi, hr⟩ := h
    simp only [child?] at hc
    split at hc
    · rename_i he
      simp only [Option.some.injEq] at hc
      subst hc he
      exact ⟨hm, hi⟩
    · exact ih hr hc

theorem find?_of_wellFormed {t : Listing} (h : t.WellFormed) {p : List String} {e : Entry}
    (hf : t.find? p = some e) : (∀ n ∈ p, IsName n) ∧ e.WellFormed := by
  induction p generalizing t with
  | nil =>
    simp only [find?_nil, Option.some.injEq] at hf
    subst hf
    exact ⟨by simp, h⟩
  | cons n ns ih =>
    rw [find?_cons] at hf
    obtain ⟨e', hc, hr⟩ := Option.bind_eq_some_iff.1 hf
    obtain ⟨hn, he'⟩ := child?_of_wellFormed h hc
    cases e' with
    | file c =>
      cases ns with
      | nil =>
        simp only [Entry.follow?, Option.some.injEq] at hr
        subst hr
        exact ⟨by simpa using hn, trivial⟩
      | cons m ms => simp [Entry.follow?] at hr
    | dir inner =>
      rw [← find?_eq_follow?] at hr
      obtain ⟨hns, he⟩ := ih he' hr
      exact ⟨List.forall_mem_cons.2 ⟨hn, hns⟩, he⟩

theorem isName_of_shapeAt? {t : Listing} (h : t.WellFormed) {p : List String} (hp : t.shapeAt? p ≠ none) :
    ∀ n ∈ p, IsName n := by
  cases hf : t.find? p with
  | none => exact absurd (shapeAt?_eq_none.2 hf) hp
  | some e => exact (find?_of_wellFormed h hf).1

/-! ## Changes -/

theorem WellFormed.cons {n : String} (hn : IsName n) {e : Entry} (he : e.WellFormed) {t : Listing}
    (ht : t.WellFormed) (hc : t.child? n = none) : (cons n e t).WellFormed := by
  cases e with
  | file c => exact ⟨hn, hc, ht⟩
  | dir inner => exact ⟨hn, hc, he, ht⟩

theorem WellFormed.put {n : String} (hn : IsName n) {e : Entry} (he : e.WellFormed) {t : Listing}
    (ht : t.WellFormed) : (t.put n e).WellFormed := by
  induction t with
  | empty => exact WellFormed.cons hn he trivial rfl
  | file m c rest ih =>
    obtain ⟨hm, hc, hr⟩ := ht
    by_cases h : m = n
    · subst h
      simp only [Listing.put, if_true]
      exact hr.cons hn he hc
    · simp only [Listing.put, h, if_false]
      exact ⟨hm, by rw [child?_put_of_ne (Ne.symm h), hc], ih hr⟩
  | dir m inner rest _ ih =>
    obtain ⟨hm, hc, hi, hr⟩ := ht
    by_cases h : m = n
    · subst h
      simp only [Listing.put, if_true]
      exact hr.cons hn he hc
    · simp only [Listing.put, h, if_false]
      exact ⟨hm, by rw [child?_put_of_ne (Ne.symm h), hc], hi, ih hr⟩

theorem WellFormed.remove {t : Listing} (ht : t.WellFormed) (n : String) : (t.remove n).WellFormed := by
  have hkeep : ∀ (x : Listing) (m : String), x.child? m = none → (x.remove n).child? m = none := by
    intro x m hm
    by_cases h : n = m
    · subst h; simp
    · rw [child?_remove_of_ne h, hm]
  induction t with
  | empty => trivial
  | file m c rest ih =>
    obtain ⟨hm, hc, hr⟩ := ht
    simp only [Listing.remove]
    split
    · exact ih hr
    · exact ⟨hm, hkeep _ _ hc, ih hr⟩
  | dir m inner rest _ ih =>
    obtain ⟨hm, hc, hi, hr⟩ := ht
    simp only [Listing.remove]
    split
    · exact ih hr
    · exact ⟨hm, hkeep _ _ hc, hi, ih hr⟩

theorem WellFormed.putAt {t : Listing} (ht : t.WellFormed) {p : List String} (hp : ∀ n ∈ p.getLast?, IsName n)
    {e : Entry} (he : e.WellFormed) : (t.putAt p e).WellFormed := by
  induction p generalizing t with
  | nil => exact ht
  | cons n ns ih =>
    cases ns with
    | nil => exact ht.put (hp n (by simp)) he
    | cons m ms =>
      simp only [Listing.putAt]
      cases hc : t.child? n with
      | none => exact ht
      | some x =>
        obtain ⟨hn, hx⟩ := child?_of_wellFormed ht hc
        cases x with
        | file c => exact ht
        | dir inner => exact ht.put hn (e := .dir _) (ih (t := inner) hx (by simpa using hp))

theorem WellFormed.removeAt {t : Listing} (ht : t.WellFormed) (p : List String) : (t.removeAt p).WellFormed := by
  induction p generalizing t with
  | nil => exact ht
  | cons n ns ih =>
    cases ns with
    | nil => exact ht.remove n
    | cons m ms =>
      simp only [Listing.removeAt]
      cases hc : t.child? n with
      | none => exact ht
      | some x =>
        obtain ⟨hn, hx⟩ := child?_of_wellFormed ht hc
        cases x with
        | file c => exact ht
        | dir inner => exact ht.put hn (e := .dir _) (ih (t := inner) hx)

/-! ## Accesses -/

theorem isName_of_mem {l : Location} {n : String} (hcut : l.IsCut) (hc : checkPath l = .ok ()) (hn : n ∈ l)
    (hgo : GoesDown n) (hs : n.utf8ByteSize ≤ nameLimit) : IsName n := by
  refine ⟨hgo, hcut n hn, ?_, hs⟩
  intro c hmem hzero
  have hnul := (checkPath_eq_ok.1 hc).1
  rw [hasNul, List.any_eq_false] at hnul
  refine hnul n hn (List.any_eq_true.2 ⟨c, hmem, ?_⟩)
  simpa using hzero

/-- The names at the end of a path that can be followed are among those passed on the way, or pieces
of the path. -/
theorem mem_settleFrom {t : Listing} {here : List String} {l : Location} (h : t.Passable here l) {n : String}
    (hn : n ∈ settleFrom here l) : n ∈ here ∨ n ∈ l ∧ GoesDown n ∧ n.utf8ByteSize ≤ nameLimit := by
  induction l generalizing here with
  | nil => exact .inl hn
  | cons p rest ih =>
    obtain ⟨-, hp⟩ := h
    rw [settleFrom] at hn
    by_cases hv : isVoid p = true
    · simp only [hv, if_true] at hp hn
      exact (ih hp hn).imp_right fun h => ⟨List.mem_cons_of_mem p h.1, h.2⟩
    · by_cases hu : p = ".."
      · simp only [hu, if_true] at hp hn
        rcases ih hp hn with h | ⟨h1, h2⟩
        · exact .inl (List.dropLast_subset _ h)
        · exact .inr ⟨List.mem_cons_of_mem p h1, h2⟩
      · simp only [hv, hu, if_false] at hp hn
        rcases ih hp.2 hn with h | ⟨h1, h2⟩
        · rcases List.mem_append.1 h with h | h
          · exact .inl h
          · rw [List.mem_singleton] at h
            subst h
            exact .inr ⟨List.mem_cons_self .., ⟨by simpa using hv, hu⟩, hp.1⟩
        · exact .inr ⟨List.mem_cons_of_mem p h1, h2⟩

theorem Leads.isName {t : Listing} {l : Location} (h : t.Leads l) (hcut : l.IsCut) :
    ∀ n ∈ l.settled, IsName n := by
  intro n hn
  rcases mem_settleFrom h.2 hn with h' | ⟨h1, h2, h3⟩
  · simp at h'
  · exact isName_of_mem hcut h.1 h1 h2 h3

theorem WellFormed.write {t t' : Listing} (ht : t.WellFormed) {l : Location} (hcut : l.IsCut) {c : ByteArray}
    (h : t.write l c = .ok t') : t'.WellFormed := by
  obtain ⟨hl, -, -, rfl⟩ := write_eq_ok h
  exact ht.putAt (fun n hn => hl.isName hcut n (List.mem_of_mem_getLast? hn)) trivial

theorem WellFormed.removeFile {t t' : Listing} (ht : t.WellFormed) {l : Location} (h : t.removeFile l = .ok t') :
    t'.WellFormed := by
  obtain ⟨-, -, rfl⟩ := removeFile_eq_ok h
  exact ht.removeAt _

theorem IsCut.of_prefix {a l : Location} (hl : l.IsCut) (h : a <+: l) : a.IsCut :=
  fun p hp => hl p (h.subset hp)

theorem WellFormed.makeDir {t t' : Listing} (ht : t.WellFormed) {l : Location} (hcut : l.IsCut)
    (h : t.makeDir l = .ok t') : t'.WellFormed := by
  obtain ⟨above, n, hs, hn, hgo, hlen, hc, -, -, rfl⟩ := makeDir_eq_ok h
  refine ht.putAt ?_ (e := .dir .empty) trivial
  rw [hs]
  simpa using isName_of_mem hcut hc hn hgo hlen

theorem WellFormed.createDirs {t : Listing} (ht : t.WellFormed) {l : Location} (hcut : l.IsCut) :
    (t.createDirs l).2.WellFormed :=
  createDirs_induct ht fun _ _ _ ha hx hm => hx.makeDir (IsCut.of_prefix hcut ha) hm

theorem WellFormed.removeDir {t : Listing} (ht : t.WellFormed) (l : Location) :
    (t.removeDir l).2.WellFormed := by
  unfold Listing.removeDir
  cases hi : t.listing l with
  | error fault => exact ht
  | ok inner =>
    obtain ⟨hl, hf⟩ := listing_eq_ok.1 hi
    have hempty : (t.putAt l.settled (.dir .empty)).WellFormed :=
      ht.putAt (fun n hn => (find?_of_wellFormed ht hf).1 n (List.mem_of_mem_getLast? hn)) trivial
    rw [locate_of_leads hl]
    cases hr : (t.putAt l.settled (.dir .empty)).removeEmptyDir l with
    | ok left =>
      obtain ⟨-, rfl⟩ := removeEmptyDir_eq_ok hr
      simpa only [hr] using hempty.removeAt _
    | error fault => cases fault <;> simpa only [hr] using hempty

theorem WellFormed.rename {t t' : Listing} (ht : t.WellFormed) {source target : Location}
    (hcut : target.IsCut) (h : t.rename source target = .ok t') : t'.WellFormed := by
  unfold Listing.rename at h
  cases hr : t.read source with
  | error fault => simp [hr] at h
  | ok c =>
    rw [hr] at h
    cases hw : t.write target c with
    | error fault => simp [hw] at h
    | ok written =>
      simp only [hw] at h
      exact (ht.write hcut hw).removeFile h

/-! ## The entries of a directory -/

theorem child?_of_mem_entries {t : Listing} {n : String} {e : Entry} (h : (n, e) ∈ t.entries) : t.child? n ≠ none := by
  induction t with
  | empty => simp [entries] at h
  | file m c rest ih =>
    rw [entries, List.mem_cons] at h
    rw [child?]
    split
    · simp
    · rename_i hne
      refine ih (h.resolve_left fun heq => hne ?_)
      exact (Prod.mk.inj heq).1.symm
  | dir m inner rest _ ih =>
    rw [entries, List.mem_cons] at h
    rw [child?]
    split
    · simp
    · rename_i hne
      refine ih (h.resolve_left fun heq => hne ?_)
      exact (Prod.mk.inj heq).1.symm

theorem mem_entries_of_child? {t : Listing} {n : String} {e : Entry} (h : t.child? n = some e) : (n, e) ∈ t.entries := by
  induction t with
  | empty => simp [child?] at h
  | file m c rest ih =>
    rw [child?] at h
    rw [entries, List.mem_cons]
    split at h
    · rename_i heq
      exact .inl (by rw [heq, ← Option.some.inj h])
    · exact .inr (ih h)
  | dir m inner rest _ ih =>
    rw [child?] at h
    rw [entries, List.mem_cons]
    split at h
    · rename_i heq
      exact .inl (by rw [heq, ← Option.some.inj h])
    · exact .inr (ih h)

theorem WellFormed.entries_pairwise {t : Listing} (ht : t.WellFormed) : t.entries.Pairwise fun a b => a.1 ≠ b.1 := by
  induction t with
  | empty => exact List.Pairwise.nil
  | file m c rest ih =>
    obtain ⟨-, hnone, hr⟩ := ht
    refine List.pairwise_cons.2 ⟨fun a ha heq => ?_, ih hr⟩
    simp only at heq
    exact child?_of_mem_entries (show (a.1, a.2) ∈ _ from ha) (heq ▸ hnone)
  | dir m inner rest _ ih =>
    obtain ⟨-, hnone, -, hr⟩ := ht
    refine List.pairwise_cons.2 ⟨fun a ha heq => ?_, ih hr⟩
    simp only at heq
    exact child?_of_mem_entries (show (a.1, a.2) ∈ _ from ha) (heq ▸ hnone)

end Listing

end TreeRepair
