import TreeRepair.Proofs.FileTree.WellFormed

/-! Paths in two trees, and trees that are the same outside a place. A path ends in the same way in two
trees with the same directories on its way. -/

set_option autoImplicit false

namespace TreeRepair

namespace Location

/-- No part of a path leads below a place. -/
def Shuns (d : List String) (l : Location) : Prop := ∀ a n, a <+: l → ¬ d ++ [n] <+: settled a

theorem Shuns.of_prefix {d : List String} {a l : Location} (h : l.Shuns d) (ha : a <+: l) : a.Shuns d :=
  fun b n hb => h b n (hb.trans ha)

theorem length_settleFrom_le (here : List String) (l : Location) : (settleFrom here l).length ≤ here.length + l.length := by
  induction l generalizing here with
  | nil => simp [settleFrom]
  | cons p rest ih =>
    have hsame := ih here
    have hup := ih here.dropLast
    have hdown := ih (here ++ [p])
    simp only [List.length_dropLast, List.length_append, List.length_singleton] at hup hdown
    rw [settleFrom, List.length_cons]
    split
    · omega
    · split <;> omega

theorem shuns_of_length_le {d : List String} {l : Location} (h : l.length ≤ d.length) : l.Shuns d := by
  intro a n ha hp
  have hsettled := length_settleFrom_le [] a
  have hprefix := ha.length_le
  have hlen := hp.length_le
  rw [List.length_append, List.length_singleton] at hlen
  rw [List.length_nil, Nat.zero_add] at hsettled
  rw [settled] at hlen
  omega

end Location

namespace Listing

open Location

variable {t x y : Listing}

/-! ## Paths in two trees -/

theorem Passable.congr {here : List String} {l : Location} (h : t.Passable here l)
    (hd : ∀ a, a <+: l → t.shapeAt? (settleFrom here a) = some .dir → x.shapeAt? (settleFrom here a) = some .dir) :
    x.Passable here l := by
  induction l generalizing here with
  | nil => trivial
  | cons p rest ih =>
    obtain ⟨h1, h2⟩ := h
    refine ⟨hd [] (List.nil_prefix) h1, ?_⟩
    have hrest : ∀ a, a <+: rest → t.shapeAt? (settleFrom here (p :: a)) = some .dir →
        x.shapeAt? (settleFrom here (p :: a)) = some .dir := by
      intro a ha
      apply hd
      simpa using ha
    simp only [settleFrom] at hrest
    split
    · rename_i hv
      simp only [hv, if_true] at h2 hrest
      exact ih h2 hrest
    · rename_i hv
      simp only [hv] at h2 hrest
      split
      · rename_i hu
        simp only [hu, if_true] at h2 hrest
        exact ih h2 hrest
      · rename_i hu
        simp only [hu] at h2 hrest
        exact ⟨h2.1, ih h2.2 hrest⟩

theorem Leads.congr {l : Location} (h : t.Leads l)
    (hd : ∀ a, a <+: l → t.shapeAt? (settled a) = some .dir → x.shapeAt? (settled a) = some .dir) : x.Leads l :=
  ⟨h.1, h.2.congr hd⟩

/-- A path with names at its end leads on in another tree where the directories among the names are. -/
theorem Leads.congr_names {base : Location} {names : List String} (h : t.Leads (base ++ names)) (hb : x.Leads base)
    (hn : ∀ n ∈ names, GoesDown n)
    (hd : ∀ ns, ns <+: names → t.shapeAt? (base.settled ++ ns) = some .dir → x.shapeAt? (base.settled ++ ns) = some .dir) :
    x.Leads (base ++ names) := by
  have hpass := (Passable.append.1 h.2).2
  refine ⟨h.1, Passable.append.2 ⟨hb.2, hpass.congr fun a ha => ?_⟩⟩
  rw [settleFrom_of_goesDown fun n hm => hn n (ha.subset hm)]
  exact hd a ha

/-! ## Changes below a place -/

/-- A tree that comes from another one by changes of files below a place. -/
structure KeptBeyond (d : List String) (t x : Listing) : Prop where
  same : ∀ q, ¬ d <+: q → x.shapeAt? q = t.shapeAt? q
  dirs : ∀ q, x.shapeAt? q = some .dir ↔ t.shapeAt? q = some .dir
  /-- What lies apart from the place has not even been rearranged. -/
  apart : ∀ q, ¬ d <+: q → ¬ q <+: d → x.find? q = t.find? q
  wellFormed : t.WellFormed → x.WellFormed

theorem KeptBeyond.refl (d : List String) (t : Listing) : KeptBeyond d t t :=
  ⟨fun _ _ => rfl, fun _ => Iff.rfl, fun _ _ _ => rfl, id⟩

section KeptBeyond

variable {d : List String}

theorem KeptBeyond.trans (h : KeptBeyond d t x) (h' : KeptBeyond d x y) : KeptBeyond d t y :=
  ⟨fun q hq => (h'.same q hq).trans (h.same q hq), fun q => (h'.dirs q).trans (h.dirs q),
    fun q h1 h2 => (h'.apart q h1 h2).trans (h.apart q h1 h2), fun ht => h'.wellFormed (h.wellFormed ht)⟩

theorem KeptBeyond.leads_iff (h : KeptBeyond d t x) {l : Location} : x.Leads l ↔ t.Leads l :=
  ⟨fun hl => hl.mono fun q => (h.dirs q).1, fun hl => hl.mono fun q => (h.dirs q).2⟩

theorem KeptBeyond.isDir (h : KeptBeyond d t x) {l : Location} (hl : t.isDir l = true) : x.isDir l = true := by
  obtain ⟨hlead, hdir⟩ := isDir_eq_true.1 hl
  exact isDir_eq_true.2 ⟨h.leads_iff.2 hlead, (h.dirs _).2 hdir⟩

theorem KeptBeyond.read_eq_ok (h : KeptBeyond d t x) {l : Location} (hl : ¬ d <+: l.settled) {c : ByteArray} :
    x.read l = .ok c ↔ t.read l = .ok c := by
  rw [Listing.read_eq_ok, Listing.read_eq_ok, h.leads_iff, h.same _ hl]

theorem KeptBeyond.listing_eq_ok (h : KeptBeyond d t x) {l : Location} (h1 : ¬ d <+: l.settled) (h2 : ¬ l.settled <+: d)
    {inner : Listing} : x.listing l = .ok inner ↔ t.listing l = .ok inner := by
  rw [Listing.listing_eq_ok, Listing.listing_eq_ok, h.leads_iff, h.apart _ h1 h2]

theorem not_prefix_append {q : List String} (h1 : ¬ d <+: q) (h2 : ¬ q <+: d) (names : List String) : ¬ d <+: q ++ names :=
  fun hp => (List.prefix_or_prefix_of_prefix hp (List.prefix_append q names)).elim h1 h2

theorem apart_of_prefix {q above : List String} {n : String} (hd : d <+: above ++ [n]) (h1 : ¬ d <+: q) (h2 : ¬ q <+: d) :
    ¬ above ++ [n] <+: q ∧ ¬ q <+: above :=
  ⟨fun hp => h1 (hd.trans hp), fun hp =>
    (List.prefix_or_prefix_of_prefix (hp.trans (List.prefix_append _ _)) hd).elim h2 h1⟩

theorem KeptBeyond.write {l : Location} {c : ByteArray} (hw : t.write l c = .ok x) (hcut : l.IsCut)
    (hd : d <+: l.settled) : KeptBeyond d t x := by
  have hshape := shapeAt?_write hw
  obtain ⟨hlead, -, hnodir, heq⟩ := write_eq_ok hw
  refine ⟨fun q hq => ?_, fun q => ?_, fun q h1 h2 => ?_, fun ht => ht.write hcut hw⟩
  · rw [hshape, if_neg]
    rintro rfl
    exact hq hd
  · rw [hshape]
    split
    · rename_i hq
      subst hq
      simp [hnodir]
    · rfl
  · obtain ⟨above, n, hs, hdir⟩ := hlead.above fun hnil => hnodir (by simp [hnil])
    obtain ⟨h3, h4⟩ := apart_of_prefix (hs ▸ hd) h1 h2
    rw [heq, hs, find?_putAt_of_apart _ hdir h3 h4]

theorem KeptBeyond.removeFile {l : Location} (hr : t.removeFile l = .ok x) (hd : d <+: l.settled) :
    KeptBeyond d t x := by
  have hshape := shapeAt?_removeFile hr
  obtain ⟨hlead, ⟨c, hfile⟩, heq⟩ := removeFile_eq_ok hr
  refine ⟨fun q hq => ?_, fun q => ?_, fun q h1 h2 => ?_, fun ht => ht.removeFile hr⟩
  · rw [hshape, if_neg]
    rintro rfl
    exact hq hd
  · rw [hshape]
    split
    · rename_i hq
      subst hq
      simp [hfile]
    · rfl
  · obtain ⟨above, n, hs, hdir⟩ := hlead.above fun hnil => by simp [hnil] at hfile
    obtain ⟨h3, h4⟩ := apart_of_prefix (hs ▸ hd) h1 h2
    rw [heq, hs, find?_removeAt_of_apart hdir h3 h4]

theorem KeptBeyond.rename {source target : Location} (hr : t.rename source target = .ok x) (hcut : target.IsCut)
    (hs : d <+: source.settled) (ht : d <+: target.settled) : KeptBeyond d t x := by
  unfold Listing.rename at hr
  cases hread : t.read source with
  | error fault => simp [hread] at hr
  | ok c =>
    rw [hread] at hr
    cases hw : t.write target c with
    | error fault => simp [hw] at hr
    | ok written =>
      simp only [hw] at hr
      exact (KeptBeyond.write hw hcut ht).trans (KeptBeyond.removeFile hr hs)

end KeptBeyond

/-- A tree with the same files but for those at some places, and at least the same directories. -/
structure SameFiles (but : List String → Prop) (t x : Listing) : Prop where
  files : ∀ q c, ¬ but q → (x.shapeAt? q = some (.file c) ↔ t.shapeAt? q = some (.file c))
  dirs : ∀ q, t.shapeAt? q = some .dir → x.shapeAt? q = some .dir
  wellFormed : t.WellFormed → x.WellFormed

section SameFiles

variable {but but' : List String → Prop}

theorem SameFiles.refl (but : List String → Prop) (t : Listing) : SameFiles but t t :=
  ⟨fun _ _ _ => Iff.rfl, fun _ h => h, id⟩

theorem SameFiles.trans (h : SameFiles but t x) (h' : SameFiles but x y) : SameFiles but t y :=
  ⟨fun q c hq => (h'.files q c hq).trans (h.files q c hq), fun q hq => h'.dirs q (h.dirs q hq),
    fun ht => h'.wellFormed (h.wellFormed ht)⟩

theorem SameFiles.mono (h : SameFiles but t x) (hb : ∀ q, but q → but' q) : SameFiles but' t x :=
  ⟨fun q c hq => h.files q c fun hp => hq (hb q hp), h.dirs, h.wellFormed⟩

theorem SameFiles.leads (h : SameFiles but t x) {l : Location} (hl : t.Leads l) : x.Leads l := hl.mono h.dirs

theorem SameFiles.isDir (h : SameFiles but t x) {l : Location} (hl : t.isDir l = true) : x.isDir l = true := by
  obtain ⟨hlead, hdir⟩ := isDir_eq_true.1 hl
  exact isDir_eq_true.2 ⟨h.leads hlead, h.dirs _ hdir⟩

theorem SameFiles.read_eq_ok (h : SameFiles but t x) {base : Location} {names : List String} {c : ByteArray}
    (hb : t.Leads base) (hn : ∀ n ∈ names, GoesDown n) (hq : ¬ but (base.settled ++ names)) :
    x.read (base ++ names) = .ok c ↔ t.read (base ++ names) = .ok c := by
  rw [Listing.read_eq_ok, Listing.read_eq_ok, settled_append_names hn, h.files _ c hq]
  refine and_congr_left fun hfile => ⟨fun hlead => hlead.congr_names hb hn fun ns hns hd => ?_, h.leads⟩
  obtain ⟨rest, rfl⟩ := hns
  by_cases hrest : rest = []
  · rw [hrest, List.append_nil] at hfile
    simp [(h.files _ c (by simpa [hrest] using hq)).2 hfile] at hd
  · rw [← List.append_assoc] at hfile
    exact shapeAt?_of_append (by rw [hfile]; simp) hrest

theorem KeptBeyond.sameFiles {d : List String} (h : KeptBeyond d t x) (hb : ∀ q, d <+: q → but q) : SameFiles but t x :=
  ⟨fun q c hq => by rw [h.same q fun hp => hq (hb q hp)], fun q => (h.dirs q).2, h.wellFormed⟩

theorem SameFiles.createDirs {l : Location} (hcut : l.IsCut) : SameFiles but t (t.createDirs l).2 :=
  ⟨fun _ _ _ => shapeAt?_createDirs_file, fun _ hq => shapeAt?_createDirs_dir hq, fun ht => ht.createDirs hcut⟩

end SameFiles

end Listing

end TreeRepair
