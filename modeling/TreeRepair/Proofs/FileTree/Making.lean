import Mathlib.Data.List.Induction
import TreeRepair.Proofs.FileTree.Keys

/-! Making what lies on the way to a file. Below a directory that is there, directories can be made and
a file can be written behind them, unless a file is in the way or a directory in its place. -/

set_option autoImplicit false

namespace TreeRepair

namespace Listing

open Location

variable {t x : Listing} {base l m : Location} {names more : List String} {n : String}

/-! ## Parts of a path -/

theorem exists_rest_of_prefix {ns names : List String} (hne : names ≠ []) (h : ns <+: names.dropLast) :
    ∃ rest, rest ≠ [] ∧ ns ++ rest = names := by
  obtain ⟨rest, rfl⟩ := h.trans (List.dropLast_prefix names)
  refine ⟨rest, ?_, rfl⟩
  rintro rfl
  rw [List.append_nil] at h hne
  have hlen := h.length_le
  rw [List.length_dropLast] at hlen
  have hpos := List.length_pos_of_ne_nil hne
  omega

theorem byteSize_le_of_sublist (h : l.Sublist m) : l.byteSize ≤ m.byteSize := by
  induction h with
  | slnil => exact Nat.le_refl _
  | @cons l m p _ ih =>
    have hcons : byteSize (p :: m) = byteSize [p] + byteSize m := byteSize_append [p] m
    omega
  | @cons_cons l m p _ ih =>
    have hl : byteSize (p :: l) = byteSize [p] + byteSize l := byteSize_append [p] l
    have hm : byteSize (p :: m) = byteSize [p] + byteSize m := byteSize_append [p] m
    omega

theorem checkPath_of_sublist (h : l.Sublist m) (hm : checkPath m = .ok ()) : checkPath l = .ok () := by
  rw [checkPath_eq_ok] at hm ⊢
  refine ⟨?_, Nat.le_trans (byteSize_le_of_sublist h) hm.2⟩
  have hnul := hm.1
  rw [hasNul, List.any_eq_false] at hnul ⊢
  exact fun p hp => hnul p (h.subset hp)

theorem Leads.components (h : t.Leads l) : t.Leads l.components :=
  ⟨checkPath_of_sublist List.filter_sublist h.1, h.2.components⟩

theorem isDir_components (h : t.isDir l = true) : t.isDir l.components = true := by
  obtain ⟨hl, hd⟩ := isDir_eq_true.1 h
  exact isDir_eq_true.2 ⟨hl.components, by rw [settled_components, hd]⟩

/-! ## Paths that lead nowhere -/

/-- A path that begins with one that can be followed is followed from the end of that one. -/
theorem locateFrom_append (trail : List (String × Listing)) (ht : Trailed t trail)
    (h : t.Passable (trailNames trail) l) :
    ∃ trail', Trailed t trail' ∧ trailNames trail' = settleFrom (trailNames trail) l ∧ ∀ m,
      locateFrom (t.find? (trailNames trail)) trail (l ++ m) = locateFrom (t.find? (trailNames trail')) trail' m := by
  induction l generalizing trail with
  | nil => exact ⟨trail, ht, rfl, fun m => rfl⟩
  | cons piece rest ih =>
    obtain ⟨hd, hrest⟩ := h
    obtain ⟨here, hf⟩ := shapeAt?_eq_dir.1 hd
    rw [settleFrom]
    by_cases hv : isVoid piece = true
    · rw [if_pos hv] at hrest ⊢
      obtain ⟨trail', h1, h2, h3⟩ := ih trail ht hrest
      refine ⟨trail', h1, h2, fun m => ?_⟩
      rw [← h3, List.cons_append, hf]
      simp only [locateFrom, hv, if_true]
    · rw [if_neg hv] at hrest ⊢
      by_cases hu : piece = ".."
      · subst hu
        rw [if_pos rfl] at hrest ⊢
        cases trail with
        | nil =>
          obtain ⟨trail', h1, h2, h3⟩ := ih [] trivial hrest
          refine ⟨trail', h1, h2, fun m => ?_⟩
          rw [← h3, List.cons_append, hf]
          simp only [locateFrom, hv, Bool.false_eq_true, if_true, if_false]
        | cons step above =>
          obtain ⟨name, inner⟩ := step
          have hup : (trailNames ((name, inner) :: above)).dropLast = trailNames above := by simp
          rw [hup] at hrest ⊢
          obtain ⟨trail', h1, h2, h3⟩ := ih above ht.2 hrest
          refine ⟨trail', h1, h2, fun m => ?_⟩
          rw [← h3, ht.1, List.cons_append, hf]
          simp only [locateFrom, hv, Bool.false_eq_true, if_true, if_false]
      · rw [if_neg hu] at hrest ⊢
        have hchild : here.child? piece = t.find? (trailNames ((piece, here) :: trail)) := by
          rw [trailNames_cons, find?_append, hf, Option.bind_some, ← find?_eq_follow?, find?_cons]
          cases here.child? piece <;> simp [Entry.follow?]
        have hgo := ih ((piece, here) :: trail) ⟨hf, ht⟩
        rw [trailNames_cons] at hgo
        obtain ⟨trail', h1, h2, h3⟩ := hgo hrest.2
        refine ⟨trail', h1, h2, fun m => ?_⟩
        rw [← h3, ← trailNames_cons, ← hchild, List.cons_append, hf]
        simp only [locateFrom, hv, hu, Nat.not_lt.2 hrest.1, Bool.false_eq_true, if_false]

/-- Names of directories that are there or can be made below one that is there. -/
structure Makeable (t : Listing) (base : Location) (names : List String) : Prop where
  isDir : t.isDir base = true
  goesDown : ∀ n ∈ names, GoesDown n
  short : ∀ n ∈ names, n.utf8ByteSize ≤ nameLimit
  path : checkPath (base ++ names) = .ok ()
  noFile : ∀ front c, front <+: names → t.shapeAt? (base.settled ++ front) ≠ some (.file c)

theorem Makeable.init (h : t.Makeable base (names ++ [n])) : t.Makeable base names where
  isDir := h.isDir
  goesDown m hm := h.goesDown m (List.mem_append_left _ hm)
  short m hm := h.short m (List.mem_append_left _ hm)
  path := checkPath_of_sublist ((List.Sublist.refl base).append (List.sublist_append_left names [n])) h.path
  noFile front c hf := h.noFile front c (hf.trans (List.prefix_append _ _))

theorem Makeable.settled (h : t.Makeable base names) : Location.settled (base ++ names) = base.settled ++ names :=
  settled_append_names h.goesDown base

/-- Names that meet no file lead to their place or, where something on the way is missing, nowhere. -/
theorem locateFrom_names (trail : List (String × Listing)) (ht : Trailed t trail) (hgo : ∀ n ∈ names, GoesDown n)
    (hshort : ∀ n ∈ names, n.utf8ByteSize ≤ nameLimit)
    (hfree : ∀ front c, front <+: names → t.shapeAt? (trailNames trail ++ front) ≠ some (.file c)) :
    locateFrom (t.find? (trailNames trail)) trail names = .error .noEntry ∨
      locateFrom (t.find? (trailNames trail)) trail names = .ok (trailNames trail ++ names) := by
  induction names generalizing trail with
  | nil =>
    cases t.find? (trailNames trail) with
    | none => simp [locateFrom]
    | some e => cases e <;> simp [locateFrom]
  | cons n rest ih =>
    obtain ⟨hv, hu⟩ := hgo n (List.mem_cons_self ..)
    have hlen : ¬ nameLimit < n.utf8ByteSize := Nat.not_lt.2 (hshort n (List.mem_cons_self ..))
    cases hf : t.find? (trailNames trail) with
    | none => exact .inl rfl
    | some e =>
      cases e with
      | file c =>
        have hfile := hfree [] c List.nil_prefix
        rw [List.append_nil] at hfile
        exact absurd (shapeAt?_eq_file.2 hf) hfile
      | dir here =>
        have hchild : here.child? n = t.find? (trailNames ((n, here) :: trail)) := by
          rw [trailNames_cons, find?_append, hf, Option.bind_some, ← find?_eq_follow?, find?_cons]
          cases here.child? n <;> simp [Entry.follow?]
        have hnext := ih ((n, here) :: trail) ⟨hf, ht⟩ (fun m hm => hgo m (List.mem_cons_of_mem n hm))
          (fun m hm => hshort m (List.mem_cons_of_mem n hm)) fun front c hfront => by
            have hthis := hfree (n :: front) c (List.cons_prefix_cons.2 ⟨rfl, hfront⟩)
            rwa [trailNames_cons, List.append_assoc]
        rw [trailNames_cons, List.append_assoc, List.singleton_append, ← trailNames_cons] at hnext
        simpa only [locateFrom, hv, hu, hlen, Bool.false_eq_true, if_false, hchild] using hnext

/-- Where a directory is missing, what its path stands for is reported as missing. -/
theorem Makeable.entryAt (h : t.Makeable base names) (hnone : t.shapeAt? (base.settled ++ names) = none) :
    t.entryAt (base ++ names) = .error .noEntry := by
  obtain ⟨⟨-, hpass⟩, -⟩ := isDir_eq_true.1 h.isDir
  obtain ⟨trail, ht, hnames, hfollow⟩ := locateFrom_append (t := t) [] trivial hpass
  have hset : trailNames trail = base.settled := hnames
  have hend := locateFrom_names trail ht h.goesDown h.short (by rw [hset]; exact h.noFile)
  rw [← hfollow, hset] at hend
  rw [Listing.entryAt, locate, h.path]
  change locateFrom (some (.dir t)) [] (base ++ names) = _ ∨ locateFrom (some (.dir t)) [] (base ++ names) = _ at hend
  rcases hend with hend | hend
  · rw [hend]
  · rw [hend]
    simp only
    rw [shapeAt?_eq_none.1 hnone]

/-! ## Making one directory -/

theorem makeDir_of_isDir (hd : t.isDir l = true) (hn : GoesDown n) (hlen : n.utf8ByteSize ≤ nameLimit)
    (hc : checkPath (l ++ [n]) = .ok ()) (hnone : t.shapeAt? (l.settled ++ [n]) = none) :
    t.makeDir (l ++ [n]) = .ok (t.putAt (l.settled ++ [n]) (.dir .empty)) := by
  obtain ⟨hlead, hshape⟩ := isDir_eq_true.1 hd
  obtain ⟨inner, hf⟩ := shapeAt?_eq_dir.1 hshape
  have hchild : inner.child? n = none := by
    rw [shapeAt?_append_of_dir hf, shapeAt?, find?_cons] at hnone
    cases hx : inner.child? n with
    | none => rfl
    | some e => simp [hx, Entry.follow?] at hnone
  have hdots : ¬ (n = "." ∨ n = "..") := by
    rintro (rfl | rfl)
    · exact absurd hn.1 (by decide)
    · exact hn.2 rfl
  rw [makeDir, hc, fromLastPiece_concat hn]
  simp only [List.reverse_reverse, listing_eq_ok.2 ⟨hlead, hf⟩, locate_of_leads hlead, hchild]
  rw [if_neg hdots, if_neg (by omega)]
  simp

theorem Makeable.makeDir_of_none (h : t.Makeable base (names ++ [n])) (hnone : t.shapeAt? (base.settled ++ names) = none) :
    t.makeDir (base ++ (names ++ [n])) = .error .noEntry := by
  have hn : GoesDown n := h.goesDown n (by simp)
  have hlist : t.listing (base ++ names) = .error .noEntry := by rw [listing, h.init.entryAt hnone]
  have hpath := h.path
  rw [← List.append_assoc] at hpath ⊢
  rw [makeDir, hpath, fromLastPiece_concat hn]
  simp only [List.reverse_reverse, hlist]

/-! ## Making all directories on the way -/

theorem upwards_concat (hv : isVoid n = false) (l : Location) :
    upwards (l ++ [n]).reverse = (l ++ [n]) :: upwards l.reverse := by
  simp [upwards, hv]

theorem createDirsAlong_upwards (h : t.isDir l = true) : t.createDirsAlong (upwards l.reverse) = (.ok (), t) := by
  induction l using List.reverseRecOn with
  | nil => exact createDirsAlong_of_isDir h _
  | append_singleton l piece ih =>
    by_cases hv : isVoid piece = true
    · obtain ⟨⟨hc, hpass⟩, hd⟩ := isDir_eq_true.1 h
      rw [settled_of_void_end l hv] at hd
      rw [List.reverse_append, List.reverse_singleton, List.singleton_append, upwards, if_pos hv]
      exact ih (isDir_eq_true.2 ⟨⟨checkPath_of_append hc, (Passable.append.1 hpass).1⟩, hd⟩)
    · rw [upwards_concat (by simpa using hv)]
      exact createDirsAlong_of_isDir h _

/-- A tree in which directories have been made, up to the last of some names. -/
structure Made (t : Listing) (base : Location) (names : List String) (x : Listing) : Prop where
  isDir : x.isDir (base ++ names) = true
  beyond : ∀ q, ¬ q <+: names → x.shapeAt? (base.settled ++ q) = t.shapeAt? (base.settled ++ q)

theorem Makeable.made_of_isDir (h : t.Makeable base (names ++ [n])) (hx : t.Made base names x)
    (hnone : t.shapeAt? (base.settled ++ (names ++ [n])) = none) :
    ∃ y, x.makeDir (base ++ names ++ [n]) = .ok y ∧ t.Made base (names ++ [n]) y := by
  have hn : GoesDown n := h.goesDown n (by simp)
  have hlen : n.utf8ByteSize ≤ nameLimit := h.short n (by simp)
  have hpath := h.path
  rw [← List.append_assoc] at hpath
  have hset := h.init.settled
  have hfree : x.shapeAt? (Location.settled (base ++ names) ++ [n]) = none := by
    rw [hset, List.append_assoc, hx.beyond _ not_append_prefix, hnone]
  have hmake := makeDir_of_isDir hx.isDir hn hlen hpath hfree
  have hshape := shapeAt?_makeDir hmake
  have hplace : Location.settled (base ++ names ++ [n]) = base.settled ++ (names ++ [n]) := by
    rw [List.append_assoc, h.settled]
  rw [hplace] at hshape
  refine ⟨_, hmake, ?_, fun q hq => ?_⟩
  · obtain ⟨hlead, hdir⟩ := isDir_eq_true.1 hx.isDir
    have hkeep : ∀ q, x.shapeAt? q = some .dir →
        (x.putAt (Location.settled (base ++ names) ++ [n]) (.dir .empty)).shapeAt? q = some .dir := by
      intro q hq
      rw [hshape]
      split
      · rfl
      · exact hq
    rw [← List.append_assoc]
    refine isDir_eq_true.2 ⟨⟨hpath, Passable.append.2 ⟨(hlead.mono hkeep).2, hkeep _ hdir, ?_⟩⟩, ?_⟩
    · rw [hn.1, if_neg (by simp), if_neg hn.2]
      exact ⟨hlen, trivial⟩
    · rw [hplace, hshape, if_pos rfl]
  · have hother : base.settled ++ q ≠ base.settled ++ (names ++ [n]) := fun heq => by
      obtain rfl := List.append_cancel_left heq
      exact hq (List.prefix_refl _)
    rw [hshape, if_neg hother, hx.beyond]
    exact fun hp => hq (hp.trans (List.prefix_append _ _))

theorem Makeable.isDir_of_dir (h : t.Makeable base names) (hd : t.shapeAt? (base.settled ++ names) = some .dir) :
    t.isDir (base ++ names) = true := by
  refine isDir_eq_true.2 ⟨⟨h.path, Passable.append.2 ⟨(isDir_eq_true.1 h.isDir).1.2, ?_⟩⟩, by rw [h.settled, hd]⟩
  refine passable_names h.goesDown h.short ?_
  change t.shapeAt? (base.settled ++ names) ≠ none
  simp [hd]

/-- Directories below one that is there are made, from the last one that is there on. -/
theorem Makeable.createDirsAlong (h : t.Makeable base names) :
    ∃ x, t.createDirsAlong (upwards (base ++ names).reverse) = (.ok (), x) ∧ t.Made base names x := by
  induction names using List.reverseRecOn with
  | nil =>
    rw [List.append_nil]
    refine ⟨t, createDirsAlong_upwards h.isDir, ?_, fun _ _ => rfl⟩
    rw [List.append_nil]
    exact h.isDir
  | append_singleton names n ih =>
    obtain ⟨x, hx, hmade⟩ := ih h.init
    have hv : isVoid n = false := (h.goesDown n (by simp)).1
    rw [← List.append_assoc, upwards_concat hv]
    cases hshape : t.shapeAt? (base.settled ++ (names ++ [n])) with
    | some shape =>
      cases shape with
      | file c => exact absurd hshape (h.noFile _ c (List.prefix_refl _))
      | dir =>
        have hdir := h.isDir_of_dir hshape
        refine ⟨t, ?_, hdir, fun _ _ => rfl⟩
        rw [← List.append_assoc] at hdir
        exact createDirsAlong_of_isDir hdir _
    | none =>
      simp only [Listing.createDirsAlong]
      cases habove : t.shapeAt? (base.settled ++ names) with
      | some shape =>
        cases shape with
        | file c => exact absurd habove (h.noFile _ c (List.prefix_append _ _))
        | dir =>
          obtain ⟨y, hy, hymade⟩ := h.made_of_isDir ⟨h.init.isDir_of_dir habove, fun _ _ => rfl⟩ hshape
          refine ⟨y, ?_, hymade⟩
          rw [hy]
      | none =>
        -- what lies above is missing as well, and is made first
        obtain ⟨y, hy, hymade⟩ := h.made_of_isDir hmade hshape
        have hmiss := h.makeDir_of_none habove
        rw [← List.append_assoc] at hmiss
        refine ⟨y, ?_, hymade⟩
        rw [hmiss]
        simp only [hx, hy]

/-- Directories below one that is there are made, unless a file is in the way. -/
theorem Makeable.createDirs (h : t.Makeable base names) :
    ∃ x, t.createDirs (base ++ names) = (.ok (), x) ∧ t.Made base names x := by
  rcases List.eq_nil_or_concat' names with rfl | ⟨front, last, rfl⟩
  · refine ⟨t, ?_, ?_, fun _ _ => rfl⟩
    · rw [List.append_nil]
      exact createDirs_of_isDir h.isDir
    · rw [List.append_nil]
      exact h.isDir
  · obtain ⟨x, hx, hmade⟩ := h.createDirsAlong
    refine ⟨x, ?_, hmade⟩
    have hv : isVoid last = false := (h.goesDown last (by simp)).1
    rw [← List.append_assoc, upwards_concat hv] at hx
    rw [Listing.createDirs, h.path, ancestors, ← List.append_assoc, upwards_concat hv, List.tail_cons]
    exact hx

/-! ## Making directories in two goes -/

/-- Behind the making of directories, others can be made below them as before. -/
theorem Made.makeable (hx : t.Made base names x) (h : t.Makeable base (names ++ more))
    (hnone : t.shapeAt? (base.settled ++ names) = none) : x.Makeable (base ++ names) more where
  isDir := hx.isDir
  goesDown m hm := h.goesDown m (List.mem_append_right _ hm)
  short m hm := h.short m (List.mem_append_right _ hm)
  path := by
    rw [List.append_assoc]
    exact h.path
  noFile front c hfront := by
    have hgo : ∀ n ∈ names, GoesDown n := fun m hm => h.goesDown m (List.mem_append_left _ hm)
    rw [settled_append_names hgo, List.append_assoc]
    cases front with
    | nil =>
      have hdir := (isDir_eq_true.1 hx.isDir).2
      rw [settled_append_names hgo] at hdir
      simp [hdir]
    | cons m front =>
      rw [hx.beyond _ fun hp => by simpa using hp.length_le, ← List.append_assoc, shapeAt?_append_of_none hnone]
      simp

/-- Directories are made below a missing one just as they are made below it once it is there. -/
theorem Makeable.createDirsAlong_through (h : t.Makeable base (names ++ more))
    (hnone : t.shapeAt? (base.settled ++ names) = none) (hx : t.Made base names x)
    (hmake : t.createDirsAlong (upwards (base ++ names).reverse) = (.ok (), x)) :
    t.createDirsAlong (upwards (base ++ names ++ more).reverse) =
      x.createDirsAlong (upwards (base ++ names ++ more).reverse) := by
  induction more using List.reverseRecOn with
  | nil =>
    rw [List.append_nil, hmake, createDirsAlong_upwards hx.isDir]
  | append_singleton more n ih =>
    rw [← List.append_assoc] at h
    have hfar : t.shapeAt? (base.settled ++ (names ++ more)) = none := by
      rw [← List.append_assoc, shapeAt?_append_of_none hnone]
    have hv : isVoid n = false := (h.goesDown n (by simp)).1
    have hmiss := h.makeDir_of_none hfar
    rw [← List.append_assoc, ← List.append_assoc] at hmiss
    rw [← List.append_assoc, upwards_concat hv]
    have hbelow := ih h.init
    cases more with
    | nil =>
      have hlast : t.Makeable base (names ++ [n]) := by simpa using h
      obtain ⟨y, hy, -⟩ := hlast.made_of_isDir hx
        (by rw [← List.append_assoc, shapeAt?_append_of_none hnone])
      rw [List.append_nil] at hmiss ⊢
      simp only [Listing.createDirsAlong, hmiss, hmake, hy]
    | cons m more =>
      have hmore : x.Makeable (base ++ names) (m :: more ++ [n]) :=
        hx.makeable (by rwa [List.append_assoc] at h) hnone
      obtain ⟨y, hy, -⟩ := hmore.init.createDirsAlong
      have hgo : ∀ n ∈ names, GoesDown n := fun k hk => h.goesDown k (by simp [hk])
      have habsent : x.shapeAt? ((base ++ names).settled ++ (m :: more)) = none := by
        rw [settled_append_names hgo, List.append_assoc, hx.beyond _ fun hp => by simpa using hp.length_le, hfar]
      have hmiss' := hmore.makeDir_of_none habsent
      rw [← List.append_assoc] at hmiss'
      rw [hy] at hbelow
      simp only [Listing.createDirsAlong, hmiss, hmiss', hbelow, hy]

theorem ancestors_of_goesDown (hne : names ≠ []) (hgo : ∀ n ∈ names, GoesDown n) (base : Location) :
    ancestors (base ++ names) = upwards (base ++ names).reverse := by
  obtain ⟨front, last, rfl⟩ := (List.eq_nil_or_concat' names).resolve_left hne
  rw [ancestors, ← List.append_assoc, upwards_concat (hgo last (by simp)).1, List.tail_cons]

/-- Making directories below a missing one is making that one first. -/
theorem Makeable.createDirs_through (h : t.Makeable base (names ++ more))
    (hnone : t.shapeAt? (base.settled ++ names) = none) :
    ∃ x, t.createDirs (base ++ names) = (.ok (), x) ∧ t.Made base names x ∧
      t.createDirs (base ++ names ++ more) = x.createDirs (base ++ names ++ more) := by
  have hfirst : t.Makeable base names := by
    induction more using List.reverseRecOn with
    | nil => simpa using h
    | append_singleton more n ih => exact ih (Makeable.init (n := n) (by simpa using h))
  have hne : names ≠ [] := by
    rintro rfl
    rw [List.append_nil, (isDir_eq_true.1 h.isDir).2] at hnone
    cases hnone
  obtain ⟨x, hx, hmade⟩ := hfirst.createDirs
  refine ⟨x, hx, hmade, ?_⟩
  have hmake := hx
  rw [Listing.createDirs, hfirst.path, ancestors_of_goesDown hne hfirst.goesDown] at hmake
  have hall := ancestors_of_goesDown (by simp [hne]) h.goesDown base
  rw [← List.append_assoc] at hall
  have hpath := h.path
  rw [← List.append_assoc] at hpath
  rw [Listing.createDirs, Listing.createDirs, hpath, hall]
  exact h.createDirsAlong_through hnone hmade hmake

/-! ## Writing a file behind the directories -/

/-- A way below a directory along which a file can be written. -/
structure Clear (t : Listing) (base : Location) (names : List String) : Prop where
  isDir : t.isDir base = true
  ne_nil : names ≠ []
  goesDown : ∀ n ∈ names, GoesDown n
  short : ∀ n ∈ names, n.utf8ByteSize ≤ nameLimit
  path : checkPath (base ++ names) = .ok ()
  noFile : ∀ front c, front <+: names → front ≠ names → t.shapeAt? (base.settled ++ front) ≠ some (.file c)
  noDir : t.shapeAt? (base.settled ++ names) ≠ some .dir

theorem Clear.makeable (h : t.Clear base names) : t.Makeable base.components names.dropLast where
  isDir := isDir_components h.isDir
  goesDown n hn := h.goesDown n ((List.dropLast_sublist _).subset hn)
  short n hn := h.short n ((List.dropLast_sublist _).subset hn)
  path := checkPath_of_sublist (List.filter_sublist.append (List.dropLast_sublist _)) h.path
  noFile front c hf := by
    rw [settled_components]
    obtain ⟨rest, hrest, rfl⟩ := exists_rest_of_prefix h.ne_nil hf
    exact h.noFile front c (List.prefix_append _ _) (by simpa using hrest)

theorem Clear.write (h : t.Clear base names) (c : ByteArray) :
    ∃ made x, t.createDirs (parent (base ++ names)) = (.ok (), made) ∧ made.write (base ++ names) c = .ok x := by
  have hmakeable := h.makeable
  obtain ⟨made, hcreate, hmade⟩ := hmakeable.createDirs
  have hset : Location.settled (base ++ names) = base.settled ++ names := settled_append_names h.goesDown base
  obtain ⟨front, last, rfl⟩ := (List.eq_nil_or_concat' names).resolve_left h.ne_nil
  have hlast : GoesDown last := h.goesDown last (by simp)
  have hcd : t.createDirs (parent (base ++ (front ++ [last]))) = (.ok (), made) := by
    have hfront : components front = front := Key.components_of_goesDown fun n hn => h.goesDown n (by simp [hn])
    have hparent : parent (base ++ (front ++ [last])) = base.components ++ front := by
      rw [← List.append_assoc, parent_append_name hlast, Location.components, List.filter_append]
      exact congrArg (base.components ++ ·) hfront
    rw [List.dropLast_concat] at hcreate
    rw [hparent, hcreate]
  obtain ⟨-, hdir⟩ := isDir_eq_true.1 hmade.isDir
  rw [hmakeable.settled, settled_components, List.dropLast_concat] at hdir
  have hbase : made.Leads base :=
    (isDir_eq_true.1 h.isDir).1.mono fun q hq => by
      have hkept := shapeAt?_createDirs_dir (l := parent (base ++ (front ++ [last]))) hq
      rwa [hcd] at hkept
  have hlead : made.Leads (base ++ (front ++ [last])) := by
    refine ⟨h.path, ?_⟩
    rw [← List.append_assoc, Passable.append, Passable.append]
    refine ⟨⟨hbase.2, passable_names (fun n hn => h.goesDown n (by simp [hn])) (fun n hn => h.short n (by simp [hn])) ?_⟩, ?_⟩
    · change made.shapeAt? (base.settled ++ front) ≠ none
      simp [hdir]
    · have hfront : settleFrom [] (base ++ front) = base.settled ++ front :=
        settled_append_names (fun n hn => h.goesDown n (by simp [hn])) base
      rw [hfront]
      refine ⟨hdir, ?_⟩
      rw [hlast.1, if_neg (by simp), if_neg hlast.2]
      exact ⟨h.short last (by simp), trivial⟩
  have hnodir : made.shapeAt? (Location.settled (base ++ (front ++ [last]))) ≠ some .dir := by
    have hbeyond := hmade.beyond (front ++ [last]) (by rw [List.dropLast_concat]; exact not_append_prefix)
    rw [settled_components] at hbeyond
    rw [hset, hbeyond]
    exact h.noDir
  have hpiece : (base ++ (front ++ [last])).getLast? ≠ some "" := by
    rw [← List.append_assoc, List.getLast?_concat, ne_eq, Option.some.injEq]
    rintro rfl
    exact absurd hlast.1 (by decide)
  exact ⟨made, _, hcd, write_of_leads hlead hpiece hnodir c⟩

end Listing

end TreeRepair
