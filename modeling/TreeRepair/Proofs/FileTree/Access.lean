import TreeRepair.Proofs.FileTree.Resolution

/-! What each access to a tree of files says about its shapes: reading gives the content of the place
that the path leads to, writing and removing change that place alone, and making directories adds
directories and nothing else. -/

set_option autoImplicit false

namespace TreeRepair

namespace Listing

open Location

theorem not_append_prefix {above : List String} {n : String} : ¬ above ++ [n] <+: above := by
  intro h
  have := h.length_le
  simp only [List.length_append, List.length_cons, List.length_nil] at this
  omega

/-! ## Lengths -/

theorem byteSize_append (l m : Location) : byteSize (l ++ m) = l.byteSize + m.byteSize := by
  have hfold : ∀ (m : Location) (n : Nat), m.foldl (fun n p => n + 1 + p.utf8ByteSize) n = n + m.byteSize := by
    intro m
    unfold byteSize
    induction m with
    | nil => simp
    | cons p ps ih =>
      intro n
      rw [List.foldl_cons, List.foldl_cons, ih, ih (0 + 1 + _)]
      omega
  rw [byteSize, List.foldl_append, hfold]
  rfl

theorem checkPath_eq_ok {l : Location} : checkPath l = .ok () ↔ hasNul l = false ∧ l.byteSize ≤ pathLimit := by
  unfold checkPath
  cases hasNul l with
  | true => simp
  | false =>
    by_cases h : pathLimit < l.byteSize
    · simp [h]
    · simp [h, Nat.le_of_not_lt h]

theorem checkPath_of_append {l m : Location} (h : checkPath (l ++ m) = .ok ()) : checkPath l = .ok () := by
  rw [checkPath_eq_ok] at h ⊢
  obtain ⟨h1, h2⟩ := h
  rw [byteSize_append] at h2
  rw [hasNul, List.any_append, Bool.or_eq_false_iff] at h1
  exact ⟨h1.1, by omega⟩

/-! ## Reading -/

/-- Whether a path is one and can be followed. -/
def Leads (t : Listing) (l : Location) : Prop := checkPath l = .ok () ∧ t.Passable [] l

theorem locate_of_leads {t : Listing} {l : Location} (h : t.Leads l) : t.locate l = .ok l.settled :=
  locate_eq_ok.2 ⟨h.1, h.2, rfl⟩

theorem entryAt_eq_ok {t : Listing} {l : Location} {e : Entry} :
    t.entryAt l = .ok e ↔ t.Leads l ∧ t.find? l.settled = some e := by
  unfold entryAt
  cases hl : t.locate l with
  | error fault =>
    have hn : ¬ t.Leads l := fun h => by simp [locate_of_leads h] at hl
    simp [hn]
  | ok names =>
    obtain ⟨h1, h2, rfl⟩ := locate_eq_ok.1 hl
    cases hf : t.find? l.settled <;> simp [Leads, h1, h2, hf]

theorem read_eq_ok {t : Listing} {l : Location} {c : ByteArray} :
    t.read l = .ok c ↔ t.Leads l ∧ t.shapeAt? l.settled = some (.file c) := by
  rw [shapeAt?_eq_file, ← entryAt_eq_ok, read]
  cases t.entryAt l with
  | error fault => simp
  | ok e => cases e <;> simp

theorem isFile_eq_true {t : Listing} {l : Location} :
    t.isFile l = true ↔ t.Leads l ∧ ∃ c, t.shapeAt? l.settled = some (.file c) := by
  simp only [shapeAt?_eq_file, ← exists_and_left, ← entryAt_eq_ok, isFile]
  cases t.entryAt l with
  | error fault => simp
  | ok e => cases e <;> simp

theorem listing_eq_ok {t inner : Listing} {l : Location} :
    t.listing l = .ok inner ↔ t.Leads l ∧ t.find? l.settled = some (.dir inner) := by
  rw [← entryAt_eq_ok, listing]
  cases t.entryAt l with
  | error fault => simp
  | ok e => cases e <;> simp

theorem isDir_eq_true {t : Listing} {l : Location} :
    t.isDir l = true ↔ t.Leads l ∧ t.shapeAt? l.settled = some .dir := by
  simp only [shapeAt?_eq_dir, ← exists_and_left, ← entryAt_eq_ok, isDir]
  cases t.entryAt l with
  | error fault => simp
  | ok e => cases e <;> simp

theorem isThere_eq_true {t : Listing} {l : Location} :
    t.isThere l = true ↔ t.Leads l ∧ t.shapeAt? l.settled ≠ none := by
  rw [isThere]
  cases he : t.entryAt l with
  | error fault =>
    simp only [Except.toOption, Option.isSome_none, Bool.false_eq_true, false_iff, not_and, not_not]
    intro hl
    rw [shapeAt?_eq_none]
    cases hf : t.find? l.settled with
    | none => rfl
    | some e => simp [entryAt_eq_ok.2 ⟨hl, hf⟩] at he
  | ok e =>
    obtain ⟨hl, hf⟩ := entryAt_eq_ok.1 he
    simp [Except.toOption, hl, shapeAt?, hf]

/-- A path that can be followed has its end in a directory, unless it leads to the root. -/
theorem Leads.above {t : Listing} {l : Location} (h : t.Leads l) (hne : l.settled ≠ []) :
    ∃ above n, l.settled = above ++ [n] ∧ t.shapeAt? above = some .dir :=
  ⟨l.settled.dropLast, l.settled.getLast hne, (List.dropLast_append_getLast hne).symm,
    h.2.shapeAt?_dropLast (by simp)⟩

theorem Leads.mono {t t' : Listing} {l : Location} (h : t.Leads l)
    (hd : ∀ p, t.shapeAt? p = some .dir → t'.shapeAt? p = some .dir) : t'.Leads l := ⟨h.1, h.2.mono hd⟩

theorem isDir_of_dirs {t t' : Listing} {l : Location}
    (hdirs : ∀ q, t'.shapeAt? q = some .dir ↔ t.shapeAt? q = some .dir) (h : t.isDir l = true) : t'.isDir l = true := by
  obtain ⟨hleads, hdir⟩ := isDir_eq_true.1 h
  exact isDir_eq_true.2 ⟨hleads.mono fun q => (hdirs q).2, (hdirs _).2 hdir⟩

theorem canonicalPath_eq_ok {t : Listing} {here place : Location} {path : String}
    (h : t.canonicalPath here path = .ok place) :
    place = (here.join path).settled := by
  unfold canonicalPath at h
  split at h
  · cases h
  unfold canonical at h
  split at h
  · cases h
  split at h
  · rename_i names hl
    have hplace := ((locateFrom_eq_ok (t := t) [] trivial _ names).1 hl).2
    split at h
    · rw [← Except.ok.inj h, hplace]
      rfl
    · cases h
  · cases h

theorem canonicalPath_of_isDir {t : Listing} {here : Location} {path : String} (hne : path ≠ "")
    (h : t.isDir (here.join path) = true) :
    t.canonicalPath here path = .ok (here.join path).settled := by
  obtain ⟨⟨hc, hpass⟩, hdir⟩ := isDir_eq_true.1 h
  have hl : locateFrom (some (.dir t)) [] (here.join path) = .ok (here.join path).settled :=
    (locateFrom_eq_ok (t := t) [] trivial _ _).2 ⟨hpass, rfl⟩
  obtain ⟨inner, hf⟩ := shapeAt?_eq_dir.1 hdir
  unfold canonicalPath canonical
  rw [if_neg (by simpa using hne), (checkPath_eq_ok.1 hc).1, if_neg Bool.false_ne_true, hl]
  simp [hf]

/-! ## Writing -/

theorem write_eq_ok {t t' : Listing} {l : Location} {c : ByteArray} (h : t.write l c = .ok t') :
    t.Leads l ∧ l.getLast? ≠ some "" ∧ t.shapeAt? l.settled ≠ some .dir ∧
      t' = t.putAt l.settled (.file c) := by
  unfold write at h
  split at h
  · split at h <;> simp at h
  · rename_i hlast
    cases hl : t.locate l with
    | error fault => simp [hl] at h
    | ok names =>
      obtain ⟨h1, h2, rfl⟩ := locate_eq_ok.1 hl
      rw [hl] at h
      refine ⟨⟨h1, h2⟩, hlast, ?_⟩
      cases hf : t.find? l.settled with
      | none => simp_all [shapeAt?]
      | some e => cases e <;> simp_all [shapeAt?, Entry.shape]

theorem write_of_leads {t : Listing} {l : Location} (h : t.Leads l) (hlast : l.getLast? ≠ some "")
    (hd : t.shapeAt? l.settled ≠ some .dir) (c : ByteArray) :
    t.write l c = .ok (t.putAt l.settled (.file c)) := by
  unfold write
  rw [if_neg hlast, locate_of_leads h]
  cases hf : t.find? l.settled with
  | none => simp [hf]
  | some e =>
    cases e with
    | file c => simp [hf]
    | dir inner => simp [shapeAt?, hf, Entry.shape] at hd

theorem shapeAt?_write {t t' : Listing} {l : Location} {c : ByteArray} (h : t.write l c = .ok t')
    (q : List String) : t'.shapeAt? q = if q = l.settled then some (.file c) else t.shapeAt? q := by
  obtain ⟨hl, -, hd, rfl⟩ := write_eq_ok h
  have hne : l.settled ≠ [] := fun he => hd (by simp [he])
  obtain ⟨above, n, hs, ha⟩ := hl.above hne
  rw [hs] at hd ⊢
  rw [shapeAt?_putAt_file c ha]
  by_cases hq : q = above ++ [n]
  · simp [hq]
  · simp only [hq, if_false]
    split
    · rename_i hp
      obtain ⟨r, rfl⟩ := hp
      have hr : r ≠ [] := fun he => hq (by simp [he])
      by_contra hc
      exact hd (shapeAt?_of_append (Ne.symm hc) hr)
    · rfl

theorem shapeAt?_write_dir {t t' : Listing} {l : Location} {c : ByteArray} (h : t.write l c = .ok t') {q : List String} :
    t'.shapeAt? q = some .dir ↔ t.shapeAt? q = some .dir := by
  rw [shapeAt?_write h]
  split
  · rename_i hq
    simp [hq, (write_eq_ok h).2.2.1]
  · rfl

/-! ## Removing a file -/

theorem removeFile_eq_ok {t t' : Listing} {l : Location} (h : t.removeFile l = .ok t') :
    t.Leads l ∧ (∃ c, t.shapeAt? l.settled = some (.file c)) ∧ t' = t.removeAt l.settled := by
  unfold removeFile at h
  cases he : t.entryAt l with
  | error fault => simp [he] at h
  | ok e =>
    obtain ⟨hl, hf⟩ := entryAt_eq_ok.1 he
    rw [he, locate_of_leads hl] at h
    cases e with
    | dir inner => simp at h
    | file c =>
      simp only [Except.ok.injEq] at h
      exact ⟨hl, ⟨c, shapeAt?_eq_file.2 hf⟩, h.symm⟩

theorem removeFile_of_leads {t : Listing} {l : Location} {c : ByteArray} (h : t.Leads l)
    (hf : t.shapeAt? l.settled = some (.file c)) : t.removeFile l = .ok (t.removeAt l.settled) := by
  unfold removeFile
  rw [entryAt_eq_ok.2 ⟨h, shapeAt?_eq_file.1 hf⟩, locate_of_leads h]

theorem shapeAt?_removeFile {t t' : Listing} {l : Location} (h : t.removeFile l = .ok t') (q : List String) :
    t'.shapeAt? q = if q = l.settled then none else t.shapeAt? q := by
  obtain ⟨hl, ⟨c, hc⟩, rfl⟩ := removeFile_eq_ok h
  have hne : l.settled ≠ [] := fun he => by simp [he] at hc
  obtain ⟨above, n, hs, ha⟩ := hl.above hne
  rw [hs] at hc ⊢
  rw [shapeAt?_removeAt ha]
  by_cases hq : q = above ++ [n]
  · simp [hq]
  · simp only [hq, if_false]
    split
    · rename_i hp
      obtain ⟨r, rfl⟩ := hp
      exact (shapeAt?_append_of_file hc fun he => hq (by simp [he])).symm
    · rfl

/-! ## Making directories -/

theorem eq_of_fromLastPiece {l : Location} {last : String} {above : List String}
    (h : fromLastPiece l = last :: above) :
    last ≠ "" ∧ (∃ blanks, l = above.reverse ++ last :: blanks ∧ ∀ b ∈ blanks, b = "") := by
  unfold fromLastPiece at h
  have hsplit := List.takeWhile_append_dropWhile (p := (· == "")) (l := l.reverse)
  have hlast : last ≠ "" := by
    have := List.head_dropWhile_not (p := (· == "")) (l := l.reverse) (by rw [h]; simp)
    simpa [h] using this
  refine ⟨hlast, (l.reverse.takeWhile (· == "")).reverse, ?_, ?_⟩
  · rw [h] at hsplit
    have := congrArg List.reverse hsplit
    simpa using this.symm
  · intro b hb
    have hall := List.all_takeWhile (p := (· == "")) (l := l.reverse)
    simpa using List.all_eq_true.1 hall b (List.mem_reverse.1 hb)

theorem fromLastPiece_concat {n : String} (hn : GoesDown n) (l : Location) : fromLastPiece (l ++ [n]) = n :: l.reverse := by
  have hne : (n == "") = false := by
    have hvoid := hn.1
    rw [isVoid, Bool.or_eq_false_iff] at hvoid
    exact hvoid.1
  simp [fromLastPiece, hne]

theorem settleFrom_blanks {blanks : List String} (h : ∀ b ∈ blanks, b = "") (here : List String) :
    settleFrom here blanks = here := by
  induction blanks with
  | nil => rfl
  | cons b bs ih =>
    rw [settleFrom, if_pos (by simp [h b (List.mem_cons_self ..), isVoid])]
    exact ih fun x hx => h x (List.mem_cons_of_mem b hx)

theorem passable_blanks {t : Listing} {here : List String} {blanks : Location} (h : ∀ b ∈ blanks, b = "")
    (hd : t.shapeAt? here = some .dir) : t.Passable here blanks := by
  induction blanks with
  | nil => trivial
  | cons b bs ih =>
    refine ⟨hd, ?_⟩
    rw [if_pos (by simp [h b (List.mem_cons_self ..), isVoid])]
    exact ih fun c hc => h c (List.mem_cons_of_mem b hc)

/-- Making a directory adds an empty one in a directory that is there. -/
theorem makeDir_eq_ok {t t' : Listing} {l : Location} (h : t.makeDir l = .ok t') :
    ∃ above n, l.settled = above ++ [n] ∧ n ∈ l ∧ GoesDown n ∧ n.utf8ByteSize ≤ nameLimit ∧
      checkPath l = .ok () ∧ t.shapeAt? above = some .dir ∧ t.shapeAt? l.settled = none ∧
      t' = t.putAt l.settled (.dir .empty) := by
  unfold makeDir at h
  cases hc : checkPath l with
  | error fault => simp [hc] at h
  | ok u =>
    cases hp : fromLastPiece l with
    | nil => simp [hc, hp] at h
    | cons last above =>
      obtain ⟨hne, blanks, hl, hb⟩ := eq_of_fromLastPiece hp
      rw [hc, hp] at h
      cases hi : t.listing above.reverse with
      | error fault => simp [hi] at h
      | ok inner =>
        obtain ⟨hleads, hf⟩ := listing_eq_ok.1 hi
        simp only [hi, locate_of_leads hleads] at h
        split at h
        · simp at h
        · rename_i hdots
          rw [not_or] at hdots
          split at h
          · simp at h
          · rename_i hlen
            split at h
            · simp at h
            · rename_i hchild
              simp only [Except.ok.injEq] at h
              have hgo : GoesDown last := ⟨by simp [isVoid, hne, hdots.1], hdots.2⟩
              have hset : l.settled = settled above.reverse ++ [last] := by
                rw [hl, List.append_cons, settled_append, settleFrom_blanks hb,
                  settled_append_names (by simpa using hgo)]
              refine ⟨_, last, hset, by simp [hl], hgo, by omega, rfl, shapeAt?_eq_dir.2 ⟨inner, hf⟩, ?_, ?_⟩
              · rw [hset, shapeAt?_append_of_dir hf, shapeAt?, find?_cons]
                cases hx : inner.child? last <;> simp_all
              · rw [hset, h]

theorem shapeAt?_makeDir {t t' : Listing} {l : Location} (h : t.makeDir l = .ok t') (q : List String) :
    t'.shapeAt? q = if q = l.settled then some .dir else t.shapeAt? q := by
  obtain ⟨above, n, hs, -, -, -, -, ha, hnone, rfl⟩ := makeDir_eq_ok h
  rw [hs] at hnone ⊢
  rw [shapeAt?_putAt _ ha]
  by_cases hq : q = above ++ [n]
  · subst hq; simp [Entry.follow?, Entry.shape]
  · simp only [hq, if_false]
    split
    · rename_i hp
      obtain ⟨r, rfl⟩ := hp
      have hr : r ≠ [] := fun he => hq (by simp [he])
      obtain ⟨m, ms, rfl⟩ := List.exists_cons_of_ne_nil hr
      rw [shapeAt?_append_of_none hnone, List.drop_append_of_le_length (by simp),
        List.drop_of_length_le (by simp)]
      simp [Entry.follow?, child?]
    · rfl

theorem mem_upwards {rev : List String} {a : Location} (h : a ∈ upwards rev) : a <+: rev.reverse := by
  induction rev with
  | nil => simp_all [upwards]
  | cons piece above ih =>
    rw [List.reverse_cons]
    rw [upwards] at h
    split at h
    · exact (ih h).trans (List.prefix_append _ _)
    · rcases List.mem_cons.1 h with rfl | h
      · simp
      · exact (ih h).trans (List.prefix_append _ _)

theorem mem_ancestors {l a : Location} (h : a ∈ l.ancestors) : a <+: l := by
  rcases List.mem_cons.1 h with rfl | h
  · exact List.prefix_refl _
  · have := mem_upwards (List.mem_of_mem_tail h)
    rwa [List.reverse_reverse] at this

/-- What holds of a tree and stays when a directory is made at a path above another one, holds when all
directories up to that one have been made. -/
theorem createDirs_induct {P : Listing → Prop} {t : Listing} {l : Location} (h0 : P t)
    (hstep : ∀ a x y, a <+: l → P x → x.makeDir a = .ok y → P y) : P (t.createDirs l).2 := by
  have along : ∀ (ls : List Location), (∀ a ∈ ls, a <+: l) → ∀ x, P x → P (createDirsAlong x ls).2 := by
    intro ls
    induction ls with
    | nil => intro _ x hx; exact hx
    | cons a above ih =>
      intro hls x hx
      have ha := hls a (List.mem_cons_self ..)
      have hrest := ih fun b hb => hls b (List.mem_cons_of_mem a hb)
      unfold createDirsAlong
      cases hm : x.makeDir a with
      | ok made => exact hstep a x made ha hx hm
      | error fault =>
        cases fault with
        | noEntry =>
          have hr := hrest x hx
          rcases hc : createDirsAlong x above with ⟨res, left⟩
          rw [hc] at hr
          cases res with
          | error fault => exact hr
          | ok u =>
            cases hm' : left.makeDir a with
            | ok made => simpa [hc, hm'] using hstep a left made ha hr hm'
            | error fault => simpa [hc, hm'] using hr
        | _ => exact hx
  unfold createDirs
  cases checkPath l with
  | error fault => exact h0
  | ok u => exact along _ (fun a ha => mem_ancestors ha) t h0

theorem shapeAt?_createDirs (t : Listing) (l : Location) (q : List String) :
    (t.createDirs l).2.shapeAt? q = t.shapeAt? q ∨
      t.shapeAt? q = none ∧ (t.createDirs l).2.shapeAt? q = some .dir ∧ ∃ a, a <+: l ∧ settled a = q := by
  refine createDirs_induct (P := fun x => x.shapeAt? q = t.shapeAt? q ∨
    t.shapeAt? q = none ∧ x.shapeAt? q = some .dir ∧ ∃ a, a <+: l ∧ settled a = q) (.inl rfl) ?_
  intro a x y ha hx hm
  rw [shapeAt?_makeDir hm]
  obtain ⟨-, -, -, -, -, -, -, -, hnone, -⟩ := makeDir_eq_ok hm
  by_cases hq : q = settled a
  · subst hq
    rw [hnone] at hx
    rcases hx with hx | ⟨-, hx, -⟩
    · exact .inr ⟨hx.symm, by simp, a, ha, rfl⟩
    · simp at hx
  · simpa [hq] using hx

theorem shapeAt?_createDirs_file {t : Listing} {l : Location} {q : List String} {c : ByteArray} :
    (t.createDirs l).2.shapeAt? q = some (.file c) ↔ t.shapeAt? q = some (.file c) := by
  rcases shapeAt?_createDirs t l q with h | ⟨h1, h2, -⟩
  · rw [h]
  · simp [h1, h2]

theorem shapeAt?_createDirs_dir {t : Listing} {l : Location} {q : List String}
    (h : t.shapeAt? q = some .dir) : (t.createDirs l).2.shapeAt? q = some .dir := by
  rcases shapeAt?_createDirs t l q with h' | ⟨h1, -, -⟩
  · rw [h', h]
  · simp [h1] at h

theorem createDirs_of_checkPath {t : Listing} {l : Location} (h : checkPath l ≠ .ok ()) :
    ∃ fault, t.createDirs l = (.error fault, t) := by
  unfold createDirs
  cases hc : checkPath l with
  | ok u => exact absurd hc h
  | error fault => exact ⟨fault, rfl⟩

theorem createDirsAlong_of_isDir {t : Listing} {l : Location} (h : t.isDir l = true) (above : List Location) :
    t.createDirsAlong (l :: above) = (.ok (), t) := by
  obtain ⟨hl, hd⟩ := isDir_eq_true.1 h
  have hmade : ∀ y, t.makeDir l ≠ .ok y := by
    intro y hy
    obtain ⟨-, -, -, -, -, -, -, -, hnone, -⟩ := makeDir_eq_ok hy
    simp [hnone] at hd
  have hentry : t.makeDir l ≠ .error .noEntry := by
    intro he
    unfold makeDir at he
    rw [hl.1] at he
    cases hp : fromLastPiece l with
    | nil => simp [hp] at he
    | cons last above =>
      obtain ⟨hne, blanks, hl', hb⟩ := eq_of_fromLastPiece hp
      have hpass := hl.2
      rw [hl', Passable.append] at hpass
      have habove : t.Leads above.reverse ∧ t.shapeAt? (settled above.reverse) = some .dir := by
        have hcheck := hl.1
        rw [hl'] at hcheck
        exact ⟨⟨checkPath_of_append hcheck, hpass.1⟩, hpass.2.1⟩
      obtain ⟨inner, hi⟩ := shapeAt?_eq_dir.1 habove.2
      simp only [hp, listing_eq_ok.2 ⟨habove.1, hi⟩, locate_of_leads habove.1] at he
      split at he
      · simp at he
      · split at he
        · simp at he
        · split at he <;> simp at he
  simp only [createDirsAlong]
  cases hm : t.makeDir l with
  | ok y => exact absurd hm (hmade y)
  | error fault =>
    cases fault with
    | noEntry => exact absurd hm hentry
    | _ => simp [h]

theorem createDirs_of_isDir {t : Listing} {l : Location} (h : t.isDir l = true) : t.createDirs l = (.ok (), t) := by
  unfold createDirs ancestors
  rw [(isDir_eq_true.1 h).1.1]
  exact createDirsAlong_of_isDir h _

theorem isDir_of_makeDir {t x : Listing} {l : Location} (h : t.makeDir l = .ok x) : x.isDir l = true := by
  have hshape := shapeAt?_makeDir h
  obtain ⟨-, -, -, -, -, -, hc, -, hnone, -⟩ := makeDir_eq_ok h
  have hkeep : ∀ q, t.shapeAt? q = some .dir → x.shapeAt? q = some .dir := by
    intro q hq
    rw [hshape]
    split
    · rfl
    · exact hq
  refine isDir_eq_true.2 ⟨⟨hc, ?_⟩, by rw [hshape, if_pos rfl]⟩
  unfold makeDir at h
  rw [hc] at h
  cases hp : fromLastPiece l with
  | nil => simp [hp] at h
  | cons last above =>
    obtain ⟨hne, blanks, hl, hb⟩ := eq_of_fromLastPiece hp
    cases hi : t.listing above.reverse with
    | error fault => simp [hp, hi] at h
    | ok inner =>
      obtain ⟨hleads, hf⟩ := listing_eq_ok.1 hi
      simp only [hp, hi, locate_of_leads hleads] at h
      split at h
      · cases h
      · rename_i hdots
        rw [not_or] at hdots
        split at h
        · cases h
        · rename_i hlen
          have hgo : GoesDown last := ⟨by simp [isVoid, hne, hdots.1], hdots.2⟩
          have hend : l.settled = settled above.reverse ++ [last] := by
            rw [hl, List.append_cons, settled_append, settleFrom_blanks hb, settled_append_names (by simpa using hgo)]
          rw [hl, Passable.append]
          refine ⟨(hleads.mono hkeep).2, hkeep _ (shapeAt?_eq_dir.2 ⟨inner, hf⟩), ?_⟩
          rw [hgo.1, if_neg Bool.false_ne_true, if_neg hgo.2]
          refine ⟨Nat.not_lt.1 hlen, passable_blanks hb ?_⟩
          change x.shapeAt? (settled above.reverse ++ [last]) = some .dir
          rw [hshape, if_pos hend.symm]

theorem isDir_of_createDirs {t x : Listing} {l : Location} (h : t.createDirs l = (.ok (), x)) : x.isDir l = true := by
  unfold createDirs at h
  split at h
  · unfold ancestors createDirsAlong at h
    simp only at h
    split at h
    · rename_i made hm
      obtain rfl := (Prod.mk.inj h).2
      exact isDir_of_makeDir hm
    · split at h
      · cases h
      · split at h
        · rename_i made hm
          obtain rfl := (Prod.mk.inj h).2
          exact isDir_of_makeDir hm
        · obtain ⟨hdir, rfl⟩ := Prod.mk.inj h
          split at hdir
          · assumption
          · cases hdir
    · obtain ⟨hdir, rfl⟩ := Prod.mk.inj h
      split at hdir
      · assumption
      · cases hdir
  · cases h

/-! ## Removing a directory -/

theorem removeEmptyDir_eq_ok {t t' : Listing} {l : Location} (h : t.removeEmptyDir l = .ok t') :
    t.Leads l ∧ t' = t.removeAt l.settled := by
  unfold removeEmptyDir at h
  split at h
  · simp at h
  · split at h
    · simp at h
    · split at h
      · simp at h
      · split at h
        · simp at h
        · split at h
          · rename_i hi hl
            obtain ⟨h1, h2, rfl⟩ := locate_eq_ok.1 hl
            simp only [Except.ok.injEq] at h
            exact ⟨⟨h1, h2⟩, h.symm⟩
          · simp at h
          · simp at h

theorem shapeAt?_removeDir (t : Listing) (l : Location) (q : List String) :
    (t.removeDir l).2.shapeAt? q = t.shapeAt? q ∨ l.settled <+: q ∧ (t.removeDir l).2.shapeAt? q = none := by
  unfold removeDir
  cases hi : t.listing l with
  | error fault => exact .inl rfl
  | ok inner =>
    obtain ⟨hl, hf⟩ := listing_eq_ok.1 hi
    have hdir : t.shapeAt? l.settled = some .dir := shapeAt?_eq_dir.2 ⟨inner, hf⟩
    rw [locate_of_leads hl]
    by_cases hroot : l.settled = []
    · -- the root keeps all that lies in it
      have hsame : ∀ x : Listing, x.removeAt [] = x := fun x => by cases x <;> rfl
      have hput : t.putAt l.settled (.dir .empty) = t := by rw [hroot]; cases t <;> rfl
      simp only [hput]
      cases hr : t.removeEmptyDir l with
      | ok left =>
        obtain ⟨-, rfl⟩ := removeEmptyDir_eq_ok hr
        rw [hroot, hsame]
        exact .inl rfl
      | error fault => cases fault <;> exact .inl rfl
    · obtain ⟨above, n, hs, ha⟩ := hl.above hroot
      have hempty : (t.putAt l.settled (.dir .empty)).shapeAt? q = t.shapeAt? q ∨
          l.settled <+: q ∧ (t.putAt l.settled (.dir .empty)).shapeAt? q = none := by
        rw [hs, shapeAt?_putAt _ ha]
        by_cases hp : above ++ [n] <+: q
        · obtain ⟨r, rfl⟩ := hp
          rw [if_pos (List.prefix_append _ _), List.drop_append_of_le_length (by simp),
            List.drop_of_length_le (by simp)]
          cases r with
          | nil =>
            have hself : above ++ [n] ++ [] = l.settled := by rw [hs, List.append_nil]
            exact .inl (by rw [hself, hdir]; rfl)
          | cons m ms => exact .inr ⟨List.prefix_append _ _, by simp [Entry.follow?, child?]⟩
        · exact .inl (by rw [if_neg hp])
      cases hr : (t.putAt l.settled (.dir .empty)).removeEmptyDir l with
      | ok left =>
        obtain ⟨-, rfl⟩ := removeEmptyDir_eq_ok hr
        have ha' : (t.putAt l.settled (.dir .empty)).shapeAt? above = some .dir := by
          rw [hs, shapeAt?_putAt _ ha, if_neg not_append_prefix, ha]
        have hgone : ((t.putAt l.settled (.dir .empty)).removeAt l.settled).shapeAt? q =
            if l.settled <+: q then none else (t.putAt l.settled (.dir .empty)).shapeAt? q := by
          conv_lhs => rw [show l.settled = above ++ [n] from hs]
          rw [hs, shapeAt?_removeAt (hs ▸ ha')]
        simp only [hr]
        rw [hgone]
        by_cases hp : l.settled <+: q
        · exact .inr ⟨hp, by rw [if_pos hp]⟩
        · rw [if_neg hp]
          exact hempty
      | error fault => cases fault <;> simpa only [hr] using hempty

theorem removeDir_of_not_dir {t : Listing} {l : Location} (h : t.shapeAt? l.settled ≠ some .dir) :
    (t.removeDir l).2 = t := by
  unfold removeDir
  cases hi : t.listing l with
  | error fault => rfl
  | ok inner =>
    obtain ⟨-, hd⟩ := listing_eq_ok.1 hi
    exact absurd (shapeAt?_eq_dir.2 ⟨inner, hd⟩) h

/-- A directory named by the last piece of its path is removed with all that lies in it, provided that
the path of the one above does not lead through it. -/
theorem removeDir_of_leads {t : Listing} {base : Location} {n : String} (hn : GoesDown n)
    (hl : t.Leads (base ++ [n])) (hd : t.shapeAt? (settled base ++ [n]) = some .dir)
    (hbase : (t.putAt (settled base ++ [n]) (.dir .empty)).Leads base) :
    t.removeDir (base ++ [n]) =
      (.ok (), (t.putAt (settled base ++ [n]) (.dir .empty)).removeAt (settled base ++ [n])) := by
  have hset : settled (base ++ [n]) = settled base ++ [n] := settled_append_names (by simpa using hn) base
  obtain ⟨inner, hf⟩ := shapeAt?_eq_dir.1 hd
  have ha : t.shapeAt? (settled base) = some .dir := shapeAt?_of_append (by rw [hd]; simp) (by simp)
  have ha' : (t.putAt (settled base ++ [n]) (.dir .empty)).shapeAt? (settled base) = some .dir := by
    rw [shapeAt?_putAt _ ha, if_neg not_append_prefix, ha]
  obtain ⟨x, hx⟩ := shapeAt?_eq_dir.1 ha'
  have hempty : (t.putAt (settled base ++ [n]) (.dir .empty)).find? (settled base ++ [n]) = some (.dir .empty) := by
    have := find?_putAt_append (n := n) (.dir .empty) ha []
    rwa [List.append_nil] at this
  have hl' : (t.putAt (settled base ++ [n]) (.dir .empty)).Leads (base ++ [n]) := by
    refine ⟨hl.1, Passable.append.2 ⟨hbase.2, ha', ?_⟩⟩
    have hpass := (Passable.append.1 hl.2).2.2
    simp only [hn.1, hn.2, if_false] at hpass ⊢
    exact ⟨hpass.1, trivial⟩
  have hdot : n ≠ "." := by
    rintro rfl
    exact absurd hn.1 (by decide)
  unfold removeDir
  rw [listing_eq_ok.2 ⟨hl, by rw [hset]; exact hf⟩, locate_of_leads hl, hset]
  simp only [removeEmptyDir, fromLastPiece_concat hn, List.reverse_reverse, listing_eq_ok.2 ⟨hbase, hx⟩, hdot, hn.2, if_false,
    listing_eq_ok.2 ⟨hl', by rw [hset]; exact hempty⟩, locate_of_leads hl', hset]

/-- A directory that was not there before is removed without a trace. -/
theorem OnlyAt.removeDir_eq {t t' : Listing} {base : Location} {n : String} (hn : GoesDown n)
    (h : OnlyAt (settled base ++ [n]) t t') (hbase : t.Leads base)
    (hd : t.shapeAt? (settled base) = some .dir) (hnone : t.shapeAt? (settled base ++ [n]) = none)
    (hdir : t'.shapeAt? (settled base ++ [n]) = some .dir) (hl : t'.Leads (base ++ [n])) :
    (t'.removeDir (base ++ [n])).2 = t := by
  have hd' : t'.shapeAt? (settled base) = some .dir := by rw [h.shapeAt?_eq hd not_append_prefix, hd]
  have hempty : OnlyAt (settled base ++ [n]) t (t'.putAt (settled base ++ [n]) (.dir .empty)) := by
    have := h.put (q := []) hd (by simpa using hd') (.dir .empty)
    rwa [List.append_nil] at this
  have hkeep : ∀ p, t.shapeAt? p = some .dir →
      (t'.putAt (settled base ++ [n]) (.dir .empty)).shapeAt? p = some .dir := by
    intro p hp
    have hnp : ¬ settled base ++ [n] <+: p := by
      rintro ⟨r, rfl⟩
      rw [shapeAt?_append_of_none hnone] at hp
      simp at hp
    rw [hempty.shapeAt?_eq hd hnp, hp]
  rw [removeDir_of_leads hn hl hdir (hbase.mono hkeep)]
  refine hempty.removeAt_eq hd hnone ?_
  rw [shapeAt?_putAt _ hd', if_pos (List.prefix_refl _)]
  simp [Entry.follow?]

/-! ## Moving a file -/

/-- Moving a file to another place changes these two places alone. -/
theorem shapeAt?_rename {t t' : Listing} {source target : Location} (h : t.rename source target = .ok t')
    (q : List String) :
    t'.shapeAt? q =
      if q = source.settled then none
      else if q = target.settled then t.shapeAt? source.settled
      else t.shapeAt? q := by
  unfold rename at h
  cases hr : t.read source with
  | error fault => simp [hr] at h
  | ok c =>
    rw [hr] at h
    cases hw : t.write target c with
    | error fault => simp [hw] at h
    | ok written =>
      simp only [hw] at h
      rw [shapeAt?_removeFile h, shapeAt?_write hw, (read_eq_ok.1 hr).2]

theorem shapeAt?_rename_dir {t t' : Listing} {source target : Location} (h : t.rename source target = .ok t')
    {q : List String} : t'.shapeAt? q = some .dir ↔ t.shapeAt? q = some .dir := by
  unfold rename at h
  cases hr : t.read source with
  | error fault => simp [hr] at h
  | ok c =>
    rw [hr] at h
    cases hw : t.write target c with
    | error fault => simp [hw] at h
    | ok written =>
      simp only [hw] at h
      rw [← shapeAt?_write_dir hw, shapeAt?_removeFile h]
      split
      · rename_i hq
        obtain ⟨-, ⟨c', hc'⟩, -⟩ := removeFile_eq_ok h
        simp [hq, hc']
      · rfl

/-- A file can be moved to any other place where one can be written. -/
theorem rename_of_leads {t : Listing} {source target : Location} {c : ByteArray} (hs : t.Leads source)
    (hf : t.shapeAt? source.settled = some (.file c)) (ht : t.Leads target) (hlast : target.getLast? ≠ some "")
    (hd : t.shapeAt? target.settled ≠ some .dir) (hne : source.settled ≠ target.settled) :
    ∃ t', t.rename source target = .ok t' := by
  have hwrite := write_of_leads ht hlast hd c
  have hkept := shapeAt?_write hwrite
  have hleads : (t.putAt target.settled (.file c)).Leads source := by
    refine hs.mono fun q hq => ?_
    have hne : q ≠ target.settled := by
      rintro rfl
      exact hd hq
    rw [hkept, if_neg hne, hq]
  have hfile : (t.putAt target.settled (.file c)).shapeAt? source.settled = some (.file c) := by
    rw [hkept, if_neg hne, hf]
  unfold rename
  rw [read_eq_ok.2 ⟨hs, hf⟩]
  simp only [hwrite]
  exact ⟨_, removeFile_of_leads hleads hfile⟩

end Listing

end TreeRepair
