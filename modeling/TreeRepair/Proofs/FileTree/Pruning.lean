import TreeRepair.Proofs.FileTree.Walk
import TreeRepair.Proofs.KeyOrder

/-! Walking with pruning is filtering. A walk turns back at a directory that its rules name, so it never sees what lies
below. An induction over the tree relates that to a condition on the names above a file: the files met are all files of
the tree but those below such a directory, in the same order. The root is entered in any case, and nothing depends on
what it is called. -/

set_option autoImplicit false

namespace TreeRepair

namespace Listing

theorem filesBelow_eq (t : Listing) (above : List String) :
    t.filesBelow above = t.files.map fun a => (above ++ a.1, a.2) := by
  rw [files]
  induction t generalizing above with
  | empty => rfl
  | file n c rest ih =>
    rw [filesBelow, filesBelow, ih, List.map_cons]
    rfl
  | dir n inner rest ihi ih =>
    rw [filesBelow, filesBelow, ih, ihi, ihi ([] ++ [n]), List.map_append, List.map_map]
    simp [Function.comp_def]

theorem files_file (n : String) (c : ByteArray) (rest : Listing) : (file n c rest).files = ([n], c) :: rest.files := rfl

theorem files_dir (n : String) (inner rest : Listing) :
    (dir n inner rest).files = (inner.files.map fun a => (n :: a.1, a.2)) ++ rest.files := by
  rw [files, filesBelow, filesBelow_eq]
  rfl

theorem ne_nil_of_mem_files {t : Listing} {a : List String × ByteArray} (h : a ∈ t.files) : a.1 ≠ [] := by
  induction t with
  | empty => cases h
  | file n c rest ih =>
    rw [files_file, List.mem_cons] at h
    obtain rfl | h := h
    · exact List.cons_ne_nil n []
    · exact ih h
  | dir n inner rest _ ih =>
    rw [files_dir, List.mem_append] at h
    obtain h | h := h
    · obtain ⟨b, -, rfl⟩ := List.mem_map.1 h
      exact List.cons_ne_nil n b.1
    · exact ih h

end Listing

namespace SourceFilter

variable {f f' : SourceFilter} {t t' : Listing} {root root' : Location} {names : List String} {file : TreeFile}

/-! ## Files below pruned directories -/

/-- A directory above a file, but below the root, is left out for its name or for its path. -/
def Covered (f : SourceFilter) (root : Location) (names : List String) : Prop :=
  ∃ above n below, names = above ++ n :: below ∧ below ≠ [] ∧
    (n ∈ f.skipDirs ∨ ∃ e ∈ f.excluded, e.components = Location.components (root ++ above ++ [n]))

theorem prunes_iff {l : Location} {n : String} :
    f.prunes l n = true ↔ n ∈ f.skipDirs ∨ ∃ e ∈ f.excluded, e.components = l.components := by
  simp [prunes, skipsDir, Location.same]

theorem enters_iff : f.Enters root [] names ↔ ¬ f.Covered root names := by
  constructor
  · rintro h ⟨above, n, below, rfl, hne, hpruned⟩
    rw [← prunes_iff, List.append_assoc] at hpruned
    have hopen := h above n ⟨below, by simp⟩ (by simpa using hne.symm)
    exact Bool.false_ne_true (hopen.symm.trans hpruned)
  · rintro h above n ⟨below, rfl⟩ hne
    refine Bool.eq_false_iff.2 fun hpruned => h ⟨above, n, below, by simp, by simpa using hne, ?_⟩
    rw [List.append_assoc]
    exact prunes_iff.1 hpruned

instance decidableEnters (f : SourceFilter) (root : Location) :
    (above names : List String) → Decidable (f.Enters root above names)
  | _, [] => isTrue fun p n hp => absurd (List.prefix_nil.1 hp) (by simp)
  | _, [_] => isTrue fun p n hp hne => absurd (hp.eq_of_length_le (by simp)) hne
  | above, n :: m :: rest =>
    have := decidableEnters f root (above ++ [n]) (m :: rest)
    decidable_of_iff _ (enters_cons (List.cons_ne_nil m rest)).symm

instance decidableCovered (f : SourceFilter) (root : Location) (names : List String) :
    Decidable (f.Covered root names) := decidable_of_iff _ ((not_congr enters_iff).trans not_not)

/-! ## Pruning and filtering -/

theorem reach_eq_filter (f : SourceFilter) (root : Location) (above : List String) (t : Listing) :
    f.reach root above t =
      (t.files.filter fun a => f.Enters root above a.1).map fun a => (above ++ a.1, a.2.size) := by
  induction t generalizing above with
  | empty => rfl
  | file n c rest ih =>
    have hnow : f.Enters root above [n] := fun p m hp hne => absurd (hp.eq_of_length_le (by simp)) hne
    rw [reach, ih, Listing.files_file, List.filter_cons, if_pos (by simpa using hnow)]
    rfl
  | dir n inner rest ihi ih =>
    -- a file below the directory is met if the directory is entered, and the file then met from there
    have hbelow : ∀ a ∈ inner.files, decide (f.Enters root above (n :: a.1)) =
        (!f.prunes (root ++ (above ++ [n])) n && decide (f.Enters root (above ++ [n]) a.1)) := fun a ha => by
      simp [enters_cons (Listing.ne_nil_of_mem_files ha)]
    rw [reach, ih, Listing.files_dir, List.filter_append, List.map_append]
    congr 1
    simp only [List.filter_map, List.map_map, Function.comp_def]
    rw [List.filter_congr hbelow]
    split
    · rename_i hpruned
      simp [hpruned]
    · rename_i hopen
      rw [ihi]
      simp [hopen]

/-- A file of a tree as it is met from the root of a walk. -/
def met (root : Location) (a : List String × ByteArray) : TreeFile := ⟨root ++ a.1, Key.ofNames a.1, a.2.size⟩

theorem walkFiles_eq {inner : Listing} (h : t.listing root = .ok inner) : f.walkFiles t root =
    ((inner.files.filter fun a => ¬ f.Covered root a.1 ∧ f.ignores (Key.ofNames a.1) = false).map
      (met root)).mergeSort keyLe := by
  rw [walkFiles, walk, h]
  refine congrArg (List.mergeSort · keyLe) ?_
  simp only [reach_eq_filter, List.map_map, List.filter_map, List.filter_filter, enters_iff]
  refine congrArg₂ List.map rfl (List.filter_congr fun a _ => ?_)
  simp [Bool.and_comm]

theorem walk_eq_filter (f : SourceFilter) (t : Listing) (root : Location) (keep : String → Bool) :
    f.walk t root keep = (f.walkFiles t root).filter fun file => keep file.key := by
  rw [walkFiles, walk, walk]
  cases t.listing root with
  | error fault => rfl
  | ok inner =>
    refine (congrArg (List.mergeSort · keyLe) ?_).trans (KeyOrder.filter_mergeSort_notBehind TreeFile.key _ _).symm
    simp only [List.filter_filter, Bool.and_true]
    exact List.filter_congr fun file _ => Bool.and_comm ..

/-! ## The name of the root -/

/-- Rules that say the same of what lies below one root and below another. -/
structure Alike (f : SourceFilter) (root : Location) (f' : SourceFilter) (root' : Location) : Prop where
  extensions : f.extensions = f'.extensions
  ignores : f.ignores = f'.ignores
  skipDirs : f.skipDirs = f'.skipDirs
  excluded : ∀ names, names ≠ [] → (f.excluded.any (·.same (root ++ names)) = f'.excluded.any (·.same (root' ++ names)))

theorem Alike.reach_eq (h : f.Alike root f' root') (above : List String) (t : Listing) :
    f.reach root above t = f'.reach root' above t := by
  induction t generalizing above with
  | empty => rfl
  | file n c rest ih => rw [reach, reach, ih]
  | dir n inner rest ihi ih =>
    have hprunes : f.prunes (root ++ (above ++ [n])) n = f'.prunes (root' ++ (above ++ [n])) n := by
      rw [prunes, prunes, skipsDir, skipsDir, h.skipDirs, h.excluded (above ++ [n]) (by simp)]
    rw [reach, reach, ih, ihi, hprunes]

/-- What is known of a file apart from where the root of its walk lies. -/
def keyAndSize (file : TreeFile) : String × Nat := (file.key, file.size)

/-- Wherever a directory lies and whatever it is called, a walk from it finds the same keys and sizes. -/
theorem Alike.walk_eq (h : f.Alike root f' root') (hsame : t'.listing root' = t.listing root) (keep : String → Bool) :
    (f.walk t root keep).map keyAndSize = (f'.walk t' root' keep).map keyAndSize := by
  rw [walk, walk, hsame, ← h.ignores]
  cases t.listing root with
  | error fault => rfl
  | ok inner =>
    -- keys and sizes are in the same order as the files are
    have hsorted : ∀ l : List TreeFile,
        (l.mergeSort keyLe).map keyAndSize = (l.map keyAndSize).mergeSort fun a b => !(b.1 < a.1) :=
      fun l => List.map_mergeSort fun _ _ _ _ => rfl
    simp only [hsorted, List.map_map, List.filter_map, ← h.reach_eq [] inner]
    rfl

/-! ## What a walk selects -/

/-- The files that a walk finds, said without the walk. -/
structure Selects (f : SourceFilter) (t : Listing) (root : Location) : Prop where
  files : ∀ file, file ∈ f.walkFiles t root ↔ t.isDir root = true ∧ ∃ names c,
    t.shapeAt? (root.settled ++ names) = some (.file c) ∧ ¬ f.Covered root names ∧
      f.ignores (Key.ofNames names) = false ∧ file = ⟨root ++ names, Key.ofNames names, c.size⟩
  below : ∀ file ∈ f.walkFiles t root, ∃ names, names ≠ [] ∧ file.location = root ++ names
  once : ((f.walkFiles t root).map (·.location)).Nodup
  sorted : (f.walkFiles t root).Pairwise fun a b => a.key ≤ b.key
  /-- Files with one key stay in the order of the tree. -/
  filtered : ∀ inner, t.listing root = .ok inner → f.walkFiles t root =
    ((inner.files.filter fun a => ¬ f.Covered root a.1 ∧ f.ignores (Key.ofNames a.1) = false).map
      (met root)).mergeSort keyLe
  sources : f.walkSources t root = (f.walkFiles t root).filter fun file => f.isSource file.key
  noDir : t.isDir root = false → f.walkFiles t root = [] ∧ f.walkSources t root = []
  rootless : ∀ f' t' root', f.Alike root f' root' → t'.listing root' = t.listing root →
    (f.walkFiles t root).map keyAndSize = (f'.walkFiles t' root').map keyAndSize ∧
      (f.walkSources t root).map keyAndSize = (f'.walkSources t' root').map keyAndSize

theorem walk_noDir (h : t.isDir root = false) (keep : String → Bool) : f.walk t root keep = [] := by
  rw [walk]
  cases hl : t.listing root with
  | error fault => rfl
  | ok inner =>
    obtain ⟨hlead, hinner⟩ := Listing.listing_eq_ok.1 hl
    have hdir := Listing.isDir_eq_true.2 ⟨hlead, Listing.shapeAt?_eq_dir.2 ⟨inner, hinner⟩⟩
    exact absurd (h.symm.trans hdir) Bool.false_ne_true

theorem walks_iff {c : ByteArray} : f.Walks t root names c ↔ t.isDir root = true ∧
    t.shapeAt? (root.settled ++ names) = some (.file c) ∧ ¬ f.Covered root names ∧
      f.ignores (Key.ofNames names) = false := by
  refine ⟨fun h => ⟨h.isDir, h.isFile, enters_iff.1 h.enters, h.kept⟩, fun ⟨hdir, hfile, hopen, hkept⟩ =>
    ⟨hdir, ?_, hfile, enters_iff.2 hopen, hkept⟩⟩
  rintro rfl
  rw [List.append_nil, (Listing.isDir_eq_true.1 hdir).2] at hfile
  cases hfile

/-- For every tree, every root and all rules, walking with pruning selects what filtering selects. -/
theorem selects (f : SourceFilter) (ht : t.WellFormed) (root : Location) : f.Selects t root where
  files file := by
    simp only [mem_walkFiles ht, walks_iff]
    constructor
    · rintro ⟨names, c, ⟨hdir, hfile, hopen, hkept⟩, rfl⟩
      exact ⟨hdir, names, c, hfile, hopen, hkept, rfl⟩
    · rintro ⟨hdir, names, c, hfile, hopen, hkept, rfl⟩
      exact ⟨names, c, ⟨hdir, hfile, hopen, hkept⟩, rfl⟩
  below file hfile := by
    obtain ⟨names, c, hw, rfl⟩ := (mem_walkFiles ht).1 hfile
    exact ⟨names, hw.ne_nil, rfl⟩
  once := by
    refine (walkFiles_nodup f ht root).map_on fun a ha b hb heq => ?_
    obtain ⟨ns, c, hns, rfl⟩ := (mem_walkFiles ht).1 ha
    obtain ⟨ms, d, hms, rfl⟩ := (mem_walkFiles ht).1 hb
    obtain rfl : ns = ms := List.append_cancel_left heq
    obtain rfl : c = d := by simpa [hns.isFile] using hms.isFile
    rfl
  sorted := by
    rw [walkFiles, walk]
    cases t.listing root with
    | error fault => exact .nil
    | ok inner => exact (mergeSort_pairwise _).imp String.not_lt.1
  filtered inner h := walkFiles_eq h
  sources := walk_eq_filter f t root f.isSource
  noDir h := ⟨walk_noDir h _, walk_noDir h _⟩
  rootless f' t' root' halike hsame := by
    have hsource : f.isSource = f'.isSource := funext fun key => by
      rw [isSource, isSource, halike.extensions, halike.ignores]
    exact ⟨halike.walk_eq hsame _, by rw [walkSources, walkSources, hsource]; exact halike.walk_eq hsame _⟩

/-- Rules that leave out a name, a path and a key. -/
def threefold : SourceFilter := ⟨["js"], ["dist"], [["dist", "cache"]], fun key => key == "lib/b.js"⟩

/-- A directory with a name that is left out, and with directories below it that are left out. -/
def packed : Listing :=
  .dir "dist" (.file "c.txt" "c".toUTF8 (.file "a.js" "aa".toUTF8
    (.dir "lib" (.file "b.js" "b".toUTF8 (.dir "dist" (.file "d.js" "d".toUTF8 .empty) .empty))
      (.dir "cache" (.file "e.js" "e".toUTF8 .empty) .empty)))) (.file "f.js" "f".toUTF8 .empty)

/-- The root is entered for all its name, and what lies beside it is not found. -/
theorem selects_packed : packed.WellFormed ∧ threefold.Selects packed ["dist"] ∧
    (threefold.walkFiles packed ["dist"]).map keyAndSize = [("a.js", 2), ("c.txt", 1)] ∧
    (threefold.walkSources packed ["dist"]).map keyAndSize = [("a.js", 2)] := by
  have hwf : packed.WellFormed := by decide
  have hall : threefold.walkFiles packed ["dist"] =
      [⟨["dist", "a.js"], "a.js", 2⟩, ⟨["dist", "c.txt"], "c.txt", 1⟩] :=
    (walkFiles_eq rfl).trans (KeyOrder.mergeSort_eq_of_perm TreeFile.key (by decide +kernel) (by decide))
  refine ⟨hwf, selects threefold hwf ["dist"], by rw [hall]; rfl, ?_⟩
  rw [walkSources, walk_eq_filter, hall]
  decide

end SourceFilter

end TreeRepair
