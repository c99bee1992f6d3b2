import TreeRepair.Proofs.FileTree.Keys
import TreeRepair.Syntax.Import

/-! Where specifiers lead, by a rule over names: the segments of a specifier are followed from the directory of the
importing file without going above the root, and the place that they reach is probed for a file. `Answers` is the rule;
resolution obeys it except for specifiers that reach the root itself and for the bare dots (`Astray`). -/

set_option autoImplicit false

namespace TreeRepair

open Text Location Listing

namespace Resolution

/-! ## The rule -/

/-- What segments of a path reach from a directory, both by the names below a root. Nothing is reached above it. -/
inductive Follows : List String → List String → List String → Prop
  | stop (here : List String) : Follows here [] here
  | stay {here there rest : List String} {s : String} (hs : isVoid s = true) (h : Follows here rest there) :
      Follows here (s :: rest) there
  | up {here there rest : List String} (n : String) (h : Follows here rest there) :
      Follows (here ++ [n]) (".." :: rest) there
  | down {here there rest : List String} {s : String} (hs : GoesDown s) (h : Follows (here ++ [s]) rest there) :
      Follows here (s :: rest) there

/-- The directory that a specifier starts from and the segments behind it: a leading separator stands for the root. -/
def route (dir : List String) (specifier : String) : List String × List String :=
  match splitString '/' specifier with
  | "" :: p :: rest => ([], p :: rest)
  | segments => (dir, segments)

/-- Whether a specifier reaches a place from a directory. -/
def Reaches (dir : List String) (specifier : String) (there : List String) : Prop :=
  Follows (route dir specifier).1 (route dir specifier).2 there

/-- Names with a text added to the last one; where there is none the text is a name of its own. -/
def extended (names : List String) (extension : String) : List String :=
  names.dropLast ++ [names.getLast?.getD "" ++ extension]

/-- What may be left out at the end of a specifier. -/
def extensions : List String := [".ts", ".tsx", ".js", ".jsx", ".mjs", ".cjs"]

/-- The files that stand for the directory that they lie in. -/
def indexNames : List String := ["index.ts", "index.tsx", "index.js", "index.jsx"]

/-- What a place can stand for, in order: itself, with an extension, or an index file in it. -/
def meanings (there : List String) : List (List String) :=
  there :: (extensions.map (extended there) ++ indexNames.map fun n => there ++ [n])

/-- Whether names lead from a root to a file, by a path that can be followed. -/
def isFileBelow (t : Listing) (root : Location) (names : List String) : Bool :=
  match t.find? (root.settled ++ names) with
  | some (.file _) => decide ((root ++ names : Location).byteSize ≤ pathLimit)
  | _ => false

/-- Whether a specifier asks for a file: it begins with a separator, or its first segment is one of the dots. -/
def asksForFile (specifier : String) : Bool :=
  match splitString '/' specifier with
  | [] => false
  | first :: rest => first == "." || first == ".." || (first == "" && !rest.isEmpty)

/-- No meaning of a place that a specifier reaches is a file. -/
def Fruitless (t : Listing) (root : Location) (dir : List String) (specifier : String) : Prop :=
  ∀ there, Reaches dir specifier there → ∀ names ∈ meanings there, isFileBelow t root names = false

/-- Where a specifier leads from a directory, by the rule: to the first file among the meanings of the place that it
reaches. -/
inductive Answers (t : Listing) (root : Location) (dir : List String) (specifier : String) : Resolution → Prop
  | file {there names : List String} (hthere : Reaches dir specifier there)
      (hfirst : (meanings there).find? (isFileBelow t root) = some names) :
      Answers t root dir specifier (.internal (String.intercalate "/" names))
  | missing (h : Fruitless t root dir specifier) (hasks : asksForFile specifier = true) :
      Answers t root dir specifier (.missing specifier)
  | package (h : Fruitless t root dir specifier) (hasks : asksForFile specifier = false) :
      Answers t root dir specifier (.external (packageName specifier))

/-- Where resolution leaves the rule. -/
inductive Astray (t : Listing) (root : Location) (dir : List String) (specifier : String) : Prop
  /-- Where the root itself is reached, index files are looked for at the top of the whole tree and not in the root. -/
  | top (hroot : Reaches dir specifier []) (hnone : ∀ e ∈ extensions, isFileBelow t root [e] = false)
      (hindex : ∃ n ∈ indexNames, isFileBelow t root [n] = true ∨ t.isFile [n] = true)
  /-- The bare dots count as packages. -/
  | dots (hdots : specifier = "." ∨ specifier = "..") (h : Fruitless t root dir specifier)

/-! ## Following -/

variable {here there dir names segments : List String} {specifier key : String} {t : Listing} {root : Location}

theorem isVoid_iff {s : String} : isVoid s = true ↔ s = "" ∨ s = "." := by simp [isVoid]

theorem follows_nil : Follows here [] there ↔ here = there := by
  refine ⟨fun h => ?_, fun h => h ▸ .stop here⟩
  cases h
  rfl

theorem follows_void {s : String} (hs : isVoid s = true) : Follows here (s :: segments) there ↔ Follows here segments there := by
  refine ⟨fun h => ?_, .stay hs⟩
  cases h with
  | stay _ h => exact h
  | up n h => exact absurd hs (by decide)
  | down hdown _ => exact absurd hs (by simp [hdown.1])

theorem follows_up : Follows here (".." :: segments) there ↔
    ∃ above n, here = above ++ [n] ∧ Follows above segments there := by
  refine ⟨fun h => ?_, ?_⟩
  · cases h with
    | stay hs _ => exact absurd hs (by decide)
    | up n h => exact ⟨_, n, rfl, h⟩
    | down hdown _ => exact absurd rfl hdown.2
  · rintro ⟨above, n, rfl, h⟩
    exact .up n h

theorem follows_down {s : String} (hs : GoesDown s) :
    Follows here (s :: segments) there ↔ Follows (here ++ [s]) segments there := by
  refine ⟨fun h => ?_, .down hs⟩
  cases h with
  | stay hvoid _ => exact absurd hvoid (by simp [hs.1])
  | up n h => exact absurd rfl hs.2
  | down _ h => exact h

theorem fold_eq_some {back done : List String} :
    Key.fold back segments = some done ↔ Follows back.reverse segments done.reverse := by
  fun_induction Key.fold back segments with
  | case1 back => rw [follows_nil, List.reverse_inj, Option.some.injEq]
  | case2 back s rest hs ih => rw [ih, follows_void (isVoid_iff.2 hs)]
  | case3 rest hs => simp [follows_up]
  | case4 rest n up hs ih =>
    rw [ih, follows_up, List.reverse_cons]
    refine ⟨fun h => ⟨_, n, rfl, h⟩, fun ⟨above, m, heq, h⟩ => ?_⟩
    rwa [(List.append_inj' heq rfl).1]
  | case5 back s rest hs hup ih =>
    have hdown : GoesDown s := ⟨Bool.eq_false_iff.2 fun hv => hs (isVoid_iff.1 hv), hup⟩
    rw [ih, follows_down hdown, List.reverse_cons]

/-- The names that segments reach are names passed on the way or segments that go down. -/
theorem Follows.mem (h : Follows here segments there) {n : String} (hn : n ∈ there) :
    n ∈ here ∨ n ∈ segments ∧ GoesDown n := by
  induction h with
  | stop => exact .inl hn
  | stay _ _ ih => exact (ih hn).imp_right fun hs => ⟨List.mem_cons_of_mem _ hs.1, hs.2⟩
  | up m _ ih => exact (ih hn).imp (List.mem_append_left _) fun hs => ⟨List.mem_cons_of_mem _ hs.1, hs.2⟩
  | down hs _ ih =>
    rcases ih hn with hhere | hseg
    · refine (List.mem_append.1 hhere).imp_right fun heq => ?_
      rw [List.mem_singleton.1 heq]
      exact ⟨List.mem_cons_self .., hs⟩
    · exact .inr ⟨List.mem_cons_of_mem _ hseg.1, hseg.2⟩

theorem Follows.unique (h : Follows here segments there) {there' : List String} (h' : Follows here segments there') :
    there = there' := by
  rw [← List.reverse_reverse here, ← List.reverse_reverse there, ← fold_eq_some] at h
  rw [← List.reverse_reverse here, ← List.reverse_reverse there', ← fold_eq_some, h, Option.some.injEq] at h'
  exact List.reverse_injective h'

/-! ## Segments and keys as texts -/

theorem asksForFile_iff : asksForFile specifier = true ↔
    isRelative specifier = true ∨ specifier = "." ∨ specifier = ".." := by
  obtain ⟨first, rest, hs⟩ := List.exists_cons_of_ne_nil (splitString_ne_nil '/' specifier)
  have hhere := startsWith_iff specifier "." (by decide)
  have hup := startsWith_iff specifier ".." (by decide)
  have htop := startsWith_iff specifier "" (by decide)
  rw [show "." ++ "/" = "./" from rfl] at hhere
  rw [show ".." ++ "/" = "../" from rfl] at hup
  rw [show "" ++ "/" = "/" from rfl] at htop
  rw [← splitString_eq_singleton (s := ".") (by decide), ← splitString_eq_singleton (s := "..") (by decide), isRelative,
    Bool.or_eq_true, Bool.or_eq_true, hhere, hup, htop, asksForFile, hs]
  cases rest <;> simp

theorem intercalate_extended (names : List String) (e : String) :
    String.intercalate "/" (extended names e) = String.intercalate "/" names ++ e := by
  have hconcat : ∀ (front : List String) (n : String),
      String.intercalate "/" (front ++ [n ++ e]) = String.intercalate "/" (front ++ [n]) ++ e := by
    intro front n
    induction front with
    | nil => simp [String.intercalate_singleton]
    | cons m ms ih =>
      obtain ⟨k, ks, hks⟩ := List.exists_cons_of_ne_nil (l := ms ++ [n]) (by simp)
      obtain ⟨k', ks', hks'⟩ := List.exists_cons_of_ne_nil (l := ms ++ [n ++ e]) (by simp)
      rw [List.cons_append, List.cons_append, hks, hks', String.intercalate_cons_cons, String.intercalate_cons_cons,
        ← hks, ← hks', ih]
      simp [String.append_assoc]
  rcases List.eq_nil_or_concat names with rfl | ⟨front, n, rfl⟩
  · simp [extended, String.intercalate_nil, String.intercalate_singleton]
  · rw [List.concat_eq_append, extended, List.dropLast_concat, List.getLast?_concat, Option.getD_some, hconcat]

theorem intercalate_concat (hne : names ≠ []) (n : String) :
    String.intercalate "/" (names ++ [n]) = String.intercalate "/" names ++ ("/" ++ n) := by
  induction names with
  | nil => exact absurd rfl hne
  | cons m ms ih =>
    cases ms with
    | nil => simp [String.intercalate_singleton, String.intercalate_cons_cons, String.append_assoc]
    | cons k ks =>
      rw [List.cons_append, List.cons_append, String.intercalate_cons_cons, ← List.cons_append, ih (List.cons_ne_nil k ks),
        String.intercalate_cons_cons]
      simp [String.append_assoc]

/-! ## Keys in a tree -/

/-- A segment of a normalized key. -/
def IsSegment (n : String) : Prop := GoesDown n ∧ '/' ∉ n.toList

instance (n : String) : Decidable (IsSegment n) := inferInstanceAs (Decidable (_ ∧ _))

/-- The names that the key of a directory is made of. -/
def namesOf (dir : String) : List String := (splitString '/' dir).filter (· != "")

theorem namesOf_intercalate (h : ∀ n ∈ names, n ≠ "" ∧ '/' ∉ n.toList) :
    namesOf (String.intercalate "/" names) = names := by
  cases names with
  | nil => rfl
  | cons n ns =>
    rw [namesOf, splitString_intercalate (List.cons_ne_nil n ns) fun m hm => (h m hm).2, List.filter_eq_self]
    exact fun m hm => bne_iff_ne.2 (h m hm).1

theorem IsSegment.ne_blank {n : String} (h : IsSegment n) : n ≠ "" := by
  rintro rfl
  exact absurd h.1.1 (by decide)

theorem parent_intercalate (h : ∀ n ∈ names, IsSegment n) :
    Key.parent (String.intercalate "/" names) = String.intercalate "/" names.dropLast := by
  have hlast : ∀ n ∈ names, n.toList.reverse.dropWhile (· != '/') = [] := by
    intro n hn
    rw [List.dropWhile_eq_nil_iff]
    intro c hc
    rw [bne_iff_ne]
    rintro rfl
    exact (h n hn).2 (List.mem_reverse.1 hc)
  rcases List.eq_nil_or_concat names with rfl | ⟨front, n, rfl⟩
  · rfl
  · rw [List.concat_eq_append] at hlast ⊢
    have hn := hlast n (by simp)
    rw [List.dropLast_concat, Key.parent]
    by_cases hfront : front = []
    · rw [hfront, List.nil_append, String.intercalate_singleton, hn]
      rfl
    · rw [intercalate_concat hfront, String.toList_append, String.toList_append, show "/".toList = ['/'] from rfl]
      simp [List.dropWhile_append, hn, -String.toList_intercalate]

/-- A specifier starts from the names of its directory. -/
theorem anchor_eq (directory specifier : String) : Key.anchor directory specifier = route (namesOf directory) specifier := by
  have htop := startsWith_iff specifier "" (by decide)
  rw [show "" ++ "/" = "/" from rfl] at htop
  rw [Key.anchor]
  split
  · rename_i hslash
    obtain ⟨p, ps, hs⟩ := htop.1 hslash
    have hpieces : ∀ q ∈ p :: ps, '/' ∉ q.toList := fun q hq =>
      isCut_splitString specifier q (hs ▸ List.mem_cons_of_mem _ hq)
    -- a specifier from the top is cut once more behind its first character, which gives the same pieces
    have htail : specifier.toList.tail = (String.intercalate "/" (p :: ps)).toList := by
      conv_lhs => rw [← intercalate_splitString specifier, hs, String.intercalate_cons_cons]
      simp
    rw [htail, String.ofList_toList, splitString_intercalate (List.cons_ne_nil p ps) hpieces, route, hs]
    rfl
  · rename_i hslash
    rw [← namesOf, route]
    split
    · rename_i p ps hs
      exact absurd (htop.2 ⟨p, ps, hs⟩) hslash
    · rfl

theorem join_eq_some_iff {directory : String} : Key.join? directory specifier = some key ↔
    ∃ there, Reaches (namesOf directory) specifier there ∧ String.intercalate "/" there = key := by
  rw [Key.join?, anchor_eq, Option.map_eq_some_iff]
  refine ⟨fun ⟨back, hfold, hkey⟩ => ⟨back.reverse, ?_, hkey⟩, fun ⟨there, hthere, hkey⟩ => ⟨there.reverse, ?_, ?_⟩⟩
  · rw [fold_eq_some, List.reverse_reverse] at hfold
    exact hfold
  · rw [fold_eq_some, List.reverse_reverse, List.reverse_reverse]
    exact hthere
  · rw [List.reverse_reverse, hkey]

theorem join_eq_some (h : ∀ n ∈ dir, IsSegment n) :
    Key.join? (String.intercalate "/" dir) specifier = some key ↔
      ∃ there, Reaches dir specifier there ∧ String.intercalate "/" there = key := by
  rw [join_eq_some_iff, namesOf_intercalate fun n hn => ⟨(h n hn).ne_blank, (h n hn).2⟩]

theorem Reaches.unique (h : Reaches dir specifier there) {there' : List String} (h' : Reaches dir specifier there') :
    there = there' := Follows.unique h h'

theorem Reaches.isSegment (h : Reaches dir specifier there) (hdir : ∀ n ∈ dir, IsSegment n) : ∀ n ∈ there, IsSegment n := by
  intro n hn
  have hroute : (∀ m ∈ (route dir specifier).1, IsSegment m) ∧ ∀ m ∈ (route dir specifier).2, m ∈ splitString '/' specifier := by
    rw [route]
    split
    · rename_i p ps hs
      exact ⟨by simp, fun m hm => hs ▸ List.mem_cons_of_mem _ hm⟩
    · exact ⟨hdir, fun m hm => hm⟩
  rcases Follows.mem h hn with hhere | ⟨hseg, hdown⟩
  · exact hroute.1 n hhere
  · exact ⟨hdown, isCut_splitString specifier n (hroute.2 n hseg)⟩

end Resolution

end TreeRepair
