import Mathlib.Data.List.Find
import TreeRepair.Proofs.Syntax.Specifiers

/-! What a specifier is answered. The place that it reaches is probed with suffixes of its key, which below the root are
the meanings of the place in their order; so resolution keeps to the rule unless a specifier goes astray. -/

set_option autoImplicit false

namespace TreeRepair

open Text Location Listing

namespace Resolution

variable {there dir names : List String} {specifier : String} {t : Listing} {root : Location}

/-! ## Meanings -/

theorem mem_extensions {e : String} (h : e ∈ extensions) : 2 < e.toList.length ∧ '/' ∉ e.toList := by
  revert e
  decide

theorem isSegment_indexNames {n : String} (h : n ∈ indexNames) : IsSegment n := by
  revert n
  decide

theorem segments_of_mem_meanings (h : ∀ n ∈ there, IsSegment n) {m : List String} (hm : m ∈ meanings there) :
    ∀ n ∈ m, IsSegment n := by
  rw [meanings, List.mem_cons, List.mem_append, List.mem_map, List.mem_map] at hm
  rcases hm with rfl | ⟨e, he, rfl⟩ | ⟨i, hi, rfl⟩
  · exact h
  · intro n hn
    rcases List.mem_append.1 hn with hfront | hlast
    · exact h n (List.dropLast_subset _ hfront)
    · obtain ⟨hlen, hslash⟩ := mem_extensions he
      obtain rfl := List.mem_singleton.1 hlast
      refine ⟨goesDown_of_length ?_, ?_⟩
      · rw [String.toList_append, List.length_append]
        omega
      · rw [String.toList_append, List.mem_append, not_or]
        refine ⟨?_, hslash⟩
        cases hl : there.getLast? with
        | none => simp
        | some n => exact (h n (List.mem_of_getLast? hl)).2
  · intro n hn
    rcases List.mem_append.1 hn with hthere | hindex
    · exact h n hthere
    · rw [List.mem_singleton.1 hindex]
      exact isSegment_indexNames hi

theorem ne_nil_of_mem_meanings (hne : there ≠ []) {m : List String} (hm : m ∈ meanings there) : m ≠ [] := by
  rw [meanings, List.mem_cons, List.mem_append, List.mem_map, List.mem_map] at hm
  rcases hm with rfl | ⟨e, he, rfl⟩ | ⟨i, hi, rfl⟩
  · exact hne
  · simp [extended]
  · simp

theorem isFileBelow_iff : isFileBelow t root names = true ↔
    (∃ c, t.shapeAt? (root.settled ++ names) = some (.file c)) ∧ (root ++ names : Location).byteSize ≤ pathLimit := by
  simp only [isFileBelow, shapeAt?_eq_file]
  cases t.find? (root.settled ++ names) with
  | none => simp
  | some e => cases e <;> simp

section Tree

variable (ht : t.WellFormed) (hroot : t.isDir root = true)

include ht hroot

theorem isFile_join (hne : names ≠ []) (h : ∀ n ∈ names, IsSegment n) :
    t.isFile (root.join (String.intercalate "/" names)) = isFileBelow t root names := by
  obtain ⟨⟨hcheck, hpass⟩, -⟩ := isDir_eq_true.1 hroot
  have hjoin : root.join (String.intercalate "/" names) = root ++ names := by
    obtain ⟨n, ns, rfl⟩ := List.exists_cons_of_ne_nil hne
    refine join_of_head (splitString_intercalate hne fun m hm => (h m hm).2) ?_
    rintro rfl
    exact absurd (h "" (List.mem_cons_self ..)).1.1 (by decide)
  rw [hjoin, Bool.eq_iff_iff, isFile_eq_true, isFileBelow_iff, settled_append_names fun n hn => (h n hn).1]
  constructor
  · rintro ⟨hlead, hfile⟩
    exact ⟨hfile, (checkPath_eq_ok.1 hlead.1).2⟩
  -- names in a tree are short and hold no NUL, so only the length of the whole path can stand in the way
  · rintro ⟨⟨c, hfile⟩, hsize⟩
    have hthere : t.shapeAt? (root.settled ++ names) ≠ none := by simp [hfile]
    have hname : ∀ n ∈ names, IsName n := fun n hn =>
      isName_of_shapeAt? ht hthere n (List.mem_append_right _ hn)
    refine ⟨⟨checkPath_eq_ok.2 ⟨?_, hsize⟩, Passable.append.2 ⟨hpass, ?_⟩⟩, c, hfile⟩
    · rw [hasNul, List.any_append, Bool.or_eq_false_iff]
      refine ⟨(checkPath_eq_ok.1 hcheck).1, List.any_eq_false.2 fun n hn hnul => ?_⟩
      obtain ⟨c, hc, hzero⟩ := List.any_eq_true.1 hnul
      exact (hname n hn).noNul c hc (by simpa using hzero)
    · exact passable_names (fun n hn => (h n hn).1) (fun n hn => (hname n hn).short) hthere

omit ht in
theorem isFileBelow_nil : isFileBelow t root [] = false := by
  obtain ⟨-, hdir⟩ := isDir_eq_true.1 hroot
  rw [Bool.eq_false_iff, Ne, isFileBelow_iff]
  rintro ⟨⟨c, hfile⟩, -⟩
  rw [List.append_nil, hdir] at hfile
  cases hfile

/-! ## Probing -/

theorem probe_intercalate (hne : there ≠ []) (h : ∀ n ∈ there, IsSegment n) :
    probe? (fun key => t.isFile (root.join key)) (String.intercalate "/" there) =
      ((meanings there).find? (isFileBelow t root)).map (String.intercalate "/") := by
  have hkeys : suffixes.map (String.intercalate "/" there ++ ·) = (meanings there).map (String.intercalate "/") := by
    have hsuffixes : suffixes = "" :: (extensions ++ indexNames.map ("/" ++ ·)) := rfl
    rw [hsuffixes, meanings, List.map_cons, List.map_cons, List.map_append, List.map_append, List.map_map, List.map_map,
      List.map_map, String.append_empty]
    congr 2
    · exact List.map_congr_left fun e _ => (intercalate_extended there e).symm
    · exact List.map_congr_left fun n _ => (intercalate_concat hne n).symm
  rw [probe?, hkeys, List.find?_map]
  refine congrArg _ (List.find?_congr fun m hm => ?_)
  have hm0 := ne_nil_of_mem_meanings hne hm
  have hsegments := segments_of_mem_meanings h hm
  have hkey : (String.intercalate "/" m).isEmpty = false := by
    obtain ⟨n, ns, rfl⟩ := List.exists_cons_of_ne_nil hm0
    rw [String.isEmpty_eq_false_iff]
    intro hempty
    have hsplit := splitString_intercalate hm0 fun k hk => (hsegments k hk).2
    rw [hempty, Key.splitString_eq_blank.2 rfl] at hsplit
    obtain ⟨rfl, -⟩ := List.cons.inj hsplit
    exact absurd (hsegments "" (List.mem_cons_self ..)).1.1 (by decide)
  rw [Function.comp_apply, hkey, isFile_join ht hroot hm0 hsegments]
  rfl

theorem probe_top : probe? (fun key => t.isFile (root.join key)) "" =
    (extensions.find? fun e => isFileBelow t root [e]).or ((indexNames.find? fun n => t.isFile [n]).map ("/" ++ ·)) := by
  have hsuffixes : suffixes.map ("" ++ ·) = "" :: (extensions ++ indexNames.map ("/" ++ ·)) := by decide
  rw [probe?, hsuffixes, List.find?_cons_of_neg (by simp), List.find?_append, List.find?_map]
  refine congrArg₂ Option.or ?_ ?_
  · refine List.find?_congr fun e he => ?_
    obtain ⟨hlen, hslash⟩ := mem_extensions he
    have hempty : e.isEmpty = false := by
      rw [String.isEmpty_eq_false_iff]
      rintro rfl
      exact absurd hlen (by decide)
    have hfile := isFile_join ht hroot (List.cons_ne_nil e []) fun n hn => by
      rw [List.mem_singleton.1 hn]
      exact ⟨goesDown_of_length hlen, hslash⟩
    rw [String.intercalate_singleton] at hfile
    rw [hempty, hfile]
    rfl
  · refine congrArg _ (List.find?_congr fun n hn => ?_)
    have hsplit : splitString '/' ("/" ++ n) = ["", n] ∧ ("/" ++ n).isEmpty = false := by
      revert n
      decide
    rw [Function.comp_apply, hsplit.2, Location.join, hsplit.1]
    rfl

omit ht in
theorem find_meanings_top : (meanings []).find? (isFileBelow t root) =
    ((extensions.find? fun e => isFileBelow t root [e]).map fun e => [e]).or
      ((indexNames.find? fun n => isFileBelow t root [n]).map fun n => [n]) := by
  have hmeanings : meanings [] = [] :: (extensions.map (fun e => [e]) ++ indexNames.map fun n => [n]) := by decide
  rw [hmeanings, List.find?_cons_of_neg (by simp [isFileBelow_nil hroot]), List.find?_append, List.find?_map, List.find?_map]
  rfl

end Tree

/-! ## Answers -/

/-- What is answered where no file is found. -/
def unfound (specifier : String) : Resolution :=
  if isRelative specifier then .missing specifier else .external (packageName specifier)

theorem fruitless_iff (h : Reaches dir specifier there) :
    Fruitless t root dir specifier ↔ (meanings there).find? (isFileBelow t root) = none := by
  simp only [List.find?_eq_none, Bool.not_eq_true]
  refine ⟨fun hf => hf there h, fun hnone there' h' => ?_⟩
  rwa [← h.unique h']

theorem not_fruitless (h : Reaches dir specifier there) (hfirst : (meanings there).find? (isFileBelow t root) = some names) :
    ¬ Fruitless t root dir specifier := by
  rw [fruitless_iff h, hfirst]
  simp

theorem existsUnique_answers (t : Listing) (root : Location) (dir : List String) (specifier : String) :
    ∃! r, Answers t root dir specifier r := by
  have hfound : ∀ {there names}, Reaches dir specifier there → (meanings there).find? (isFileBelow t root) = some names →
      ∃! r, Answers t root dir specifier r := by
    intro there names h hfirst
    refine ⟨_, .file h hfirst, fun r hr => ?_⟩
    cases hr with
    | file h' hfirst' =>
      rw [← h.unique h', hfirst, Option.some.injEq] at hfirst'
      rw [hfirst']
    | missing hf _ => exact absurd hf (not_fruitless h hfirst)
    | package hf _ => exact absurd hf (not_fruitless h hfirst)
  have hnone : Fruitless t root dir specifier → ∃! r, Answers t root dir specifier r := by
    intro hf
    cases hasks : asksForFile specifier with
    | true =>
      refine ⟨_, .missing hf hasks, fun r hr => ?_⟩
      cases hr with
      | file h hfirst => exact absurd hf (not_fruitless h hfirst)
      | missing => rfl
      | package _ h => rw [hasks] at h; cases h
    | false =>
      refine ⟨_, .package hf hasks, fun r hr => ?_⟩
      cases hr with
      | file h hfirst => exact absurd hf (not_fruitless h hfirst)
      | missing _ h => rw [hasks] at h; cases h
      | package => rfl
  by_cases h : ∃ there, Reaches dir specifier there
  · obtain ⟨there, h⟩ := h
    cases hfirst : (meanings there).find? (isFileBelow t root) with
    | none => exact hnone ((fruitless_iff h).2 hfirst)
    | some names => exact hfound h hfirst
  · exact hnone fun there hthere => absurd ⟨there, hthere⟩ h

theorem answers_unfound_iff (h : Fruitless t root dir specifier) :
    Answers t root dir specifier (unfound specifier) ↔ ¬ (specifier = "." ∨ specifier = "..") := by
  have hasks : asksForFile specifier = true ↔ _ := asksForFile_iff
  constructor
  · intro hanswer hdots
    have hrel : isRelative specifier = false := by rcases hdots with rfl | rfl <;> decide +kernel
    have hpackage : unfound specifier = .external (packageName specifier) := by
      rw [unfound, hrel]
      rfl
    rw [hpackage] at hanswer
    generalize hname : packageName specifier = name at hanswer
    cases hanswer with
    | package _ hfalse => exact absurd (hasks.2 (.inr hdots)) (by simp [hfalse])
  · intro hdots
    rw [unfound]
    split
    · rename_i hrel
      exact .missing h (hasks.2 (.inl hrel))
    · rename_i hrel
      exact .package h (Bool.eq_false_iff.2 fun hask => (hasks.1 hask).elim hrel hdots)

theorem unfound_ne_internal (key : String) : unfound specifier ≠ .internal key := by
  rw [unfound]
  split <;> simp

theorem fruitless_of_answers (h : Answers t root dir specifier (unfound specifier)) : Fruitless t root dir specifier := by
  rw [unfound] at h
  split at h
  · cases h with
    | missing hf _ => exact hf
  · generalize packageName specifier = name at h
    cases h with
    | package hf _ => exact hf

section Answer

variable {importer : List String} (himp : ∀ n ∈ importer, IsSegment n)

include himp

theorem inTree_of_unreached (h : ∀ there, ¬ Reaches importer.dropLast specifier there) :
    inTree t root (String.intercalate "/" importer) specifier = unfound specifier := by
  have hdir : ∀ n ∈ importer.dropLast, IsSegment n := fun n hn => himp n (List.dropLast_subset _ hn)
  have hjoin : Key.join? (String.intercalate "/" importer.dropLast) specifier = none :=
    Option.eq_none_iff_forall_ne_some.2 fun key hkey => by
      obtain ⟨there, hthere, -⟩ := (join_eq_some hdir).1 hkey
      exact h there hthere
  rw [inTree, resolve, parent_intercalate himp, hjoin]
  rfl

/-- Where a place is reached, it is probed. -/
theorem inTree_of_reached (h : Reaches importer.dropLast specifier there) :
    inTree t root (String.intercalate "/" importer) specifier =
      ((probe? (fun key => t.isFile (root.join key)) (String.intercalate "/" there)).map .internal).getD
        (unfound specifier) := by
  have hdir : ∀ n ∈ importer.dropLast, IsSegment n := fun n hn => himp n (List.dropLast_subset _ hn)
  rw [inTree, resolve, parent_intercalate himp, (join_eq_some hdir).2 ⟨there, h, rfl⟩, Option.bind_some]
  cases probe? (fun key => t.isFile (root.join key)) (String.intercalate "/" there) <;> rfl

variable (ht : t.WellFormed) (hroot : t.isDir root = true)

include ht hroot

/-- What is answered where a place below the root is reached. -/
theorem inTree_below (h : Reaches importer.dropLast specifier there) (hne : there ≠ []) :
    inTree t root (String.intercalate "/" importer) specifier =
      (((meanings there).find? (isFileBelow t root)).map fun names => .internal (String.intercalate "/" names)).getD
        (unfound specifier) := by
  rw [inTree_of_reached himp h, probe_intercalate ht hroot hne (h.isSegment fun n hn => himp n (List.dropLast_subset _ hn)),
    Option.map_map]
  rfl

/-- What is answered where the root is reached. -/
theorem inTree_top (h : Reaches importer.dropLast specifier []) :
    inTree t root (String.intercalate "/" importer) specifier =
      (((extensions.find? fun e => isFileBelow t root [e]).or
        ((indexNames.find? fun n => t.isFile [n]).map ("/" ++ ·))).map .internal).getD (unfound specifier) := by
  rw [inTree_of_reached himp h, String.intercalate_nil, probe_top ht hroot]

omit ht in
theorem not_answers_slash {n : String} : ¬ Answers t root importer.dropLast specifier (.internal ("/" ++ n)) := by
  intro h
  generalize hkey : "/" ++ n = key at h
  cases h with
  | @file there names hthere hfirst =>
    have hmem := List.mem_of_find?_eq_some hfirst
    have hsegments := segments_of_mem_meanings (hthere.isSegment fun n hn => himp n (List.dropLast_subset _ hn)) hmem
    have hne : names ≠ [] := by
      rintro rfl
      have hfile := List.find?_some hfirst
      rw [isFileBelow_nil hroot] at hfile
      cases hfile
    have hsplit := splitString_intercalate hne fun m hm => (hsegments m hm).2
    have hslash : splitString '/' ("/" ++ n) = "" :: splitString '/' n := by
      rw [splitString, String.toList_append, show "/".toList = [] ++ ['/'] from rfl, List.append_assoc]
      rfl
    rw [← hkey, hslash] at hsplit
    exact absurd (hsegments "" (hsplit ▸ List.mem_cons_self ..)).1.1 (by decide)

omit himp ht hroot in
/-- Resolution keeps to the rule where it finds what the rule finds, which at the root takes an extension. -/
theorem answers_iff_of_found (h : Reaches importer.dropLast specifier there)
    (hfirst : (meanings there).find? (isFileBelow t root) = some names)
    (hin : inTree t root (String.intercalate "/" importer) specifier = .internal (String.intercalate "/" names))
    (htop : there = [] → ∃ e ∈ extensions, isFileBelow t root [e] = true) :
    Answers t root importer.dropLast specifier (inTree t root (String.intercalate "/" importer) specifier) ↔
      ¬ Astray t root importer.dropLast specifier := by
  rw [hin]
  refine iff_of_true (.file h hfirst) fun hastray => ?_
  cases hastray with
  | top hreach hnone _ =>
    obtain ⟨e, he, hfile⟩ := htop (h.unique hreach)
    rw [hnone e he] at hfile
    cases hfile
  | dots _ hf => exact not_fruitless h hfirst hf

omit himp ht hroot in
/-- Resolution keeps to the rule where neither finds a file, but for the bare dots. -/
theorem answers_iff_of_fruitless (hf : Fruitless t root importer.dropLast specifier)
    (hin : inTree t root (String.intercalate "/" importer) specifier = unfound specifier)
    (htop : Reaches importer.dropLast specifier [] → ∀ n ∈ indexNames, t.isFile [n] = false) :
    Answers t root importer.dropLast specifier (inTree t root (String.intercalate "/" importer) specifier) ↔
      ¬ Astray t root importer.dropLast specifier := by
  rw [hin, answers_unfound_iff hf]
  refine not_congr ⟨fun hdots => .dots hdots hf, fun hastray => ?_⟩
  cases hastray with
  | top hreach _ hindex =>
    obtain ⟨n, hn, hbelow | habove⟩ := hindex
    · have hmeaning : [n] ∈ meanings [] := by
        rw [meanings]
        exact List.mem_cons_of_mem _ (List.mem_append_right _ (List.mem_map_of_mem hn))
      rw [hf [] hreach [n] hmeaning] at hbelow
      cases hbelow
    · rw [htop hreach n hn] at habove
      cases habove
  | dots hdots _ => exact hdots

/-- At the root resolution keeps to the rule exactly unless the specifier goes astray. -/
theorem answers_iff_top (h : Reaches importer.dropLast specifier []) :
    Answers t root importer.dropLast specifier (inTree t root (String.intercalate "/" importer) specifier) ↔
      ¬ Astray t root importer.dropLast specifier := by
  have hin := inTree_top himp ht hroot h
  have hfirst := find_meanings_top hroot
  cases he : extensions.find? fun e => isFileBelow t root [e] with
  | some e =>
    rw [he] at hin hfirst
    refine answers_iff_of_found h hfirst ?_ fun _ => ⟨e, List.mem_of_find?_eq_some he, by simpa using List.find?_some he⟩
    rw [hin, String.intercalate_singleton]
    rfl
  | none =>
    rw [he, Option.none_or] at hin
    rw [he, Option.map_none, Option.none_or] at hfirst
    have hnone : ∀ e ∈ extensions, isFileBelow t root [e] = false := by simpa using he
    cases habove : indexNames.find? fun n => t.isFile [n] with
    | some n =>
      rw [habove] at hin
      have hfile : t.isFile [n] = true := by simpa using List.find?_some habove
      rw [hin]
      exact iff_of_false (not_answers_slash himp hroot) fun hno =>
        hno (.top h hnone ⟨n, List.mem_of_find?_eq_some habove, .inr hfile⟩)
    | none =>
      rw [habove] at hin
      have hfree : ∀ n ∈ indexNames, t.isFile [n] = false := by simpa using habove
      cases hbelow : indexNames.find? fun n => isFileBelow t root [n] with
      | none =>
        rw [hbelow] at hfirst
        exact answers_iff_of_fruitless ((fruitless_iff h).2 hfirst) hin fun _ => hfree
      | some n =>
        rw [hbelow] at hfirst
        have hfile : isFileBelow t root [n] = true := by simpa using List.find?_some hbelow
        rw [hin]
        exact iff_of_false (fun hanswer => not_fruitless h hfirst (fruitless_of_answers hanswer)) fun hno =>
          hno (.top h hnone ⟨n, List.mem_of_find?_eq_some hbelow, .inl hfile⟩)

theorem answers_iff_below (h : Reaches importer.dropLast specifier there) (hne : there ≠ []) :
    Answers t root importer.dropLast specifier (inTree t root (String.intercalate "/" importer) specifier) ↔
      ¬ Astray t root importer.dropLast specifier := by
  have hin := inTree_below himp ht hroot h hne
  cases hfirst : (meanings there).find? (isFileBelow t root) with
  | some names =>
    rw [hfirst] at hin
    exact answers_iff_of_found h hfirst hin fun hnil => absurd hnil hne
  | none =>
    rw [hfirst] at hin
    exact answers_iff_of_fruitless ((fruitless_iff h).2 hfirst) hin fun htop => absurd (h.unique htop) hne

/-- A key that is answered is the normalized key of a file below the root, or an index file at the top of the whole tree. -/
theorem key_of_internal {key : String}
    (hkey : inTree t root (String.intercalate "/" importer) specifier = .internal key) :
    (∃ names, names ≠ [] ∧ (∀ n ∈ names, IsSegment n) ∧ key = String.intercalate "/" names ∧
        isFileBelow t root names = true) ∨
      Reaches importer.dropLast specifier [] ∧ ∃ n ∈ indexNames, key = "/" ++ n ∧ t.isFile [n] = true := by
  have hdir : ∀ n ∈ importer.dropLast, IsSegment n := fun n hn => himp n (List.dropLast_subset _ hn)
  by_cases hreach : ∃ there, Reaches importer.dropLast specifier there
  · obtain ⟨there, h⟩ := hreach
    by_cases hne : there = []
    · subst hne
      rw [inTree_top himp ht hroot h] at hkey
      cases he : extensions.find? fun e => isFileBelow t root [e] with
      | some e =>
        rw [he] at hkey
        have hmem := List.mem_of_find?_eq_some he
        have hfile : isFileBelow t root [e] = true := by simpa using List.find?_some he
        obtain ⟨hlen, hslash⟩ := mem_extensions hmem
        refine .inl ⟨[e], List.cons_ne_nil e [], fun n hn => ?_, ?_, hfile⟩
        · rw [List.mem_singleton.1 hn]
          exact ⟨goesDown_of_length hlen, hslash⟩
        · rw [String.intercalate_singleton]
          exact (Resolution.internal.inj hkey).symm
      | none =>
        rw [he, Option.none_or] at hkey
        cases habove : indexNames.find? fun n => t.isFile [n] with
        | some n =>
          rw [habove] at hkey
          have hfile : t.isFile [n] = true := by simpa using List.find?_some habove
          exact .inr ⟨h, n, List.mem_of_find?_eq_some habove, (Resolution.internal.inj hkey).symm, hfile⟩
        | none =>
          rw [habove] at hkey
          exact absurd hkey (unfound_ne_internal key)
    · rw [inTree_below himp ht hroot h hne] at hkey
      cases hfirst : (meanings there).find? (isFileBelow t root) with
      | some names =>
        rw [hfirst] at hkey
        have hmem := List.mem_of_find?_eq_some hfirst
        exact .inl ⟨names, ne_nil_of_mem_meanings hne hmem, segments_of_mem_meanings (h.isSegment hdir) hmem,
          (Resolution.internal.inj hkey).symm, List.find?_some hfirst⟩
      | none =>
        rw [hfirst] at hkey
        exact absurd hkey (unfound_ne_internal key)
  · rw [inTree_of_unreached himp fun there h => hreach ⟨there, h⟩] at hkey
    exact absurd hkey (unfound_ne_internal key)

/-- The rule has one answer to each specifier in each importing file, and resolution gives it exactly unless the
specifier goes astray; a key that is answered is that of a file below the root or stands at the top of the whole tree. -/
theorem inTree_answers_iff :
    (∃! r, Answers t root importer.dropLast specifier r) ∧
    (Answers t root importer.dropLast specifier (inTree t root (String.intercalate "/" importer) specifier) ↔
      ¬ Astray t root importer.dropLast specifier) ∧
    ∀ key, inTree t root (String.intercalate "/" importer) specifier = .internal key →
      (∃ names, names ≠ [] ∧ (∀ n ∈ names, IsSegment n) ∧ key = String.intercalate "/" names ∧
          isFileBelow t root names = true) ∨
        Reaches importer.dropLast specifier [] ∧ ∃ n ∈ indexNames, key = "/" ++ n ∧ t.isFile [n] = true := by
  refine ⟨existsUnique_answers t root _ specifier, ?_, fun key hkey => key_of_internal himp ht hroot hkey⟩
  by_cases hreach : ∃ there, Reaches importer.dropLast specifier there
  · obtain ⟨there, h⟩ := hreach
    by_cases hne : there = []
    · exact answers_iff_top himp ht hroot (hne ▸ h)
    · exact answers_iff_below himp ht hroot h hne
  · have hnone : ∀ there, ¬ Reaches importer.dropLast specifier there := fun there h => hreach ⟨there, h⟩
    exact answers_iff_of_fruitless (fun there h => absurd h (hnone there)) (inTree_of_unreached himp hnone)
      fun h => absurd h (hnone [])

end Answer

/-- A project whose root holds an index file. -/
def indexed : Listing :=
  .dir "p" (.file "index.ts" .empty (.dir "src" (.file "a.ts" .empty .empty) .empty)) .empty

/-- From the file `src/a.ts` the specifier `..` reaches the root, where it means the index file; it is taken for the name
of a package. -/
theorem inTree_answers_iff_indexed :
    indexed.WellFormed ∧ indexed.isDir ["p"] = true ∧ (∀ n ∈ ["src", "a.ts"], IsSegment n) ∧
      inTree indexed ["p"] "src/a.ts" ".." = .external ".." ∧ Answers indexed ["p"] ["src"] ".." (.internal "index.ts") ∧
      Astray indexed ["p"] ["src"] ".." := by
  have ht : indexed.WellFormed := by decide
  have hroot : indexed.isDir ["p"] = true := by decide
  have himp : ∀ n ∈ ["src", "a.ts"], IsSegment n := by decide
  have hin : inTree indexed ["p"] "src/a.ts" ".." = .external ".." := by decide +kernel
  have hreach : Reaches ["src"] ".." [] := Follows.up "src" (.stop [])
  have hfirst : (meanings []).find? (isFileBelow indexed ["p"]) = some ["index.ts"] := by decide
  have hanswer : Answers indexed ["p"] ["src"] ".." (.internal "index.ts") := .file hreach hfirst
  obtain ⟨hunique, hiff, -⟩ : (∃! r, Answers indexed ["p"] ["src"] ".." r) ∧ _ := inTree_answers_iff himp ht hroot
  refine ⟨ht, hroot, himp, hin, hanswer, ?_⟩
  by_contra hno
  have hother : Answers indexed ["p"] ["src"] ".." (.external "..") := hin ▸ hiff.2 hno
  cases hunique.unique hanswer hother

end Resolution

end TreeRepair
