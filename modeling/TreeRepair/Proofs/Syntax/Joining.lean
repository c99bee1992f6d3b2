import TreeRepair.Proofs.Syntax.Specifiers

/-! Keys joined with specifiers. Joining fails exactly where a specifier climbs above the root; a key that has nothing to
fold in it is joined to another one; and a specifier in two parts is followed one part after the other. -/

set_option autoImplicit false

namespace TreeRepair.Key

open Text Location Resolution

/-- A key with nothing left to fold: no segment is empty, `.` or `..`. The key of the root has no segments. -/
def IsFolded (key : String) : Prop := key = "" ∨ ∀ s ∈ splitString '/' key, s ≠ "" ∧ s ≠ "." ∧ s ≠ ".."

/-- Whether a segment is a name to go down to. -/
def isName (s : String) : Bool := s != "" && s != "." && s != ".."

/-- Up to some segment there are more to climb than names to climb from, `depth` of which are there before them. -/
def Overclimbs (depth : Nat) (segments : List String) : Prop :=
  ∃ front, front <+: segments ∧ depth + front.countP isName < front.count ".."

/-- How many names a specifier finds in front of it: those of its directory, or none if it begins with a separator. -/
def depthAt (dir specifier : String) : Nat := if specifier.startsWith "/" then 0 else (namesOf dir).length

variable {dir key specifier s : String} {here names segments front back : List String} {depth : Nat}

/-! ## Climbing -/

theorem isName_iff : isName s = true ↔ GoesDown s := by
  simp [isName, GoesDown, isVoid, and_assoc]

theorem not_overclimbs_nil (depth : Nat) : ¬ Overclimbs depth [] := by
  rintro ⟨front, hfront, hmore⟩
  rw [List.prefix_nil.1 hfront] at hmore
  exact absurd hmore (Nat.not_lt_zero _)

theorem overclimbs_cons : Overclimbs depth (s :: segments) ↔
    ∃ front, front <+: segments ∧ depth + (s :: front).countP isName < (s :: front).count ".." := by
  constructor
  · rintro ⟨front, hfront, hmore⟩
    rcases List.prefix_cons_iff.1 hfront with rfl | ⟨rest, rfl, hrest⟩
    · exact absurd hmore (Nat.not_lt_zero _)
    · exact ⟨rest, hrest, hmore⟩
  · rintro ⟨front, hfront, hmore⟩
    exact ⟨s :: front, List.cons_prefix_cons.2 ⟨rfl, hfront⟩, hmore⟩

theorem overclimbs_void (hs : isVoid s = true) : Overclimbs depth (s :: segments) ↔ Overclimbs depth segments := by
  have hname : isName s = false := by
    rw [Bool.eq_false_iff, Ne, isName_iff]
    exact fun h => absurd hs (by simp [h.1])
  have hup : s ≠ ".." := by
    rintro rfl
    exact absurd hs (by decide)
  rw [overclimbs_cons]
  simp only [List.countP_cons_of_neg (Bool.eq_false_iff.1 hname), List.count_cons_of_ne hup]
  rfl

theorem overclimbs_up (depth : Nat) : Overclimbs (depth + 1) (".." :: segments) ↔ Overclimbs depth segments := by
  rw [overclimbs_cons]
  refine exists_congr fun front => and_congr_right fun _ => ?_
  rw [List.countP_cons_of_neg (by decide), List.count_cons_self]
  omega

theorem overclimbs_top (segments : List String) : Overclimbs 0 (".." :: segments) :=
  overclimbs_cons.2 ⟨[], List.nil_prefix, by decide⟩

theorem overclimbs_down (hs : GoesDown s) : Overclimbs depth (s :: segments) ↔ Overclimbs (depth + 1) segments := by
  rw [overclimbs_cons]
  refine exists_congr fun front => and_congr_right fun _ => ?_
  rw [List.countP_cons_of_pos (isName_iff.2 hs), List.count_cons_of_ne hs.2]
  omega

theorem fold_eq_none_iff : fold here segments = none ↔ Overclimbs here.length segments := by
  fun_induction fold here segments with
  | case1 here => exact iff_of_false (Option.some_ne_none here) (not_overclimbs_nil _)
  | case2 here s rest hs ih => rw [ih, overclimbs_void (isVoid_iff.2 hs)]
  | case3 rest hs => exact iff_of_true rfl (overclimbs_top rest)
  | case4 rest n up hs ih => rw [ih, List.length_cons, overclimbs_up]
  | case5 here s rest hs hup ih =>
    have hdown : GoesDown s := ⟨Bool.eq_false_iff.2 fun hv => hs (isVoid_iff.1 hv), hup⟩
    rw [ih, overclimbs_down hdown, List.length_cons]

theorem fold_void (hs : s = "" ∨ s = ".") (here segments : List String) :
    fold here (s :: segments) = fold here segments := by
  cases here <;> rw [fold, if_pos hs]

theorem fold_down (hs : ¬ (s = "" ∨ s = ".")) (hup : s ≠ "..") (here segments : List String) :
    fold here (s :: segments) = fold (s :: here) segments := by
  cases here <;> rw [fold, if_neg hs, if_neg hup]

theorem fold_append (here front back : List String) : fold here (front ++ back) = (fold here front).bind (fold · back) := by
  fun_induction fold here front with
  | case1 here => rfl
  | case2 here s rest hs ih => rw [List.cons_append, fold_void hs, ih]
  | case3 rest hs => rfl
  | case4 rest n up hs ih => exact ih
  | case5 here s rest hs hup ih => rw [List.cons_append, fold_down hs hup, ih]

/-! ## Routes -/

theorem startsWith_slash_iff : specifier.startsWith "/" = true ↔ ∃ p ps, splitString '/' specifier = "" :: p :: ps := by
  have htop := startsWith_iff specifier "" (by decide)
  rwa [show "" ++ "/" = "/" from rfl] at htop

/-- A specifier that does not begin with a separator goes on from its directory. -/
theorem route_of_relative (h : specifier.startsWith "/" = false) (names : List String) :
    route names specifier = (names, splitString '/' specifier) := by
  rw [route]
  split
  · rename_i p ps hs
    rw [startsWith_slash_iff.2 ⟨p, ps, hs⟩] at h
    cases h
  · rfl

theorem length_route (dir specifier : String) : (route (namesOf dir) specifier).1.length = depthAt dir specifier := by
  rw [depthAt]
  split
  · rename_i hslash
    obtain ⟨p, ps, hs⟩ := startsWith_slash_iff.1 hslash
    rw [route, hs]
    rfl
  · rename_i hslash
    rw [route_of_relative (Bool.eq_false_iff.2 hslash)]

/-- The empty piece in front of a leading separator says nothing. -/
theorem overclimbs_route (dir specifier : String) : Overclimbs depth (route (namesOf dir) specifier).2 ↔
    Overclimbs depth (splitString '/' specifier) := by
  rw [route]
  split
  · rename_i p ps hs
    rw [hs]
    exact (overclimbs_void (by decide)).symm
  · rfl

theorem route_append {first : String} (hne : first ≠ "") (names : List String) (next : String) :
    route names (first ++ "/" ++ next) = ((route names first).1, (route names first).2 ++ splitString '/' next) := by
  have hpieces := splitString_append first next
  by_cases hslash : first.startsWith "/" = true
  · obtain ⟨p, ps, hs⟩ := startsWith_slash_iff.1 hslash
    rw [hs] at hpieces
    rw [route, hpieces, route, hs]
    rfl
  · have hlong : (first ++ "/" ++ next).startsWith "/" = false := by
      rw [Bool.eq_false_iff, Ne, startsWith_slash_iff]
      rintro ⟨p, ps, hs⟩
      obtain ⟨q, qs, hq⟩ := List.exists_cons_of_ne_nil (splitString_ne_nil '/' first)
      rw [hpieces, hq, List.cons_append] at hs
      obtain ⟨rfl, hs⟩ := List.cons.inj hs
      cases qs with
      | nil => exact hne ((splitString_eq_singleton (by decide)).1 hq)
      | cons q' qs => exact hslash (startsWith_slash_iff.2 ⟨q', qs, hq⟩)
    rw [route_of_relative hlong, route_of_relative (Bool.eq_false_iff.2 hslash), hpieces]

/-! ## Joining -/

theorem join_eq_map (dir specifier : String) : join? dir specifier =
    (fold (route (namesOf dir) specifier).1.reverse (route (namesOf dir) specifier).2).map
      fun back => String.intercalate "/" back.reverse := by
  rw [join?, anchor_eq]

theorem join_eq_none_iff : join? dir specifier = none ↔
    Overclimbs (depthAt dir specifier) (splitString '/' specifier) := by
  rw [join_eq_map, Option.map_eq_none_iff, fold_eq_none_iff, List.length_reverse, length_route, overclimbs_route]

/-- What a specifier reaches is made of names, whatever its directory is. -/
theorem of_mem_reached (h : Reaches (namesOf dir) specifier names) : ∀ n ∈ names, n ≠ "" ∧ '/' ∉ n.toList := by
  intro n hn
  have hdir : ∀ m ∈ namesOf dir, m ≠ "" ∧ '/' ∉ m.toList := fun m hm =>
    ⟨bne_iff_ne.1 (List.mem_filter.1 hm).2, isCut_splitString dir m (List.mem_filter.1 hm).1⟩
  have hroute : (∀ m ∈ (route (namesOf dir) specifier).1, m ≠ "" ∧ '/' ∉ m.toList) ∧
      ∀ m ∈ (route (namesOf dir) specifier).2, m ∈ splitString '/' specifier := by
    rw [route]
    split
    · rename_i p ps hs
      exact ⟨by simp, fun m hm => hs ▸ List.mem_cons_of_mem _ hm⟩
    · exact ⟨hdir, fun m hm => hm⟩
  rcases h.mem hn with hhere | ⟨hsegment, hdown⟩
  · exact hroute.1 n hhere
  · refine ⟨?_, isCut_splitString specifier n (hroute.2 n hsegment)⟩
    rintro rfl
    exact absurd hdown.1 (by decide)

theorem join_append {first next : String} (hne : first ≠ "") (hnext : next.startsWith "/" = false) :
    join? dir (first ++ "/" ++ next) = (join? dir first).bind (join? · next) := by
  rw [join_eq_map, route_append hne, fold_append, join_eq_map]
  cases hfold : fold (route (namesOf dir) first).1.reverse (route (namesOf dir) first).2 with
  | none => rfl
  | some back =>
    have hreached : Reaches (namesOf dir) first back.reverse := by
      rw [fold_eq_some, List.reverse_reverse] at hfold
      exact hfold
    rw [Option.bind_some, Option.map_some, Option.bind_some, join_eq_map,
      namesOf_intercalate (of_mem_reached hreached), route_of_relative hnext, List.reverse_reverse]

theorem isSegment_namesOf (h : IsFolded dir) : ∀ n ∈ namesOf dir, IsSegment n := by
  intro n hn
  have hpiece := (List.mem_filter.1 hn).1
  rcases h with rfl | h
  · exact absurd hn List.not_mem_nil
  · obtain ⟨hblank, hdot, hup⟩ := h n hpiece
    exact ⟨⟨by simp [isVoid, hblank, hdot], hup⟩, isCut_splitString dir n hpiece⟩

theorem isFolded_intercalate (h : ∀ n ∈ names, IsSegment n) : IsFolded (String.intercalate "/" names) := by
  cases names with
  | nil => exact .inl rfl
  | cons n ns =>
    refine .inr fun s hs => ?_
    rw [splitString_intercalate (List.cons_ne_nil n ns) fun m hm => (h m hm).2] at hs
    obtain ⟨hvoid, hup⟩ := (h s hs).1
    rw [isVoid, Bool.or_eq_false_iff, beq_eq_false_iff_ne, beq_eq_false_iff_ne] at hvoid
    exact ⟨hvoid.1, hvoid.2, hup⟩

/-- A key with nothing to fold has no separator at either end, where an empty segment would be. -/
theorem IsFolded.ends (h : IsFolded key) : key.toList.head? ≠ some '/' ∧ key.toList.getLast? ≠ some '/' := by
  rcases h with rfl | h
  · decide
  · have hblank : "" ∉ splitString '/' key := fun hmem => (h "" hmem).1 rfl
    constructor
    · intro hhead
      obtain ⟨rest, hrest⟩ := List.head?_eq_some_iff.1 hhead
      have hcut : cutAt '/' key.toList = [] :: cutAt '/' rest := by rw [hrest, cutAt, if_pos rfl]
      exact hblank (by simp [splitString, hcut])
    · intro hlast
      obtain ⟨rest, hrest⟩ := List.getLast?_eq_some_iff.1 hlast
      have hcut : cutAt '/' key.toList = cutAt '/' rest ++ [[]] := by
        rw [hrest, cutAt_append_sep]
        rfl
      exact hblank (by simp [splitString, hcut])

/-- Joining follows a specifier. It fails exactly if up to some segment the specifier climbs more often than there are
names to climb from; otherwise it gives the place that the segments lead to. From a directory with nothing to fold in
its key that is a key with nothing to fold, and without a separator at either end. A specifier in two parts leads where
the second one leads from the place that the first one leads to. -/
theorem join_folds (dir specifier : String) :
    (join? dir specifier = none ↔ Overclimbs (depthAt dir specifier) (splitString '/' specifier)) ∧
    (∀ key, join? dir specifier = some key ↔
      ∃ there, Reaches (namesOf dir) specifier there ∧ String.intercalate "/" there = key) ∧
    (IsFolded dir → ∀ key, join? dir specifier = some key →
      IsFolded key ∧ key.toList.head? ≠ some '/' ∧ key.toList.getLast? ≠ some '/') ∧
    ∀ first next : String, first ≠ "" → next.startsWith "/" = false →
      join? dir (first ++ "/" ++ next) = (join? dir first).bind fun key => join? key next := by
  refine ⟨join_eq_none_iff, fun key => join_eq_some_iff, fun hdir key hkey => ?_, fun first next hne hnext => ?_⟩
  · obtain ⟨there, hthere, rfl⟩ := join_eq_some_iff.1 hkey
    have hfolded := isFolded_intercalate (hthere.isSegment (isSegment_namesOf hdir))
    exact ⟨hfolded, hfolded.ends⟩
  · exact join_append hne hnext

/-- A specifier that climbs to the root and goes down again, with blank segments and a separator at its end, and one in
two parts, the first of which begins at the root. -/
theorem join_folds_climbing :
    let dir := "src/app"
    IsFolded dir ∧ join? dir ".././/../lib/" = some "lib" ∧ IsFolded "lib" ∧
    join? dir "../lib/../../.." = none ∧ Overclimbs 2 ["..", "lib", "..", "..", ".."] ∧
    join? dir "/pkg//" = some "pkg" ∧ join? dir ("/pkg//" ++ "/" ++ "./../util") = join? "pkg" "./../util" := by
  intro dir
  have hdir : IsFolded dir := .inr (by decide)
  have hlib : join? dir ".././/../lib/" = some "lib" := by decide +kernel
  have hnone : join? dir "../lib/../../.." = none := by decide +kernel
  have hpkg : join? dir "/pkg//" = some "pkg" := by decide +kernel
  obtain ⟨-, -, hfolds, hparts⟩ := join_folds dir ".././/../lib/"
  refine ⟨hdir, hlib, (hfolds hdir "lib" hlib).1, hnone, ?_, hpkg, ?_⟩
  · have hclimbs := (join_folds dir "../lib/../../..").1.1 hnone
    have hdepth : depthAt dir "../lib/../../.." = 2 := by decide +kernel
    have hpieces : splitString '/' "../lib/../../.." = ["..", "lib", "..", "..", ".."] := by decide +kernel
    rwa [hdepth, hpieces] at hclimbs
  · rw [hparts "/pkg//" "./../util" (by decide) (by decide +kernel), hpkg, Option.bind_some]

end TreeRepair.Key
