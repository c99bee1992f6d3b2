import TreeRepair.Filter
import TreeRepair.Snapshot.Store
import TreeRepair.Proofs.FileTree.WellFormed
import TreeRepair.Proofs.Text.Lines

/-! Keys as paths. The key of a file spells the names on the way to it, with backslashes as further
separators; without backslashes these are its pieces, and following it from a root leads back to the file.
A key that counts as safe leads to a place below the root, `Key.steps` behind it. -/

set_option autoImplicit false

namespace TreeRepair

open Text

/-! ## Cutting and joining -/

theorem Text.splitString_ne_nil (sep : Char) (s : String) : splitString sep s ≠ [] := by
  simp [splitString, cutAt_ne_nil]

theorem Text.splitString_intercalate {names : List String} (hne : names ≠ [])
    (h : ∀ n ∈ names, '/' ∉ n.toList) : splitString '/' (String.intercalate "/" names) = names := by
  have hcut : cutAt '/' (['/'].intercalate (names.map String.toList)) = names.map String.toList :=
    cutAt_intercalate (by simpa using hne) (by simpa using h)
  rw [splitString, String.toList_intercalate, show "/".toList = ['/'] from rfl, hcut, List.map_map]
  exact (List.map_congr_left fun n _ => String.ofList_toList).trans (List.map_id' names)

theorem Text.intercalate_splitString (s : String) : String.intercalate "/" (splitString '/' s) = s := by
  have hcut : ((splitString '/' s).map String.toList) = cutAt '/' s.toList := by
    simp [splitString, Function.comp_def]
  rw [← String.toList_inj, String.toList_intercalate, hcut]
  exact intercalate_cutAt '/' s.toList

theorem Text.splitString_append (s text : String) :
    splitString '/' (s ++ "/" ++ text) = splitString '/' s ++ splitString '/' text := by
  have hslash : (s ++ "/" ++ text).toList = s.toList ++ '/' :: text.toList := by
    rw [String.toList_append, String.toList_append, List.append_assoc]
    rfl
  rw [splitString, hslash, cutAt_append_sep, List.map_append, splitString, splitString]

theorem Text.startsWith_iff (s first : String) (hf : '/' ∉ first.toList) :
    s.startsWith (first ++ "/") = true ↔ ∃ p ps, splitString '/' s = first :: p :: ps := by
  rw [String.startsWith_string_iff, String.toList_append]
  constructor
  · rintro ⟨rest, hrest⟩
    obtain ⟨p, ps, hps⟩ := List.exists_cons_of_ne_nil (cutAt_ne_nil '/' rest)
    refine ⟨String.ofList p, ps.map String.ofList, ?_⟩
    have hsplit : s.toList = first.toList ++ '/' :: rest := by rw [← hrest, List.append_assoc]; rfl
    rw [splitString, hsplit, cutAt_append hf, hps]
    simp
  · rintro ⟨p, ps, hsplit⟩
    rw [← intercalate_splitString s, hsplit, String.intercalate_cons_cons, String.toList_append, String.toList_append]
    exact List.prefix_append _ _

theorem Text.splitString_eq_singleton {s : String} (hs : '/' ∉ s.toList) {text : String} :
    splitString '/' text = [s] ↔ text = s := by
  refine ⟨fun h => ?_, ?_⟩
  · rw [← intercalate_splitString text, h, String.intercalate_singleton]
  · rintro rfl
    simp [splitString, cutAt_of_notMem hs]

theorem Location.isCut_splitString (s : String) : Location.IsCut (splitString '/' s) := by
  intro p hp
  obtain ⟨cs, hcs, rfl⟩ := List.mem_map.1 hp
  rw [String.toList_ofList]
  exact notMem_of_mem_cutAt hcs

namespace Location

theorem join_of_head {l : Location} {path first : String} {rest : List String}
    (h : splitString '/' path = first :: rest) (hf : first ≠ "") : l.join path = l ++ (first :: rest) := by
  unfold join
  rw [h]
  split
  · rename_i heq
    simp only [List.cons.injEq] at heq
    exact absurd heq.1 hf
  · rfl

theorem join_name {n : String} (hs : '/' ∉ n.toList) (l : Location) : l.join n = l ++ [n] := by
  have h : splitString '/' n = [n] := by simp [splitString, cutAt_of_notMem hs]
  unfold join
  rw [h]
  split
  · rename_i heq
    simp at heq
  · rfl

theorem goesDown_of_length {n : String} (h : 2 < n.toList.length) : GoesDown n := by
  have hne : ∀ text : String, text.toList.length ≤ 2 → n ≠ text := by
    rintro text hle rfl
    omega
  exact ⟨by simp [isVoid, hne "" (by decide), hne "." (by decide)], hne ".." (by decide)⟩

theorem parent_append_name {n : String} (hn : GoesDown n) (l : Location) : parent (l ++ [n]) = l.components := by
  simp [parent, components, hn.1]

end Location

namespace Key

/-- The names that a key leads to below a root. -/
def steps (key : String) : List String := Location.components (splitString '/' key)

/-- The names of the way to a file hold no backslash. -/
def IsPlain (names : List String) : Prop := ∀ n ∈ names, '\\' ∉ n.toList

/-! ## Spelling -/

/-- Pieces without dots in front of another piece. -/
def dropDots : List String → List String
  | "." :: p :: rest => dropDots (p :: rest)
  | pieces => pieces

/-- The pieces of a key: what backslashes leave of the names, without leading dots. -/
def spelling (names : List String) : List String := dropDots (names.flatMap (splitString '\\'))

theorem dropDots_eq_self {pieces : List String} (h : ∀ p rest, pieces ≠ "." :: p :: rest) : dropDots pieces = pieces := by
  unfold dropDots
  split
  · exact absurd rfl (h _ _)
  · rfl

theorem splitString_dropHere (cs : List Char) :
    splitString '/' (String.ofList (dropHere cs)) = dropDots (splitString '/' (String.ofList cs)) := by
  fun_induction dropHere cs with
  | case1 rest ih =>
    have hsplit : splitString '/' (String.ofList ('.' :: '/' :: rest)) = "." :: splitString '/' (String.ofList rest) := by
      rw [splitString, String.toList_ofList, show '.' :: '/' :: rest = ['.'] ++ '/' :: rest from rfl,
        cutAt_append (by decide), splitString, String.toList_ofList]
      rfl
    obtain ⟨p, ps, hps⟩ := List.exists_cons_of_ne_nil (splitString_ne_nil '/' (String.ofList rest))
    rw [ih, hsplit, hps, dropDots]
  | case2 cs hcs =>
    refine (dropDots_eq_self fun p rest hsplit => ?_).symm
    have hstart := (startsWith_iff (String.ofList cs) "." (by decide)).2 ⟨p, rest, hsplit⟩
    rw [String.startsWith_string_iff, String.toList_ofList] at hstart
    obtain ⟨tail, htail⟩ := hstart
    exact hcs tail htail.symm

theorem splitString_ofNames_eq {names : List String} (hne : names ≠ []) (h : ∀ n ∈ names, IsName n) :
    splitString '/' (ofNames names) = spelling names := by
  have hcut := splitString_intercalate hne fun n hn => (h n hn).noSlash
  rw [ofNames, ofRelative, splitString_dropHere, spelling, splitString, String.toList_ofList,
    cutAt_map_mark (by decide), List.map_flatMap]
  conv_rhs => rw [← hcut, splitString, List.flatMap_map]
  simp only [splitString, String.toList_ofList]

theorem spelling_of_isPlain {names : List String} (h : ∀ n ∈ names, IsName n) (hp : IsPlain names) :
    spelling names = names := by
  have hwhole : ∀ n ∈ names, splitString '\\' n = [n] := fun n hn => by
    simp [splitString, cutAt_of_notMem (hp n hn)]
  rw [spelling, List.flatMap_congr hwhole, List.flatMap_singleton', dropDots_eq_self]
  rintro p rest rfl
  exact absurd (h "." (List.mem_cons_self ..)).goesDown.1 (by decide)

theorem splitString_ofNames {names : List String} (hne : names ≠ []) (h : ∀ n ∈ names, IsName n)
    (hp : IsPlain names) : splitString '/' (ofNames names) = names := by
  rw [splitString_ofNames_eq hne h, spelling_of_isPlain h hp]

theorem steps_ofNames {names : List String} (hne : names ≠ []) (h : ∀ n ∈ names, IsName n)
    (hp : IsPlain names) : steps (ofNames names) = names := by
  rw [steps, splitString_ofNames hne h hp, Location.components, List.filter_eq_self]
  intro n hn
  simp [(h n hn).goesDown.1]

theorem join_ofNames {names : List String} (hne : names ≠ []) (h : ∀ n ∈ names, IsName n)
    (hp : IsPlain names) (root : Location) : root.join (ofNames names) = root ++ names := by
  obtain ⟨n, ns, rfl⟩ := List.exists_cons_of_ne_nil hne
  refine Location.join_of_head (splitString_ofNames hne h hp) ?_
  rintro rfl
  exact absurd (h "" (List.mem_cons_self ..)).goesDown.1 (by decide)

theorem mem_of_mem_dropHere {cs : List Char} {c : Char} (h : c ∈ dropHere cs) : c ∈ cs := by
  fun_induction dropHere cs with
  | case1 rest ih => exact List.mem_cons_of_mem _ (List.mem_cons_of_mem _ (ih h))
  | case2 cs _ => exact h

theorem noBackslash_ofNames (names : List String) : '\\' ∉ (ofNames names).toList := by
  intro h
  rw [ofNames, ofRelative, String.toList_ofList] at h
  obtain ⟨c, -, hc⟩ := List.mem_map.1 (mem_of_mem_dropHere h)
  split at hc
  · exact absurd hc (by decide)
  · rename_i hne
    exact hne hc

theorem isPlain_splitString {key : String} (h : '\\' ∉ key.toList) : IsPlain (splitString '/' key) := by
  intro n hn hc
  obtain ⟨cs, hcs, rfl⟩ := List.mem_map.1 hn
  rw [String.toList_ofList] at hc
  exact h (mem_of_mem_cutAt hcs hc)

theorem isPlain_steps {key : String} (h : '\\' ∉ key.toList) : IsPlain (steps key) :=
  fun n hn => isPlain_splitString h n (List.mem_of_mem_filter hn)

/-! ## Safe keys -/

theorem components_of_goesDown {l : Location} (h : ∀ n ∈ l, Location.GoesDown n) : l.components = l := by
  rw [Location.components, List.filter_eq_self]
  intro n hn
  simp [(h n hn).1]

theorem settleFrom_of_noUp {l : Location} (h : ∀ p ∈ l, p ≠ "..") (here : List String) :
    Location.settleFrom here l = here ++ l.components := by
  rw [← Location.settleFrom_components, Location.settleFrom_of_goesDown]
  intro n hn
  rw [Location.components, List.mem_filter] at hn
  exact ⟨by simpa using hn.2, h n hn.1⟩

theorem splitString_eq_blank {key : String} : splitString '/' key = [""] ↔ key = "" :=
  splitString_eq_singleton (by simp)

/-- A check of components that accepts the names among pieces accepts pieces none of which goes up. -/
theorem all_components {check : Path.Component → Bool} (hname : ∀ n, check (.name n) = true)
    (hup : check .parent = false) (pieces : List String) :
    (((pieces.filter fun p => !Path.isVoid p).map Path.Component.ofPiece).all check) = true ↔
      ∀ p ∈ pieces, p ≠ ".." := by
  have hof : ∀ p, check (Path.Component.ofPiece p) = decide (p ≠ "..") := by
    intro p
    unfold Path.Component.ofPiece
    by_cases h : p = ".." <;> simp [h, hname, hup]
  simp only [List.all_map, List.all_eq_true, List.mem_filter, Function.comp_def, hof, decide_eq_true_eq]
  refine ⟨fun h p hp hup => h p ⟨hp, ?_⟩ hup, fun h p hp => h p hp.1⟩
  subst hup
  decide

/-- What is asked of a key that counts as safe: its first piece is a name, and no piece goes up. -/
theorem isSafeRelative_iff {key : String} :
    SnapshotStore.isSafeRelative key = true ↔
      ∃ first rest, splitString '/' key = first :: rest ∧ Location.isVoid first = false ∧
        ∀ p ∈ first :: rest, p ≠ ".." := by
  obtain ⟨first, rest, hs⟩ := List.exists_cons_of_ne_nil (splitString_ne_nil '/' key)
  rw [SnapshotStore.isSafeRelative, Bool.and_eq_true, Path.components, Path.cut, hs]
  constructor
  · rintro ⟨hne, hall⟩
    refine ⟨first, rest, rfl, ?_⟩
    split at hall
    · simp [Path.Start.components] at hall
    · simp [Path.Start.components] at hall
    · rename_i hroot hhere
      refine ⟨?_, (all_components (fun _ => rfl) rfl _).1 hall⟩
      have hb : first ≠ "" := by
        rintro rfl
        cases rest with
        | nil => simp [splitString_eq_blank.1 hs] at hne
        | cons p ps => exact hroot p ps rfl
      have hd : first ≠ "." := by
        rintro rfl
        exact hhere rest rfl
      simp [Location.isVoid, hb, hd]
  · rintro ⟨first', rest', he, hv, hup⟩
    obtain ⟨rfl, rfl⟩ := List.cons.inj he
    have hb : first ≠ "" := by rintro rfl; exact absurd hv (by decide)
    have hd : first ≠ "." := by rintro rfl; exact absurd hv (by decide)
    have hkey : key ≠ "" := by
      intro hkey
      rw [splitString_eq_blank.2 hkey] at hs
      exact hb (List.cons.inj hs).1.symm
    refine ⟨by simpa using hkey, ?_⟩
    split
    · rename_i heq
      exact absurd (List.cons.inj heq).1 hb
    · rename_i heq
      exact absurd (List.cons.inj heq).1 hd
    · exact (all_components (fun _ => rfl) rfl _).2 hup

section Safe

variable {key : String} (h : SnapshotStore.isSafeRelative key = true)

include h

theorem join_of_safe (root : Location) : root.join key = root ++ splitString '/' key := by
  obtain ⟨first, rest, hs, hv, -⟩ := isSafeRelative_iff.1 h
  rw [hs]
  refine Location.join_of_head hs ?_
  rintro rfl
  exact absurd hv (by decide)

theorem settled_join_of_safe (root : Location) : (root.join key).settled = root.settled ++ steps key := by
  obtain ⟨first, rest, hs, -, hup⟩ := isSafeRelative_iff.1 h
  rw [join_of_safe h, Location.settled_append, settleFrom_of_noUp (by rwa [hs]), steps]

theorem steps_ne_nil : steps key ≠ [] := by
  obtain ⟨first, rest, hs, hv, -⟩ := isSafeRelative_iff.1 h
  simp [steps, hs, Location.components, hv]

theorem goesDown_steps : ∀ n ∈ steps key, Location.GoesDown n := by
  obtain ⟨first, rest, hs, -, hup⟩ := isSafeRelative_iff.1 h
  intro n hn
  rw [steps, Location.components, List.mem_filter, hs] at hn
  exact ⟨by simpa using hn.2, hup n hn.1⟩

theorem parent_join (root : Location) : (root.join key).parent = root.components ++ (steps key).dropLast := by
  rw [join_of_safe h, Location.parent, steps, Location.components, List.filter_append]
  exact List.dropLast_append_of_ne_nil (steps_ne_nil h)

end Safe

theorem isSafeRelative_ofNames {names : List String} (hne : names ≠ []) (h : ∀ n ∈ names, IsName n)
    (hp : IsPlain names) : SnapshotStore.isSafeRelative (ofNames names) = true := by
  obtain ⟨n, ns, rfl⟩ := List.exists_cons_of_ne_nil hne
  exact isSafeRelative_iff.2 ⟨n, ns, splitString_ofNames hne h hp, (h n (List.mem_cons_self ..)).goesDown.1,
    fun p hp => (h p hp).goesDown.2⟩

theorem ofNames_inj {ns ms : List String} (hns : ns ≠ []) (hms : ms ≠ []) (h1 : ∀ n ∈ ns, IsName n)
    (h2 : ∀ n ∈ ms, IsName n) (p1 : IsPlain ns) (p2 : IsPlain ms) (h : ofNames ns = ofNames ms) : ns = ms := by
  rw [← steps_ofNames hns h1 p1, h, steps_ofNames hms h2 p2]

end Key

namespace Listing

open Location

/-- What there is at the end of a path that only goes down is reached along it, unless the path ends
in a piece that says nothing. -/
theorem passable_of_components {t : Listing} {here : List String} {l : Location} (hup : ∀ p ∈ l, p ≠ "..")
    (hlast : ∀ p ∈ l.getLast?, isVoid p = false) (hs : ∀ n ∈ l.components, n.utf8ByteSize ≤ nameLimit)
    (hne : t.shapeAt? (here ++ l.components) ≠ none) : t.Passable here l := by
  induction l generalizing here with
  | nil => trivial
  | cons p rest ih =>
    have hrest : ∀ q ∈ rest.getLast?, isVoid q = false := by
      intro q hq
      cases rest with
      | nil => simp at hq
      | cons a as => exact hlast q (by simpa using hq)
    have hup' : ∀ q ∈ rest, q ≠ ".." := fun q hq => hup q (List.mem_cons_of_mem p hq)
    rw [Passable]
    cases hv : isVoid p with
    | true =>
      have hcomp : components (p :: rest) = components rest := by simp [components, hv]
      rw [hcomp] at hs hne
      -- a void piece is not the last one, so something lies further down
      have hmore : components rest ≠ [] := by
        cases rest with
        | nil => simp [hv] at hlast
        | cons a as =>
          have hmem := List.getLast_mem (List.cons_ne_nil a as)
          refine List.ne_nil_of_mem (a := (a :: as).getLast (List.cons_ne_nil a as)) ?_
          rw [components, List.mem_filter]
          exact ⟨hmem, by simp [hrest _ (List.getLast?_eq_some_getLast (List.cons_ne_nil a as))]⟩
      exact ⟨shapeAt?_of_append hne hmore, by simpa [hv] using ih hup' hrest hs hne⟩
    | false =>
      have hcomp : components (p :: rest) = p :: components rest := by simp [components, hv]
      rw [hcomp] at hs hne
      have hp : p ≠ ".." := hup p (List.mem_cons_self ..)
      have hnext : t.shapeAt? (here ++ [p] ++ components rest) ≠ none := by simpa using hne
      refine ⟨shapeAt?_of_append hne (by simp), ?_⟩
      simp only [Bool.false_eq_true, if_false, if_neg hp]
      exact ⟨hs p (List.mem_cons_self ..), ih hup' hrest (fun n hn => hs n (List.mem_cons_of_mem p hn)) hnext⟩

/-! ## Names in a tree -/

/-- The names in a tree. -/
def names : Listing → List String
  | .empty => []
  | .file n _ rest => n :: rest.names
  | .dir n inner rest => n :: (inner.names ++ rest.names)

theorem mem_names_of_child? {t : Listing} {n : String} {e : Entry} (h : t.child? n = some e) :
    n ∈ t.names ∧ ∀ inner, e = .dir inner → ∀ m ∈ inner.names, m ∈ t.names := by
  induction t with
  | empty => simp [child?] at h
  | file k c rest ih =>
    simp only [child?] at h
    split at h
    · rename_i hk
      subst hk
      exact ⟨by simp [names], by simp [← Option.some.inj h]⟩
    · obtain ⟨h1, h2⟩ := ih h
      exact ⟨by simp [names, h1], fun inner he m hm => by simp [names, h2 inner he m hm]⟩
  | dir k inner rest _ ih =>
    simp only [child?] at h
    split at h
    · rename_i hk
      subst hk
      refine ⟨by simp [names], fun inner' he m hm => ?_⟩
      obtain rfl : inner = inner' := by simpa [he] using Option.some.inj h
      simp [names, hm]
    · obtain ⟨h1, h2⟩ := ih h
      exact ⟨by simp [names, h1], fun inner' he m hm => by simp [names, h2 inner' he m hm]⟩

theorem mem_names_of_shapeAt? {t : Listing} {p : List String} (h : t.shapeAt? p ≠ none) : ∀ n ∈ p, n ∈ t.names := by
  induction p generalizing t with
  | nil => simp
  | cons n ns ih =>
    rw [shapeAt?_cons] at h
    cases hc : t.child? n with
    | none => simp [hc] at h
    | some e =>
      obtain ⟨hn, hinner⟩ := mem_names_of_child? hc
      intro m hm
      rcases List.mem_cons.1 hm with rfl | hm
      · exact hn
      · cases e with
        | file c =>
          cases ns with
          | nil => simp at hm
          | cons a as => simp [hc, Entry.follow?] at h
        | dir inner =>
          have hne : inner.shapeAt? ns ≠ none := by
            rw [Ne, shapeAt?_eq_none, find?_eq_follow?]
            simpa [hc] using h
          exact hinner inner rfl m (ih hne m hm)

theorem isPlain_of_names {t : Listing} (h : t.names.all (fun n => !n.toList.contains '\\') = true) {p q : List String}
    (hq : t.shapeAt? (p ++ q) ≠ none) : Key.IsPlain q := by
  intro n hn
  have hname := List.all_eq_true.1 h n (mem_names_of_shapeAt? hq n (List.mem_append_right p hn))
  simpa using hname

end Listing

end TreeRepair
