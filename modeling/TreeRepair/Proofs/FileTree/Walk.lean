import Mathlib.Data.List.Nodup
import Mathlib.Data.List.Pairwise
import TreeRepair.Filter
import TreeRepair.Proofs.FileTree.Keys
import TreeRepair.Proofs.KeyOrder

/-! What a walk meets: the files below the root that no pruned directory and no ignored key hides, each
once, in the order of keys. -/

set_option autoImplicit false

namespace TreeRepair

namespace Listing

theorem shapeAt?_file_cons (n : String) (c : ByteArray) (rest : Listing) (m : String) (ms : List String) :
    (file n c rest).shapeAt? (m :: ms) =
      if n = m then (if ms = [] then some (.file c) else none) else rest.shapeAt? (m :: ms) := by
  rw [shapeAt?_cons, shapeAt?_cons, child?]
  by_cases h : n = m
  · rw [if_pos h, if_pos h]
    cases ms <;> simp [Entry.follow?, Entry.shape]
  · rw [if_neg h, if_neg h]

theorem shapeAt?_dir_cons (n : String) (inner rest : Listing) (m : String) (ms : List String) :
    (dir n inner rest).shapeAt? (m :: ms) = if n = m then inner.shapeAt? ms else rest.shapeAt? (m :: ms) := by
  rw [shapeAt?_cons, shapeAt?_cons, child?]
  by_cases h : n = m
  · rw [if_pos h, if_pos h, Option.bind_some, ← find?_eq_follow?, shapeAt?]
  · rw [if_neg h, if_neg h]

theorem shapeAt?_empty_cons (m : String) (ms : List String) : Listing.empty.shapeAt? (m :: ms) = none := by
  rw [shapeAt?_cons, child?]; rfl

theorem mem_filesBelow_of_shapeAt? {t : Listing} {q : List String} {c : ByteArray} (h : t.shapeAt? q = some (.file c))
    (above : List String) : (above ++ q, c) ∈ t.filesBelow above := by
  induction t generalizing q above with
  | empty => cases q <;> simp [shapeAt?_empty_cons] at h
  | file n content rest ih =>
    cases q with
    | nil => simp at h
    | cons m ms =>
      rw [shapeAt?_file_cons] at h
      split at h
      · rename_i hm
        split at h
        · rename_i hms
          obtain rfl : content = c := by simpa using h
          rw [hm, hms]
          exact List.mem_cons_self ..
        · simp at h
      · exact List.mem_cons_of_mem _ (ih h above)
  | dir n inner rest ihi ih =>
    cases q with
    | nil => simp at h
    | cons m ms =>
      rw [shapeAt?_dir_cons] at h
      rw [filesBelow, List.mem_append]
      split at h
      · rename_i hm
        have hmem := ihi h (above ++ [n])
        rw [List.append_assoc, List.singleton_append] at hmem
        rw [← hm]
        exact .inl hmem
      · exact .inr (ih h above)

theorem mem_files_of_shapeAt? {t : Listing} {q : List String} {c : ByteArray} (h : t.shapeAt? q = some (.file c)) :
    (q, c) ∈ t.files := mem_filesBelow_of_shapeAt? h []

end Listing

namespace SourceFilter

open Location

/-- No directory on the way to a file is pruned. -/
def Enters (f : SourceFilter) (root : Location) (above names : List String) : Prop :=
  ∀ p n, p ++ [n] <+: names → p ++ [n] ≠ names → f.prunes (root ++ (above ++ p ++ [n])) n = false

theorem Enters.of_prefix {f : SourceFilter} {root : Location} {above front names : List String}
    (h : f.Enters root above names) (hf : front <+: names) : f.Enters root above front := by
  intro p n hp hne
  refine h p n (hp.trans hf) ?_
  rintro rfl
  exact hne (hp.eq_of_length_le hf.length_le)

theorem enters_cons {f : SourceFilter} {root : Location} {above : List String} {n : String} {ns : List String}
    (hns : ns ≠ []) : f.Enters root above (n :: ns) ↔
      f.prunes (root ++ (above ++ [n])) n = false ∧ f.Enters root (above ++ [n]) ns := by
  constructor
  · intro h
    refine ⟨by simpa using h [] n ⟨ns, rfl⟩ (by simpa using hns.symm), fun p m hp hne => ?_⟩
    have := h (n :: p) m (by simpa using hp) (by simpa using hne)
    simpa using this
  · rintro ⟨h1, h2⟩ p m hp hne
    cases p with
    | nil =>
      obtain rfl : m = n := by simpa using hp
      simpa using h1
    | cons q qs =>
      obtain ⟨rfl, hp'⟩ : q = n ∧ qs ++ [m] <+: ns := by simpa using hp
      have := h2 qs m hp' (by simpa using hne)
      simpa using this

/-- A file that a walk reaches, in a tree that is seen from its root. -/
def Reaches (f : SourceFilter) (root : Location) (above : List String) (t : Listing)
    (rest : List String) (c : ByteArray) : Prop :=
  rest ≠ [] ∧ t.shapeAt? rest = some (.file c) ∧ f.Enters root above rest

/-- A walk below a directory reaches its files outside pruned directories, with their sizes. -/
theorem mem_reach {f : SourceFilter} {root : Location} {above : List String} {t : Listing} (ht : t.WellFormed)
    {names : List String} {size : Nat} :
    (names, size) ∈ f.reach root above t ↔
      ∃ rest c, f.Reaches root above t rest c ∧ names = above ++ rest ∧ size = c.size := by
  induction t generalizing above with
  | empty =>
    refine ⟨fun h => by simp [reach] at h, ?_⟩
    rintro ⟨rest, c, ⟨hne, hc, -⟩, -⟩
    obtain ⟨m, ms, rfl⟩ := List.exists_cons_of_ne_nil hne
    simp [Listing.shapeAt?_empty_cons] at hc
  | file n c rest ih =>
    obtain ⟨-, hnone, hr⟩ := ht
    rw [reach, List.mem_cons, ih hr]
    constructor
    · rintro (he | ⟨p, c', ⟨hne, hc, he⟩, hnames, hs⟩)
      · obtain ⟨rfl, rfl⟩ := Prod.mk.inj he
        refine ⟨[n], c, ⟨by simp, by rw [Listing.shapeAt?_file_cons]; simp, ?_⟩, rfl, rfl⟩
        intro p m hp hne
        obtain ⟨t, ht⟩ := hp
        cases p <;> simp_all
      · refine ⟨p, c', ⟨hne, ?_, he⟩, hnames, hs⟩
        obtain ⟨m, ms, rfl⟩ := List.exists_cons_of_ne_nil hne
        rw [Listing.shapeAt?_file_cons, if_neg, hc]
        rintro rfl
        simp [Listing.shapeAt?_cons, hnone] at hc
    · rintro ⟨p, c', ⟨hne, hc, he⟩, hnames, hs⟩
      obtain ⟨m, ms, rfl⟩ := List.exists_cons_of_ne_nil hne
      rw [Listing.shapeAt?_file_cons] at hc
      split at hc
      · rename_i hm
        split at hc
        · rename_i hms
          simp only [Option.some.injEq, Shape.file.injEq] at hc
          subst hm hms hc
          exact .inl (Prod.ext hnames hs)
        · simp at hc
      · exact .inr ⟨m :: ms, c', ⟨hne, hc, he⟩, hnames, hs⟩
  | dir n inner rest ihi ih =>
    obtain ⟨-, hnone, hi, hr⟩ := ht
    rw [reach, List.mem_append, ih hr]
    constructor
    · rintro (h | ⟨p, c', ⟨hne, hc, he⟩, hnames, hs⟩)
      · split at h
        · simp at h
        · rename_i hopen
          obtain ⟨p, c, ⟨hne, hc, he⟩, rfl, hs⟩ := (ihi hi).1 h
          refine ⟨n :: p, c, ⟨by simp, by rw [Listing.shapeAt?_dir_cons, if_pos rfl, hc], ?_⟩, by simp, hs⟩
          exact (enters_cons hne).2 ⟨by simpa using hopen, he⟩
      · refine ⟨p, c', ⟨hne, ?_, he⟩, hnames, hs⟩
        obtain ⟨m, ms, rfl⟩ := List.exists_cons_of_ne_nil hne
        rw [Listing.shapeAt?_dir_cons, if_neg, hc]
        rintro rfl
        simp [Listing.shapeAt?_cons, hnone] at hc
    · rintro ⟨p, c', ⟨hne, hc, he⟩, hnames, hs⟩
      obtain ⟨m, ms, rfl⟩ := List.exists_cons_of_ne_nil hne
      rw [Listing.shapeAt?_dir_cons] at hc
      split at hc
      · rename_i hm
        subst hm
        have hms : ms ≠ [] := by
          rintro rfl
          simp at hc
        obtain ⟨hopen, he'⟩ := (enters_cons hms).1 he
        refine .inl ?_
        rw [if_neg (by simp [hopen])]
        exact (ihi hi).2 ⟨ms, c', ⟨hms, hc, he'⟩, by simp [hnames], hs⟩
      · exact .inr ⟨m :: ms, c', ⟨hne, hc, he⟩, hnames, hs⟩

/-! ## Walks -/

/-- A file below a root that a walk meets, with the names on the way to it and its content. -/
structure Walks (f : SourceFilter) (t : Listing) (root : Location) (names : List String) (c : ByteArray) :
    Prop where
  isDir : t.isDir root = true
  ne_nil : names ≠ []
  isFile : t.shapeAt? (root.settled ++ names) = some (.file c)
  enters : f.Enters root [] names
  kept : f.ignores (Key.ofNames names) = false

theorem mem_walk {f : SourceFilter} {t : Listing} (ht : t.WellFormed) {root : Location}
    {keep : String → Bool} {file : TreeFile} :
    file ∈ f.walk t root keep ↔
      ∃ names c, f.Walks t root names c ∧ file = ⟨root ++ names, Key.ofNames names, c.size⟩ ∧
        keep (Key.ofNames names) = true := by
  cases hl : t.listing root with
  | error fault =>
    rw [walk, hl]
    refine ⟨fun h => by simp at h, ?_⟩
    rintro ⟨names, c, hw, -⟩
    obtain ⟨hlead, hdir⟩ := Listing.isDir_eq_true.1 hw.isDir
    obtain ⟨inner, hinner⟩ := Listing.shapeAt?_eq_dir.1 hdir
    rw [Listing.listing_eq_ok.2 ⟨hlead, hinner⟩] at hl
    simp at hl
  | ok inner =>
    obtain ⟨hlead, hinner⟩ := Listing.listing_eq_ok.1 hl
    have hwf : inner.WellFormed := (Listing.find?_of_wellFormed ht hinner).2
    have hdir : t.isDir root = true := Listing.isDir_eq_true.2 ⟨hlead, Listing.shapeAt?_eq_dir.2 ⟨inner, hinner⟩⟩
    rw [walk, hl]
    simp only [List.mem_mergeSort, List.mem_filter, List.mem_map, Bool.and_eq_true, Bool.not_eq_true']
    constructor
    · rintro ⟨⟨⟨names, size⟩, hr, rfl⟩, hign, hkeep⟩
      obtain ⟨rest, c, ⟨hne, hc, he⟩, rfl, rfl⟩ := (mem_reach hwf).1 hr
      refine ⟨names, c, ⟨hdir, hne, ?_, he, hign⟩, rfl, hkeep⟩
      rw [Listing.shapeAt?_append_of_dir hinner, hc]
    · rintro ⟨names, c, hw, rfl, hkeep⟩
      refine ⟨⟨(names, c.size), (mem_reach hwf).2 ⟨names, c, ⟨hw.ne_nil, ?_, hw.enters⟩, rfl, rfl⟩, rfl⟩,
        hw.kept, hkeep⟩
      rw [← Listing.shapeAt?_append_of_dir hinner, hw.isFile]

theorem mem_walkFiles {f : SourceFilter} {t : Listing} (ht : t.WellFormed) {root : Location} {file : TreeFile} :
    file ∈ f.walkFiles t root ↔
      ∃ names c, f.Walks t root names c ∧ file = ⟨root ++ names, Key.ofNames names, c.size⟩ := by
  rw [walkFiles, mem_walk ht]
  simp

theorem mem_walkSources {f : SourceFilter} {t : Listing} (ht : t.WellFormed) {root : Location} {file : TreeFile} :
    file ∈ f.walkSources t root ↔
      ∃ names c, f.Walks t root names c ∧ file = ⟨root ++ names, Key.ofNames names, c.size⟩ ∧
        f.isSource (Key.ofNames names) = true := mem_walk ht

section Walks

variable {f : SourceFilter} {t : Listing} {root : Location} {names : List String} {c : ByteArray}

theorem Walks.isName (h : f.Walks t root names c) (ht : t.WellFormed) : ∀ n ∈ names, IsName n := by
  intro n hn
  exact Listing.isName_of_shapeAt? ht (p := root.settled ++ names) (by simp [h.isFile]) n (List.mem_append_right _ hn)

theorem Walks.mono {t' : Listing} (h : f.Walks t root names c) (hdir : t'.isDir root = true)
    (hfile : t'.shapeAt? (root.settled ++ names) = some (.file c)) : f.Walks t' root names c :=
  ⟨hdir, h.ne_nil, hfile, h.enters, h.kept⟩

theorem mergeSort_pairwise (l : List TreeFile) : (l.mergeSort keyLe).Pairwise fun a b => ¬ b.key < a.key :=
  KeyOrder.pairwise_mergeSort TreeFile.key l

end Walks

/-! ## Each file once -/

theorem reach_ne_of_child?_eq_none {f : SourceFilter} {root : Location} {above : List String} {n : String}
    {rest : Listing} (hr : rest.WellFormed) (hnone : rest.child? n = none) {a : List String × Nat}
    (ha : a ∈ f.reach root above rest) (ns : List String) : a.1 ≠ above ++ n :: ns := by
  intro heq
  obtain ⟨p, c, ⟨-, hc, -⟩, hp, -⟩ := (mem_reach hr).1 (show (a.1, a.2) ∈ _ from ha)
  rw [heq] at hp
  rw [← List.append_cancel_left hp, Listing.shapeAt?_cons, hnone] at hc
  simp at hc

theorem reach_pairwise (f : SourceFilter) (root : Location) (above : List String) {t : Listing} (ht : t.WellFormed) :
    (f.reach root above t).Pairwise fun a b => a.1 ≠ b.1 := by
  induction t generalizing above with
  | empty => exact List.Pairwise.nil
  | file n c rest ih =>
    obtain ⟨-, hnone, hr⟩ := ht
    rw [reach]
    exact List.pairwise_cons.2 ⟨fun a ha heq => reach_ne_of_child?_eq_none hr hnone ha [] heq.symm, ih above hr⟩
  | dir n inner rest ihi ih =>
    obtain ⟨-, hnone, hi, hr⟩ := ht
    rw [reach]
    refine List.pairwise_append.2 ⟨?_, ih above hr, fun a ha b hb heq => ?_⟩
    · split
      · exact List.Pairwise.nil
      · exact ihi _ hi
    · split at ha
      · simp at ha
      · obtain ⟨p, c, -, hp, -⟩ := (mem_reach hi).1 (show (a.1, a.2) ∈ _ from ha)
        refine reach_ne_of_child?_eq_none hr hnone hb p ?_
        rw [← heq, hp, List.append_assoc, List.singleton_append]

theorem walkFiles_nodup (f : SourceFilter) {t : Listing} (ht : t.WellFormed) (root : Location) :
    (f.walkFiles t root).Nodup := by
  rw [walkFiles, walk]
  cases hl : t.listing root with
  | error fault => exact List.nodup_nil
  | ok inner =>
    have hwf : inner.WellFormed := (Listing.find?_of_wellFormed ht (Listing.listing_eq_ok.1 hl).2).2
    refine (List.mergeSort_perm _ _).nodup_iff.2 (List.Pairwise.filter _ (List.pairwise_map.2 ?_))
    refine (reach_pairwise f root [] hwf).imp fun hne heq => hne ?_
    exact List.append_cancel_left (congrArg TreeFile.location heq)

theorem walkFiles_pairwise_iff {f : SourceFilter} {t : Listing} (ht : t.WellFormed) {root : Location} :
    ((f.walkFiles t root).Pairwise fun a b => a.key ≠ b.key) ↔
      ∀ ns ms c d, f.Walks t root ns c → f.Walks t root ms d → Key.ofNames ns = Key.ofNames ms → ns = ms := by
  constructor
  · intro h ns ms c d hns hms heq
    have : Std.Symm fun a b : TreeFile => a.key ≠ b.key := ⟨fun _ _ => Ne.symm⟩
    by_contra hdiff
    refine h.forall ((mem_walkFiles ht).2 ⟨ns, c, hns, rfl⟩) ((mem_walkFiles ht).2 ⟨ms, d, hms, rfl⟩) ?_ heq
    exact fun hfile => hdiff (List.append_cancel_left (congrArg TreeFile.location hfile))
  · intro h
    refine List.Nodup.pairwise_of_forall_ne (walkFiles_nodup f ht root) fun a ha b hb hab heq => hab ?_
    obtain ⟨ns, c, hns, rfl⟩ := (mem_walkFiles ht).1 ha
    obtain ⟨ms, d, hms, rfl⟩ := (mem_walkFiles ht).1 hb
    obtain rfl := h ns ms c d hns hms heq
    obtain rfl : c = d := by simpa [hns.isFile] using hms.isFile
    rfl

theorem walkFiles_pairwise {f : SourceFilter} {t : Listing} (ht : t.WellFormed) {root : Location}
    (hp : ∀ names c, f.Walks t root names c → Key.IsPlain names) :
    (f.walkFiles t root).Pairwise fun a b => a.key ≠ b.key :=
  (walkFiles_pairwise_iff ht).2 fun _ _ _ _ hns hms =>
    Key.ofNames_inj hns.ne_nil hms.ne_nil (hns.isName ht) (hms.isName ht) (hp _ _ hns) (hp _ _ hms)

theorem sum_reach_le (f : SourceFilter) (root : Location) (above : List String) (t : Listing) :
    ((f.reach root above t).map (·.2)).sum ≤ t.totalBytes := by
  induction t generalizing above with
  | empty => simp [reach]
  | file n c rest ih =>
    have := ih above
    simp only [reach, List.map_cons, List.sum_cons, Listing.totalBytes]
    omega
  | dir n inner rest ihi ih =>
    have h1 := ihi (above ++ [n])
    have h2 := ih above
    simp only [reach, List.map_append, List.sum_append, Listing.totalBytes]
    split
    · simp only [List.map_nil, List.sum_nil]
      omega
    · omega

theorem sum_filter_le {α : Type} (g : α → Nat) (p : α → Bool) (l : List α) :
    ((l.filter p).map g).sum ≤ (l.map g).sum := by
  induction l with
  | nil => simp
  | cons a l ih =>
    rw [List.filter_cons]
    split
    · simp only [List.map_cons, List.sum_cons]
      omega
    · simp only [List.map_cons, List.sum_cons]
      omega

theorem sum_walkFiles_le (f : SourceFilter) (t : Listing) (root : Location) :
    ((f.walkFiles t root).map (·.size)).sum ≤ t.totalBytes := by
  rw [walkFiles, walk]
  cases hl : t.listing root with
  | error fault => simp
  | ok inner =>
    obtain ⟨-, hinner⟩ := Listing.listing_eq_ok.1 hl
    simp only
    rw [((List.mergeSort_perm _ _).map _).sum_nat]
    refine Nat.le_trans (sum_filter_le _ _ _) ?_
    rw [List.map_map]
    exact Nat.le_trans (sum_reach_le f root [] inner) (Listing.totalBytes_of_find? hinner)

end SourceFilter

end TreeRepair
