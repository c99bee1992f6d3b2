import TreeRepair.Proofs.Home
import TreeRepair.Proofs.Snapshot.Aside
import TreeRepair.Proofs.Snapshot.Later
import TreeRepair.Workflow.Run

/-! What a session needs to find in its files, and what it leaves in them. The walk of a project never enters the
home, so the session's own files and the files of the project do not meet. -/

set_option autoImplicit false

namespace TreeRepair

open Location Listing

theorem SourceFilter.Enters.sibling {f : SourceFilter} {root : Location} {above front : List String} {n : String}
    (h : f.Enters root above (front ++ [n])) (m : String) : f.Enters root above (front ++ [m]) := by
  intro p k hp hne
  have hfront : p ++ [k] <+: front := by
    rcases List.prefix_concat_iff.1 hp with heq | hfront
    · exact absurd heq hne
    · exact hfront
  refine h p k (hfront.trans (List.prefix_append _ _)) fun heq => ?_
  have hlen := hfront.length_le
  rw [heq, List.length_append, List.length_singleton] at hlen
  omega

namespace SnapshotStore

variable {s : SnapshotStore} {but : List String → Prop} {t x : Listing} {id : String} {S : Snapshot}

theorem load_sameFiles (h : SameFiles but t x) (hb : ∀ q, s.directory.settled <+: q → ¬ but q)
    (hd : t.isDir s.directory = true) : s.load x id = .ok S ↔ s.load t id = .ok S := by
  rw [load_eq_ok_iff, load_eq_ok_iff]
  refine and_congr_right fun hplain => exists_congr fun bytes => and_congr_left fun _ => ?_
  rw [List.append_assoc]
  refine h.read_eq_ok (isDir_eq_true.1 hd).1 ?_ (hb _ (List.prefix_append _ _))
  intro n hn
  rcases List.mem_append.1 hn with hn | hn
  · rw [List.mem_singleton.1 hn]
    exact goesDown_of_isPlainName hplain
  · exact goesDown_manifestName n hn

theorem Tidy.sameFiles (h : s.Tidy t) (hs : SameFiles but t x) (hb : ∀ q, s.directory.settled <+: q → ¬ but q)
    (hd : t.isDir s.directory = true) : s.Tidy x :=
  ⟨hs.wellFormed h.wellFormed, fun id S hload => h.named id S ((load_sameFiles hs hb hd).1 hload), h.shuns⟩

end SnapshotStore

namespace Site

variable {s : Site} {home : Home} {env : Surroundings} {t x : Listing} {names : List String}

/-- A site whose snapshots lie in a home that its walks never enter. -/
structure Fitted (s : Site) (home : Home) : Prop where
  directory : s.store.directory = home.backups
  filter : s.store.filter = s.filter
  keeps : 0 < s.store.maxSnapshots
  cut : s.root.IsCut
  homeCut : home.root.IsCut
  hidden : ∀ names m ms, s.filter.Enters s.root [] names → home.root.settled ++ m :: ms ≠ s.root.settled ++ names
  shuns : s.root.Shuns s.store.directory.settled

/-- Files with a tidy store and a project of plain names, outside the home none with the name of a draft. -/
structure Ordered (s : Site) (home : Home) (env : Surroundings) (t : Listing) : Prop where
  storeDir : t.isDir s.store.directory = true
  rootDir : t.isDir s.root = true
  plain : s.store.Plain t s.root
  tidy : s.store.Tidy t
  drafts : ∀ q m c, ¬ home.root.settled <+: q → t.shapeAt? q = some (.file c) →
    q.getLast? ≠ some (draftName env.process m)

/-! ## The project and the home -/

theorem Fitted.hidden_store (h : s.Fitted home) : s.store.Hidden s.root := by
  intro names m ms he
  rw [h.directory, home.settled_backups, List.append_assoc, List.singleton_append]
  rw [h.filter] at he
  exact h.hidden names _ _ he

theorem Fitted.not_scratch (h : s.Fitted home) (he : s.filter.Enters s.root [] names) :
    ¬ home.Scratch (s.root.settled ++ names) := by
  intro hs
  obtain ⟨n, ns, -, heq⟩ := Home.exists_of_scratch hs
  exact h.hidden names n ns he heq.symm

theorem Fitted.not_store (h : s.Fitted home) (he : s.filter.Enters s.root [] names) :
    ¬ s.store.directory.settled <+: s.root.settled ++ names := by
  rw [h.directory, home.settled_backups]
  rintro ⟨ns, heq⟩
  rw [List.append_assoc, List.singleton_append] at heq
  exact h.hidden names _ ns he heq

theorem Fitted.home_prefix (h : s.Fitted home) {q : List String} (hq : s.store.directory.settled <+: q) :
    home.root.settled <+: q := by
  rw [h.directory, home.settled_backups] at hq
  exact (List.prefix_append _ _).trans hq

theorem Fitted.store_not_scratch (h : s.Fitted home) {q : List String} (hq : s.store.directory.settled <+: q) :
    ¬ home.Scratch q := by
  rw [h.directory] at hq
  exact Home.not_scratch_of_backups hq

theorem Fitted.homeDir (h : s.Fitted home) (hd : t.isDir s.store.directory = true) :
    t.shapeAt? home.root.settled = some .dir := by
  have hshape := (isDir_eq_true.1 hd).2
  rw [h.directory, home.settled_backups] at hshape
  exact shapeAt?_of_append (by rw [hshape]; simp) (by simp)

/-- A file that a walk could meet does not lie in the home. -/
theorem Fitted.outside (h : s.Fitted home) (hd : t.isDir s.store.directory = true)
    (he : s.filter.Enters s.root [] names) {c : ByteArray} (hf : t.shapeAt? (s.root.settled ++ names) = some (.file c)) :
    ¬ home.root.settled <+: s.root.settled ++ names := by
  rintro ⟨ns, heq⟩
  cases ns with
  | nil =>
    rw [← heq, List.append_nil, h.homeDir hd] at hf
    simp at hf
  | cons m ms => exact h.hidden names m ms he heq

theorem Ordered.no_draft (h : s.Ordered home env t) (hf : s.Fitted home) {front : List String} {n : String}
    (he : s.filter.Enters s.root [] (front ++ [n])) (m : String) (c : ByteArray) :
    t.shapeAt? (s.root.settled ++ (front ++ [draftName env.process m])) ≠ some (.file c) := by
  intro hfile
  refine h.drafts _ m c (hf.outside h.storeDir (he.sibling _) hfile) hfile ?_
  rw [← List.append_assoc, List.getLast?_concat]

/-! ## Files that a session changes -/

/-- Files stay in order when a session changes its own files and the contents of files of the project. -/
theorem Ordered.sameFiles (h : s.Ordered home env t) (hf : s.Fitted home) {but : List String → Prop}
    (hs : SameFiles but t x) (hb : ∀ q, but q → home.Scratch q ∨
      ∃ names c, s.filter.Enters s.root [] names ∧ q = s.root.settled ++ names ∧ t.shapeAt? q = some (.file c)) :
    s.Ordered home env x := by
  have hstore : ∀ q, s.store.directory.settled <+: q → ¬ but q := by
    intro q hq hbut
    rcases hb q hbut with hscratch | ⟨names, c, he, rfl, -⟩
    · exact hf.store_not_scratch hq hscratch
    · exact hf.not_store he hq
  have hfiles : ∀ q c, ¬ home.Scratch q → x.shapeAt? q = some (.file c) → ∃ c', t.shapeAt? q = some (.file c') := by
    intro q c hq hfile
    by_cases hbut : but q
    · obtain ⟨-, c', -, -, hfile'⟩ := (hb q hbut).resolve_left hq
      exact ⟨c', hfile'⟩
    · exact ⟨c, (hs.files q c hbut).1 hfile⟩
  refine ⟨hs.isDir h.storeDir, hs.isDir h.rootDir, ⟨hs.wellFormed h.plain.wellFormed, fun names c hw => ?_⟩,
    h.tidy.sameFiles hs hstore h.storeDir, fun q m c hq hfile => ?_⟩
  · have he := hw.enters
    rw [hf.filter] at he
    obtain ⟨c', hfile⟩ := hfiles _ c (hf.not_scratch he) hw.isFile
    exact h.plain.names names c' ⟨h.rootDir, hw.ne_nil, hfile, hw.enters, hw.kept⟩
  · obtain ⟨c', hfile'⟩ := hfiles q c (Home.not_scratch_of_outside hq) hfile
    exact h.drafts q m c' hq hfile'

/-- Files stay in order when snapshots come and go. -/
theorem Ordered.aside (h : s.Ordered home env t) (hf : s.Fitted home) (ha : s.store.Aside t x) : s.Ordered home env x := by
  refine ⟨ha.storeDir, ha.isDir hf.shuns h.rootDir, ⟨ha.tidy.wellFormed, fun names c hw => ?_⟩, ha.tidy,
    fun q m c hq hfile => ?_⟩
  · have he := hw.enters
    rw [hf.filter] at he
    have hfile := hw.isFile
    rw [ha.same _ fun n hp => hf.not_store he ((List.prefix_append _ _).trans hp)] at hfile
    exact h.plain.names names c ⟨h.rootDir, hw.ne_nil, hfile, hw.enters, hw.kept⟩
  · rw [ha.same _ fun n hp => hq (hf.home_prefix ((List.prefix_append _ _).trans hp))] at hfile
    exact h.drafts q m c hq hfile

/-! ## The files of the project -/

/-- Trees with the same files outside the home, but for those at some places. -/
def SameProject (home : Home) (but : List String → Prop) (t x : Listing) : Prop :=
  ∀ q c, ¬ home.root.settled <+: q → ¬ but q → (x.shapeAt? q = some (.file c) ↔ t.shapeAt? q = some (.file c))

theorem SameProject.trans {but but' : List String → Prop} {y : Listing} (h : SameProject home but t x)
    (h' : SameProject home but' x y) (hb : ∀ q, but q → but' q) : SameProject home but' t y :=
  fun q c hq hbut => (h' q c hq hbut).trans (h q c hq fun hp => hbut (hb q hp))

theorem SameProject.of_sameFiles {but but' : List String → Prop} (h : SameFiles but t x)
    (hb : ∀ q, but q → home.Scratch q ∨ but' q) : SameProject home but' t x := by
  intro q c hq hbut
  refine h.files q c fun hp => ?_
  rcases hb q hp with hs | hp
  · exact Home.not_scratch_of_outside hq hs
  · exact hbut hp

/-- With the same files the walk meets the same. -/
theorem SameProject.sameWalk (h : SameProject home (fun _ => False) t x) (hf : s.Fitted home) (ho : s.Ordered home env t)
    (ho' : s.Ordered home env x) : s.store.SameWalk t x s.root := by
  intro names c
  constructor
  · intro hw
    have he := hw.enters
    rw [hf.filter] at he
    exact hw.mono ho.rootDir ((h _ c (hf.outside ho'.storeDir he hw.isFile) not_false).1 hw.isFile)
  · intro hw
    have he := hw.enters
    rw [hf.filter] at he
    exact hw.mono ho'.rootDir ((h _ c (hf.outside ho.storeDir he hw.isFile) not_false).2 hw.isFile)

theorem Fitted.sameProject (hf : s.Fitted home) (ha : s.store.Aside t x) (but : List String → Prop) :
    SameProject home but t x := by
  intro q c hq _
  rw [ha.same _ fun n hp => hq (hf.home_prefix ((List.prefix_append _ _).trans hp))]

end Site

end TreeRepair
