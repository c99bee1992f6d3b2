import TreeRepair.Proofs.Snapshot.Eviction
import TreeRepair.Proofs.Snapshot.Later

/-! Trees that differ in the directories of snapshots only. Removing snapshots from a tidy store and creating a new
one leave all other files where they are, and the store tidy. A snapshot stays intact as long as nothing below its
directory changes. -/

set_option autoImplicit false

namespace TreeRepair

open Location Listing

namespace SnapshotStore

variable {s : SnapshotStore} {t x y : Listing} {root : Location}

/-- A tree with a tidy store that differs from another one in the directories of snapshots only. -/
structure Aside (s : SnapshotStore) (t x : Listing) : Prop where
  same : ∀ q, (∀ n, ¬ s.directory.settled ++ [n] <+: q) → x.shapeAt? q = t.shapeAt? q
  storeDir : x.isDir s.directory = true
  tidy : s.Tidy x

theorem Aside.refl (h : s.Tidy t) (hd : t.isDir s.directory = true) : s.Aside t t := ⟨fun _ _ => rfl, hd, h⟩

theorem Aside.trans (h : s.Aside t x) (h' : s.Aside x y) : s.Aside t y :=
  ⟨fun q hq => (h'.same q hq).trans (h.same q hq), h'.storeDir, h'.tidy⟩

theorem Aside.isDir (h : s.Aside t x) (hr : root.Shuns s.directory.settled) (hd : t.isDir root = true) :
    x.isDir root = true := by
  obtain ⟨hlead, hdir⟩ := isDir_eq_true.1 hd
  refine isDir_eq_true.2 ⟨hlead.congr fun a ha hshape => ?_, ?_⟩
  · rw [h.same _ fun n => hr a n ha, hshape]
  · rw [h.same _ fun n => hr root n (List.prefix_refl _), hdir]

/-! ## Removing snapshots -/

theorem Tidy.aside_evict (h : s.Tidy t) (hd : t.isDir s.directory = true) (keep : Nat) : s.Aside t (s.evict t keep).2 := by
  obtain ⟨hlead, hdir⟩ := isDir_eq_true.1 hd
  have hsame : ∀ q, (∀ n, ¬ s.directory.settled ++ [n] <+: q) → (s.evict t keep).2.shapeAt? q = t.shapeAt? q :=
    fun q hq => (shapeAt?_evict h.plainName keep q).resolve_right fun ⟨⟨S, _, hp⟩, _⟩ => hq S.id hp
  refine ⟨hsame, isDir_eq_true.2 ⟨leads_evict h.plainName keep hlead h.shuns, ?_⟩, ?_⟩
  · rw [hsame _ fun n => not_append_prefix, hdir]
  · obtain ⟨e, y, hevict, htidy, -⟩ := h.evict keep
    rw [hevict]
    exact htidy

theorem Tidy.shapeAt?_evict_kept (h : s.Tidy t) {keep : Nat} {S : Snapshot} (hS : s.load t S.id = .ok S)
    (hkept : S ∉ (s.list t).take ((s.list t).length - keep)) (ns : List String) :
    (s.evict t keep).2.shapeAt? (s.directory.settled ++ S.id :: ns) = t.shapeAt? (s.directory.settled ++ S.id :: ns) := by
  refine (shapeAt?_evict h.plainName keep _).resolve_right ?_
  rintro ⟨⟨S', hS', hp⟩, -⟩
  rw [List.prefix_append_right_inj, List.cons_prefix_cons] at hp
  have hload := h.load_of_mem (List.mem_of_mem_take hS')
  rw [hp.1, hS] at hload
  exact hkept (Except.ok.inj hload ▸ hS')

theorem Tidy.newest_kept (h : s.Tidy t) {S : Snapshot} (hnewest : ∀ T ∈ s.list t, T ≠ S → T.timestamp < S.timestamp)
    {keep : Nat} (hkeep : 0 < keep) : S ∉ (s.list t).take ((s.list t).length - keep) := by
  intro hS
  have hsplit := List.take_append_drop ((s.list t).length - keep) (s.list t)
  have hdrop : (s.list t).drop ((s.list t).length - keep) ≠ [] := by
    intro hnil
    have hle := List.drop_eq_nil_iff.1 hnil
    have hpos := List.length_pos_of_mem (List.mem_of_mem_take hS)
    omega
  obtain ⟨L, hL⟩ := List.exists_mem_of_ne_nil _ hdrop
  have hsorted := list_pairwise s t
  have hnodup := h.nodup
  rw [← hsplit] at hsorted hnodup
  have hbehind := (List.pairwise_append.1 hsorted).2.2 S hS L hL
  have hne : L ≠ S := ((List.pairwise_append.1 hnodup).2.2 S hS L hL).symm
  have hlt := hnewest L (List.mem_of_mem_drop hL) hne
  simp only [notBehind, Bool.or_eq_true, decide_eq_true_eq, Bool.and_eq_true, beq_iff_eq] at hbehind
  omega

/-! ## Intact snapshots -/

section Intact

variable {S : Snapshot} {checksum : HashFunction} {required : List String} {id : String}

theorem Captured.intact (h : s.Captured checksum t root required id S y) (hp : s.Plain t root) (hr : s.Room t id)
    (hid : isPlainName id = true) (hw : S.Writable) : s.Intact y S t root := by
  refine ⟨by rw [h.id_eq]; exact h.load hid hw, fun names c hwalk hk => ?_⟩
  obtain ⟨hwant, hread⟩ := h.wanted hp hwalk hk
  obtain ⟨hcopy, hlead⟩ := h.copy names c hwant hread
  have hn := hp.spells hwalk
  refine ⟨_, storedFile_ofNames (h.id_eq ▸ hr.noSlash) hn.ne_nil hn.isName hn.plain, read_eq_ok.2 ?_⟩
  rw [h.id_eq, settled_stored hr.goesDown hn.isName]
  exact ⟨hlead, hcopy⟩

/-- A snapshot is intact where the store still has what lies in its directory. -/
theorem Intact.frame (h : s.Intact x S t root) (hp : s.Plain t root) (hd : y.isDir s.directory = true)
    (hsame : ∀ ns, x.shapeAt? (s.directory.settled ++ S.id :: ns) ≠ none →
      y.shapeAt? (s.directory.settled ++ S.id :: ns) = x.shapeAt? (s.directory.settled ++ S.id :: ns)) :
    s.Intact y S t root := by
  obtain ⟨hlead, hdir⟩ := isDir_eq_true.1 hd
  have hplain := isPlainName_of_load h.load
  have hall : ∀ ns, ns.head?.all (· == S.id) = true → x.shapeAt? (s.directory.settled ++ ns) ≠ none →
      y.shapeAt? (s.directory.settled ++ ns) = x.shapeAt? (s.directory.settled ++ ns) := by
    intro ns hhead hne
    cases ns with
    | nil => rw [List.append_nil, hdir, (isDir_eq_true.1 (isDir_of_load h.load)).2]
    | cons n ns =>
      obtain rfl : n = S.id := by simpa using hhead
      exact hsame ns hne
  have hhead : ∀ {ns : List String} {rest : List String}, ns <+: S.id :: rest → ns.head?.all (· == S.id) = true := by
    intro ns rest hns
    cases ns with
    | nil => rfl
    | cons n ns => simpa using (List.cons_prefix_cons.1 hns).1
  refine ⟨load_congr hlead (fun ns hns => hall ns (hhead hns)) h.load, fun names c hwalk hk => ?_⟩
  have hn := hp.spells hwalk
  have hplace := storedFile_ofNames (s := s) (noSlash_of_isPlainName hplain) hn.ne_nil hn.isName hn.plain
  obtain ⟨place, hstored, hread⟩ := h.copy names c hwalk hk
  obtain rfl := Except.ok.inj (hplace.symm.trans hstored)
  refine ⟨_, hplace, ?_⟩
  have hdown : ∀ n ∈ S.id :: filesName :: names, GoesDown n := by
    intro n hm
    rcases List.mem_cons.1 hm with rfl | hm
    · exact goesDown_of_isPlainName hplain
    · rcases List.mem_cons.1 hm with rfl | hm
      · exact goesDown_filesName
      · exact hn.goesDown n hm
  have happend : s.directory ++ [S.id] ++ [filesName] ++ names = s.directory ++ S.id :: filesName :: names := by simp
  rw [happend] at hread ⊢
  obtain ⟨hlead', hfile⟩ := read_eq_ok.1 hread
  rw [settled_append_names hdown] at hfile
  refine read_eq_ok.2 ⟨hlead'.congr_names hlead hdown fun ns hns hshape => ?_, ?_⟩
  · rw [hall ns (hhead hns) (by rw [hshape]; simp), hshape]
  · rw [settled_append_names hdown, hsame _ (by rw [hfile]; simp), hfile]

theorem Intact.evict (h : s.Intact t S x root) (hp : s.Plain x root) (htidy : s.Tidy t)
    (hnewest : ∀ T ∈ s.list t, T ≠ S → T.timestamp < S.timestamp) {keep : Nat} (hkeep : 0 < keep) :
    s.Intact (s.evict t keep).2 S x root :=
  h.frame hp (htidy.aside_evict (isDir_of_load h.load) keep).storeDir fun ns _ =>
    htidy.shapeAt?_evict_kept h.load (htidy.newest_kept hnewest hkeep) ns

theorem Intact.sameFiles {but : List String → Prop} (h : s.Intact x S t root) (hp : s.Plain t root)
    (hs : SameFiles but x y) (hb : ∀ q, s.directory.settled <+: q → ¬ but q) : s.Intact y S t root := by
  refine h.frame hp (hs.isDir (isDir_of_load h.load)) fun ns hne => ?_
  cases hshape : x.shapeAt? (s.directory.settled ++ S.id :: ns) with
  | none => exact absurd hshape hne
  | some shape =>
    cases shape with
    | dir => exact hs.dirs _ hshape
    | file c => exact (hs.files _ c (hb _ (List.prefix_append _ _))).2 hshape

end Intact

/-! ## Creating one -/

section Create

variable {env : Surroundings} {w w' : World} {tag description : String} {S : Snapshot}

theorem Created.load_cases {id i : String} {T : Snapshot} (h : s.Created S y x) (hr : s.Room t id)
    (hy : s.Shelved t root id S y) (hid : isPlainName id = true) (hw : S.Writable) (hload : s.load x i = .ok T) :
    i = id ∧ T = S ∨ s.load t i = .ok T := by
  have hstore := isDir_eq_true.1 (hy.grown.isDir hr hr.isDir)
  have hload' : s.load y i = .ok T := load_congr hstore.1 (fun ns _ hne =>
    ((h.shapeAt? (s.directory.settled ++ ns)).resolve_right fun hgone => hne hgone.2).symm) hload
  by_cases hi : i = id
  · subst hi
    exact .inl ⟨rfl, Except.ok.inj (hload'.symm.trans (hy.load hid hw))⟩
  · exact .inr ((hy.load_eq hr hi).1 hload')

/-- A tree with a new snapshot of another one, which is the newest one and intact. -/
structure Added (s : SnapshotStore) (checksum : HashFunction) (t : Listing) (root : Location) (S : Snapshot)
    (x : Listing) : Prop extends s.Records checksum t root [] S, s.Intact x S t root where
  aside : s.Aside t x
  newest : ∀ T ∈ s.list x, T ≠ S → T.timestamp < S.timestamp

/-- A creation changes the directories of snapshots only, and what it has made can be loaded. -/
theorem Tidy.added_of_create (htidy : s.Tidy w.files) (hready : s.Ready env w root) (hp : s.Plain w.files root)
    (hclock : w.now env < timestampBound)
    (hsize : ((s.filter.walkFiles w.files root).map (·.size)).sum < timestampBound) (hkeep : 0 < s.maxSnapshots)
    (hc : s.create env w root tag description = (.ok S, w')) :
    S.tag = tag ∧ w' = w.drawn.withFiles w'.files ∧ s.Added env.checksum w.files root S w'.files := by
  obtain ⟨made, hcap, hworld, hcreated⟩ := create_ok hready hclock hsize hkeep htidy.shuns htidy.plainName
    (hready.id_ne htidy) hc
  obtain ⟨⟨floor, hfloor, hts⟩, htag, -, hshelved, hcaptured⟩ := capture_ok hready.poised hcap
  have hcaptured := hcaptured hp
  have hroom := (hready.scene S.timestamp).room
  have hid : isPlainName (idOf S.timestamp (w.freshId env)) = true := isPlainName_idOf hready.hex
  have hw := writable_of_capture hready.poised hclock hsize hcap
  have hcases := fun i T => hcreated.load_cases (i := i) (T := T) hroom hshelved hid hw
  refine ⟨htag, hworld, hcaptured.toRecords, ?_, ⟨fun q hq => ?_, hcreated.storeDir, hcreated.wellFormed,
    fun i T hload => ?_, htidy.shuns⟩, fun T hT hne => ?_⟩
  · refine (hcaptured.intact hp hroom hid hw).frame hp hcreated.storeDir fun ns _ => hcreated.shapeAt?_eq fun n hpre => ?_
    rw [List.prefix_append_right_inj, List.cons_prefix_cons] at hpre
    exact hpre.1
  · rw [hcreated.shapeAt?_eq fun n hpre => absurd hpre (hq n), hshelved.grown.shapeAt?_eq hroom (hq _)]
  · rcases hcases i T hload with ⟨rfl, rfl⟩ | hold
    · exact hshelved.id_eq
    · exact htidy.named i T hold
  · obtain ⟨i, hload⟩ := mem_list.1 hT
    rcases hcases i T hload with ⟨-, rfl⟩ | hold
    · exact absurd rfl hne
    · have hlt := lt_nextTimestamp? hfloor (mem_list.2 ⟨i, hold⟩)
      rw [hts]
      omega

end Create

end SnapshotStore

end TreeRepair
