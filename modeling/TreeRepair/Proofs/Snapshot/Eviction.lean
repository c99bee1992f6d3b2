import TreeRepair.Proofs.Snapshot.Confinement

/-! Eviction from a tidy store. As long as each snapshot lies in the directory of its own name, removing the
oldest ones succeeds and leaves the others, in order. -/

set_option autoImplicit false

namespace TreeRepair

open Location Listing

namespace SnapshotStore

variable {s : SnapshotStore} {t x : Listing} {S : Snapshot}

/-- A store each snapshot of which lies in the directory of its own name, and whose path does not lead
through one of them. -/
structure Tidy (s : SnapshotStore) (t : Listing) : Prop where
  wellFormed : t.WellFormed
  named : ∀ id S, s.load t id = .ok S → S.id = id
  shuns : s.directory.Shuns s.directory.settled

theorem Tidy.isNamed (h : s.Tidy t) : s.Named t := named_iff.2 h.named

theorem Tidy.load_of_mem (h : s.Tidy t) (hS : S ∈ s.list t) : s.load t S.id = .ok S := h.isNamed.load_of_mem hS

theorem Tidy.plainName (h : s.Tidy t) : ∀ S ∈ s.list t, isPlainName S.id = true := h.isNamed.plainName

theorem Ready.id_ne {env : Surroundings} {w : World} {root : Location} (h : s.Ready env w root)
    (htidy : s.Tidy w.files) :
    ∀ S ∈ s.list w.files, ∀ ts, S.id ≠ idOf ts (w.freshId env) :=
  fun S hS ts heq => (h.scene ts).room.load_ne S (heq ▸ htidy.load_of_mem hS)

theorem Tidy.nodup (h : s.Tidy t) : (s.list t).Nodup := by
  refine List.pairwise_iff_forall_sublist.2 fun {a b} hab => ?_
  rintro rfl
  have ha := h.load_of_mem (hab.subset (List.mem_cons_self ..))
  have honly : ∀ i, s.load t i = .ok a → i = a.id := fun i hi => (h.named i a hi).symm
  exact List.pairwise_iff_forall_sublist.1 (list_pairwise_of_unique h.wellFormed honly) hab ⟨rfl, rfl⟩

theorem Tidy.list_eq (h : s.Tidy t) {l : List Snapshot} (hl : l.Nodup) (hsorted : l.Pairwise fun a b => notBehind a b = true)
    (hmem : ∀ S, S ∈ s.list t ↔ S ∈ l) : s.list t = l := by
  refine List.Perm.eq_of_pairwise ?_ (list_pairwise s t) hsorted ((List.perm_ext_iff_of_nodup h.nodup hl).2 hmem)
  intro a b ha hb hab hba
  have hid : a.id = b.id := by
    simp only [notBehind, Bool.or_eq_true, decide_eq_true_eq, Bool.and_eq_true, beq_iff_eq, Bool.not_eq_true',
      decide_eq_false_iff_not, String.not_lt] at hab hba
    have hle : a.id ≤ b.id → b.id ≤ a.id → a.id = b.id := String.le_antisymm
    grind
  have hload := h.load_of_mem ((hmem b).2 hb)
  rw [← hid, h.load_of_mem ha] at hload
  exact Except.ok.inj hload

theorem Tidy.removeDir_eq_ok (h : s.Tidy t) (hS : S ∈ s.list t) : ∃ y, t.removeDir (s.snapshotDir S.id) = (.ok (), y) ∧
    ∀ q, y.shapeAt? q = if s.directory.settled ++ [S.id] <+: q then none else t.shapeAt? q := by
  have hload := h.load_of_mem hS
  obtain ⟨hplain, bytes, hread, -⟩ := load_eq_ok_iff.1 hload
  obtain ⟨hlead, hdir⟩ := isDir_eq_true.1 (isDir_of_load hload)
  have hdown := goesDown_of_isPlainName hplain
  have hplace := read_eq_ok.1 hread
  have hinner := shapeAt?_of_load hload
  have hleads : t.Leads (s.directory ++ [S.id]) :=
    ⟨checkPath_of_append hplace.1.1, (Passable.append.1 hplace.1.2).1⟩
  -- nothing outside the directory is touched, so the path of the store still leads there
  have hput : ∀ q, ¬ s.directory.settled ++ [S.id] <+: q →
      (t.putAt (s.directory.settled ++ [S.id]) (.dir .empty)).shapeAt? q = t.shapeAt? q := fun q hq => by
    rw [shapeAt?_putAt _ hdir, if_neg hq]
  have hbase : (t.putAt (s.directory.settled ++ [S.id]) (.dir .empty)).Leads s.directory :=
    hlead.congr fun a ha hd => by rw [hput _ (h.shuns a S.id ha), hd]
  have hremoved := removeDir_of_leads hdown hleads hinner hbase
  rw [← snapshotDir_eq (noSlash_of_isPlainName hplain)] at hremoved
  refine ⟨_, hremoved, fun q => ?_⟩
  rw [shapeAt?_removeAt]
  · split
    · rfl
    · rename_i hq
      exact hput q hq
  · rw [hput _ not_append_prefix, hdir]

/-- Behind the removal of a snapshot the others can still be loaded, and it cannot. -/
theorem Tidy.load_removed (h : s.Tidy t) (hS : S ∈ s.list t) {y : Listing}
    (hshape : ∀ q, y.shapeAt? q = if s.directory.settled ++ [S.id] <+: q then none else t.shapeAt? q) (i : String)
    (S' : Snapshot) : s.load y i = .ok S' ↔ s.load t i = .ok S' ∧ i ≠ S.id := by
  have hload := h.load_of_mem hS
  have hlead := (isDir_eq_true.1 (isDir_of_load hload)).1
  have hlead' : y.Leads s.directory := hlead.congr fun a ha hd => by rw [hshape, if_neg (h.shuns a S.id ha), hd]
  have hkept : i ≠ S.id → ∀ ns, ns <+: [i, manifestName] →
      y.shapeAt? (s.directory.settled ++ ns) = t.shapeAt? (s.directory.settled ++ ns) := by
    intro hi ns hns
    rw [hshape, if_neg]
    rw [List.prefix_append_right_inj]
    intro hp
    have hhead := hp.trans hns
    rw [List.cons_prefix_cons] at hhead
    exact hi hhead.1.symm
  constructor
  · intro hy
    have hi : i ≠ S.id := by
      rintro rfl
      obtain ⟨hplain, bytes, hread, -⟩ := load_eq_ok_iff.1 hy
      have hfile := (read_eq_ok.1 hread).2
      rw [settled_append_names goesDown_manifestName, settled_append_names (by simpa using goesDown_of_isPlainName hplain),
        hshape, if_pos (List.prefix_append _ _)] at hfile
      cases hfile
    exact ⟨load_congr hlead (fun ns hns _ => (hkept hi ns hns).symm) hy, hi⟩
  · rintro ⟨ht, hi⟩
    exact load_congr hlead' (fun ns hns _ => hkept hi ns hns) ht

/-- What lies in the directories of some snapshots is gone, and nothing else is. -/
structure Cleared (s : SnapshotStore) (gone : List Snapshot) (t y : Listing) : Prop where
  absent : ∀ S ∈ gone, ∀ q, s.directory.settled ++ [S.id] <+: q → y.shapeAt? q = none
  same : ∀ q, (∀ S ∈ gone, ¬ s.directory.settled ++ [S.id] <+: q) → y.shapeAt? q = t.shapeAt? q

theorem Cleared.refl : s.Cleared [] t t := ⟨fun _ h => absurd h List.not_mem_nil, fun _ _ => rfl⟩

theorem Cleared.cons {gone : List Snapshot} {z : Listing}
    (hy : ∀ q, x.shapeAt? q = if s.directory.settled ++ [S.id] <+: q then none else t.shapeAt? q)
    (h : s.Cleared gone x z) : s.Cleared (S :: gone) t z := by
  refine ⟨fun S' hS' q hq => ?_, fun q hq => ?_⟩
  · by_cases hlater : ∃ T ∈ gone, s.directory.settled ++ [T.id] <+: q
    · obtain ⟨T, hT, hp⟩ := hlater
      exact h.absent T hT q hp
    · have hfirst : S' = S := by
        rcases List.mem_cons.1 hS' with heq | hrest
        · exact heq
        · exact absurd ⟨S', hrest, hq⟩ hlater
      rw [h.same q fun T hT hp => hlater ⟨T, hT, hp⟩, hy, if_pos (hfirst ▸ hq)]
  · rw [h.same q fun T hT => hq T (List.mem_cons_of_mem _ hT), hy, if_neg (hq S List.mem_cons_self)]

/-- A snapshot is removed, and the others stay. -/
theorem Tidy.removeDir (h : s.Tidy t) (hS : S ∈ s.list t) :
    ∃ y, t.removeDir (s.snapshotDir S.id) = (.ok (), y) ∧ s.Tidy y ∧
      (∀ S', S' ∈ s.list y ↔ S' ∈ s.list t ∧ S' ≠ S) ∧
      ∀ q, y.shapeAt? q = if s.directory.settled ++ [S.id] <+: q then none else t.shapeAt? q := by
  obtain ⟨y, hy, hshape⟩ := h.removeDir_eq_ok hS
  have hload := h.load_removed hS hshape
  have hwf := h.wellFormed.removeDir (s.snapshotDir S.id)
  rw [hy] at hwf
  refine ⟨y, hy, ⟨hwf, fun i S' hi => h.named i S' ((hload i S').1 hi).1, h.shuns⟩, fun S' => ?_, hshape⟩
  rw [mem_list, mem_list]
  constructor
  · rintro ⟨i, hi⟩
    obtain ⟨ht, hne⟩ := (hload i S').1 hi
    refine ⟨⟨i, ht⟩, ?_⟩
    rintro rfl
    exact hne (h.named i S' ht).symm
  · rintro ⟨⟨i, ht⟩, hne⟩
    refine ⟨i, (hload i S').2 ⟨ht, ?_⟩⟩
    rintro rfl
    exact hne (Except.ok.inj (ht.symm.trans (h.load_of_mem hS)))

/-- The oldest snapshots go one after another. -/
theorem Tidy.removeAll {gone kept : List Snapshot} (h : s.Tidy t) (hlist : s.list t = gone ++ kept) (e : Eviction) :
    ∃ e' y, s.removeAll gone e t = (.ok e', y) ∧ s.Tidy y ∧ s.list y = kept ∧
      e'.removed = e.removed ++ gone.map (·.id) ∧ s.Cleared gone t y := by
  induction gone generalizing t e with
  | nil => exact ⟨e, t, rfl, h, hlist, (List.append_nil _).symm, .refl⟩
  | cons S rest ih =>
    obtain ⟨y, hy, htidy, hmem, hshape⟩ := h.removeDir (S := S) (by simp [hlist])
    have hnodup := h.nodup
    have hsorted := list_pairwise s t
    rw [hlist, List.cons_append] at hnodup hsorted
    have hrest : s.list y = rest ++ kept := by
      refine htidy.list_eq (List.nodup_cons.1 hnodup).2 (List.pairwise_cons.1 hsorted).2 fun S' => ?_
      rw [hmem, hlist, List.cons_append, List.mem_cons]
      constructor
      · rintro ⟨rfl | hS', hne⟩
        · exact absurd rfl hne
        · exact hS'
      · intro hS'
        refine ⟨.inr hS', ?_⟩
        rintro rfl
        exact (List.nodup_cons.1 hnodup).1 hS'
    obtain ⟨e', z, hz, hztidy, hzlist, hremoved, hcleared⟩ := ih htidy hrest
      ⟨e.removed ++ [S.id], e.freedBytes + sizeBelow t (s.snapshotDir S.id)⟩
    refine ⟨e', z, ?_, hztidy, hzlist, ?_, hcleared.cons hshape⟩
    · rw [SnapshotStore.removeAll, hy]
      exact hz
    · rw [hremoved, List.map_cons, List.append_assoc, List.singleton_append]

/-- Eviction succeeds, removes the directories of the oldest snapshots and keeps the newest ones. -/
theorem Tidy.evict_exact (h : s.Tidy t) (keep : Nat) :
    ∃ e y, s.evict t keep = (.ok e, y) ∧ s.Tidy y ∧ s.list y = (s.list t).drop ((s.list t).length - keep) ∧
      e.removed = ((s.list t).take ((s.list t).length - keep)).map (·.id) ∧
      s.Cleared ((s.list t).take ((s.list t).length - keep)) t y := by
  obtain ⟨e, y, hy, htidy, hlist, hremoved, hcleared⟩ :=
    h.removeAll (List.take_append_drop ((s.list t).length - keep) (s.list t)).symm ⟨[], 0⟩
  exact ⟨e, y, hy, htidy, hlist, hremoved, hcleared⟩

theorem Tidy.evict (h : s.Tidy t) (keep : Nat) :
    ∃ e y, s.evict t keep = (.ok e, y) ∧ s.Tidy y ∧ s.list y = (s.list t).drop ((s.list t).length - keep) := by
  obtain ⟨e, y, hy, htidy, hlist, -⟩ := h.evict_exact keep
  exact ⟨e, y, hy, htidy, hlist⟩

theorem evict_eq_self {keep : Nat} (h : (s.list t).length ≤ keep) : s.evict t keep = (.ok ⟨[], 0⟩, t) := by
  rw [SnapshotStore.evict, Nat.sub_eq_zero_of_le h, List.take_zero]
  rfl

theorem shapeAt?_evict_none {keep : Nat} {q : List String} (h : t.shapeAt? q = none) :
    (s.evict t keep).2.shapeAt? q = none := by
  rcases (s.bounded t).evict keep q with hsame | ⟨-, hnone⟩
  · rw [hsame, h]
  · exact hnone

end SnapshotStore

end TreeRepair
