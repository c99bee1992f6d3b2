import TreeRepair.Proofs.FileTree.Frames
import TreeRepair.Proofs.Snapshot.Capture

/-! The list of snapshots and what is removed from it. The list is in the order of timestamps, so that a
new snapshot is its last one and stays when older ones are removed; and as long as each manifest's id
is the name of an entry, nothing outside the store is removed with them. -/

set_option autoImplicit false

namespace TreeRepair

open Location Listing

theorem toOption_eq_some {ε α : Type} {r : Except ε α} {a : α} : r.toOption = some a ↔ r = .ok a := by
  cases r <;> simp [Except.toOption]

namespace SnapshotStore

variable {s : SnapshotStore} {id : String} {t x y : Listing}

/-! ## Loading in two trees -/

/-- What can be loaded depends on the manifest and on the directories that it lies in. -/
theorem load_congr {S : Snapshot} (hb : y.Leads s.directory)
    (hsame : ∀ ns, ns <+: [id, manifestName] → t.shapeAt? (s.directory.settled ++ ns) ≠ none →
      y.shapeAt? (s.directory.settled ++ ns) = t.shapeAt? (s.directory.settled ++ ns))
    (h : s.load t id = .ok S) : s.load y id = .ok S := by
  obtain ⟨hplain, bytes, hr, hof⟩ := load_eq_ok_iff.1 h
  refine load_eq_ok_iff.2 ⟨hplain, bytes, ?_, hof⟩
  have hn : ∀ n ∈ [id, manifestName], GoesDown n := by
    intro n hm
    rcases List.mem_cons.1 hm with rfl | hm
    · exact goesDown_of_isPlainName hplain
    · exact goesDown_manifestName n hm
  rw [List.append_assoc, List.singleton_append] at hr ⊢
  obtain ⟨hlead, hshape⟩ := read_eq_ok.1 hr
  rw [settled_append_names hn] at hshape
  refine read_eq_ok.2 ⟨hlead.congr_names hb hn fun ns hns hd => ?_, ?_⟩
  · rw [hsame ns hns (by simp [hd]), hd]
  · rw [settled_append_names hn, hsame _ (List.prefix_refl _) (by simp [hshape]), hshape]

/-! ## The list -/

theorem notBehind_total (a b : Snapshot) : (notBehind a b || notBehind b a) = true := by
  simp only [notBehind, Bool.or_eq_true, decide_eq_true_eq, Bool.and_eq_true, beq_iff_eq, Bool.not_eq_true',
    decide_eq_false_iff_not, String.not_lt]
  have hid := String.le_total a.id b.id
  grind

theorem notBehind_trans (a b c : Snapshot) (hab : notBehind a b = true) (hbc : notBehind b c = true) :
    notBehind a c = true := by
  simp only [notBehind, Bool.or_eq_true, decide_eq_true_eq, Bool.and_eq_true, beq_iff_eq, Bool.not_eq_true',
    decide_eq_false_iff_not, String.not_lt] at hab hbc ⊢
  have hid : a.id ≤ b.id → b.id ≤ c.id → a.id ≤ c.id := String.le_trans
  grind

theorem list_pairwise (s : SnapshotStore) (t : Listing) :
    (s.list t).Pairwise fun a b => notBehind a b = true := by
  unfold list
  split
  · exact List.Pairwise.nil
  · exact List.pairwise_mergeSort notBehind_trans notBehind_total _

theorem mem_list {S : Snapshot} : S ∈ s.list t ↔ ∃ id, s.load t id = .ok S := by
  unfold list
  constructor
  · intro h
    split at h
    · simp at h
    · rename_i inner hinner
      obtain ⟨id, -, hload⟩ := List.mem_filterMap.1 (List.mem_mergeSort.1 h)
      exact ⟨id, toOption_eq_some.1 hload⟩
  · rintro ⟨id, hload⟩
    obtain ⟨hlead, hdir⟩ := isDir_eq_true.1 (isDir_of_load hload)
    obtain ⟨inner, hinner⟩ := shapeAt?_eq_dir.1 hdir
    rw [listing_eq_ok.2 ⟨hlead, hinner⟩]
    simp only [List.mem_mergeSort, List.mem_filterMap]
    refine ⟨id, ?_, toOption_eq_some.2 hload⟩
    have hchild : inner.shapeAt? [id] = some .dir := by
      rw [← shapeAt?_append_of_dir hinner, shapeAt?_of_load hload]
    obtain ⟨sub, hsub⟩ := shapeAt?_eq_dir.1 hchild
    rw [find?_cons] at hsub
    rw [dirNames, List.mem_filterMap]
    refine ⟨(id, .dir sub), mem_entries_of_child? ?_, rfl⟩
    cases hc : inner.child? id with
    | none => simp [hc] at hsub
    | some e => cases e <;> simp_all [Entry.follow?]

theorem list_pairwise_of_unique {S : Snapshot} (ht : t.WellFormed) (h : ∀ i, s.load t i = .ok S → i = id) :
    (s.list t).Pairwise fun a b => ¬ (a = S ∧ b = S) := by
  unfold list
  split
  · exact List.Pairwise.nil
  · rename_i inner hinner
    have hwf : inner.WellFormed := (find?_of_wellFormed ht (listing_eq_ok.1 hinner).2).2
    refine (List.mergeSort_perm _ _).symm.pairwise (R := fun a b : Snapshot => ¬ (a = S ∧ b = S)) ?_
      fun hab hba => hab ⟨hba.2, hba.1⟩
    have hnames : (dirNames inner).Pairwise (· ≠ ·) := by
      refine hwf.entries_pairwise.filterMap _ fun a b hne n hn m hm => ?_
      obtain ⟨k, e⟩ := a
      obtain ⟨k', e'⟩ := b
      cases e <;> cases e' <;> simp_all
    refine hnames.filterMap _ fun i j hne a ha b hb heq => hne ?_
    rw [heq.1] at ha
    rw [heq.2] at hb
    rw [h i (toOption_eq_some.1 ha), h j (toOption_eq_some.1 hb)]

/-! ## Changes apart from the store -/

section Kept

variable {d : List String} (h : KeptBeyond d t y) (h1 : ¬ d <+: s.directory.settled) (h2 : ¬ s.directory.settled <+: d)

include h h1 h2

theorem load_of_kept {S : Snapshot} : s.load y id = .ok S ↔ s.load t id = .ok S := by
  rw [load_eq_ok_iff, load_eq_ok_iff]
  refine and_congr_right fun hplain => exists_congr fun bytes => and_congr_left fun _ => h.read_eq_ok ?_
  rw [settled_append_names goesDown_manifestName, settled_append_names (by simpa using goesDown_of_isPlainName hplain),
    List.append_assoc]
  exact not_prefix_append h1 h2 _

theorem list_of_kept : s.list y = s.list t := by
  have hload : ∀ id, (s.load y id).toOption = (s.load t id).toOption := fun id =>
    Option.ext fun S => by rw [toOption_eq_some, toOption_eq_some, load_of_kept h h1 h2]
  simp only [list, hload]
  cases ht : t.listing s.directory with
  | ok inner => rw [(h.listing_eq_ok h1 h2).2 ht]
  | error fault =>
    cases hy : y.listing s.directory with
    | error fault' => rfl
    | ok inner => simp [(h.listing_eq_ok h1 h2).1 hy] at ht

end Kept

/-! ## The newest snapshot -/

theorem latest?_max {L S : Snapshot} (hl : s.latest? t = some L) (hS : S ∈ s.list t) : S.timestamp ≤ L.timestamp := by
  obtain ⟨front, hfront⟩ := List.getLast?_eq_some_iff.1 hl
  have hsorted := list_pairwise s t
  rw [hfront] at hsorted hS
  rcases List.mem_append.1 hS with hS | hS
  · have hbehind := (List.pairwise_append.1 hsorted).2.2 S hS L (List.mem_singleton_self L)
    simp only [notBehind, Bool.or_eq_true, decide_eq_true_eq, Bool.and_eq_true, beq_iff_eq] at hbehind
    omega
  · rw [List.mem_singleton.1 hS]

theorem lt_nextTimestamp? {floor : Nat} {S : Snapshot} (h : s.nextTimestamp? t = some floor) (hS : S ∈ s.list t) :
    S.timestamp < floor := by
  unfold nextTimestamp? at h
  split at h
  · rename_i hnone
    rw [latest?, List.getLast?_eq_none_iff] at hnone
    simp [hnone] at hS
  · rename_i L hl
    have hle := latest?_max hl hS
    split at h
    · obtain rfl := Option.some.inj h
      omega
    · simp at h

/-! ## Eviction -/

theorem settled_snapshotDir (h : isPlainName id = true) :
    (s.snapshotDir id).settled = s.directory.settled ++ [id] := by
  rw [snapshotDir_eq (noSlash_of_isPlainName h), settled_append_names]
  simpa using goesDown_of_isPlainName h

theorem shapeAt?_removeAll (snapshots : List Snapshot) (e : Eviction) (t : Listing) (q : List String) :
    (s.removeAll snapshots e t).2.shapeAt? q = t.shapeAt? q ∨
      (∃ S ∈ snapshots, (s.snapshotDir S.id).settled <+: q) ∧ (s.removeAll snapshots e t).2.shapeAt? q = none := by
  induction snapshots generalizing e t with
  | nil => exact .inl rfl
  | cons S rest ih =>
    have hfirst := shapeAt?_removeDir t (s.snapshotDir S.id) q
    rw [removeAll]
    cases hr : t.removeDir (s.snapshotDir S.id) with
    | mk res left =>
      rw [hr] at hfirst
      have hone : left.shapeAt? q = t.shapeAt? q ∨
          (∃ S' ∈ S :: rest, (s.snapshotDir S'.id).settled <+: q) ∧ left.shapeAt? q = none :=
        hfirst.imp_right fun h => ⟨⟨S, List.mem_cons_self .., h.1⟩, h.2⟩
      cases res with
      | error fault => exact hone
      | ok u =>
        rcases ih ⟨e.removed ++ [S.id], e.freedBytes + sizeBelow t (s.snapshotDir S.id)⟩ left with
          hsame | ⟨⟨S', hS', hp⟩, hnone⟩
        · rw [hsame]
          exact hone
        · exact .inr ⟨⟨S', List.mem_cons_of_mem S hS', hp⟩, hnone⟩

theorem removeAll_wellFormed (snapshots : List Snapshot) (e : Eviction) {t : Listing} (ht : t.WellFormed) :
    (s.removeAll snapshots e t).2.WellFormed := by
  induction snapshots generalizing e t with
  | nil => exact ht
  | cons S rest ih =>
    have hleft := ht.removeDir (s.snapshotDir S.id)
    rw [removeAll]
    cases hr : t.removeDir (s.snapshotDir S.id) with
    | mk res left =>
      rw [hr] at hleft
      cases res with
      | error fault => exact hleft
      | ok u => exact ih _ hleft

/-- Where the ids are names, these places are the directories of snapshots in the store. -/
theorem shapeAt?_evict (hids : ∀ S ∈ s.list t, isPlainName S.id = true) (keep : Nat) (q : List String) :
    (s.evict t keep).2.shapeAt? q = t.shapeAt? q ∨
      (∃ S ∈ (s.list t).take ((s.list t).length - keep), s.directory.settled ++ [S.id] <+: q) ∧
        (s.evict t keep).2.shapeAt? q = none := by
  refine (shapeAt?_removeAll _ _ t q).imp_right (And.imp_left fun ⟨S, hS, hp⟩ => ⟨S, hS, ?_⟩)
  rwa [← settled_snapshotDir (hids S (List.mem_of_mem_take hS))]

theorem evict_wellFormed (ht : t.WellFormed) (keep : Nat) : (s.evict t keep).2.WellFormed :=
  removeAll_wellFormed _ _ ht

theorem leads_evict (hids : ∀ S ∈ s.list t, isPlainName S.id = true) (keep : Nat) {l : Location}
    (h : t.Leads l) (hl : l.Shuns s.directory.settled) : (s.evict t keep).2.Leads l := by
  refine h.congr fun a ha hd => ?_
  rcases shapeAt?_evict hids keep (settled a) with hsame | ⟨⟨S, -, hp⟩, -⟩
  · rw [hsame, hd]
  · exact absurd hp (hl a S.id ha)

/-! ## The list behind a capture -/

section Shelved

variable {root : Location} {S S' : Snapshot} (hr : s.Room t id) (h : s.Shelved t root id S y)

include hr h

theorem Shelved.load_eq {i : String} (hne : i ≠ id) : s.load y i = .ok S' ↔ s.load t i = .ok S' := by
  have hnot : ∀ ns, ns <+: [i, manifestName] → ¬ s.directory.settled ++ [id] <+: s.directory.settled ++ ns := by
    intro ns hns hp
    rw [List.prefix_append_right_inj] at hp
    have hhead := hp.trans hns
    rw [List.cons_prefix_cons] at hhead
    exact hne hhead.1.symm
  constructor
  · exact load_congr hr.leads fun ns hns _ => (h.grown.shapeAt?_eq hr (hnot ns hns)).symm
  · exact load_congr (h.grown.leads hr hr.leads) fun ns hns _ => h.grown.shapeAt?_eq hr (hnot ns hns)

variable (hid : isPlainName id = true) (hw : S.Writable)

omit hr in
theorem Shelved.load (hid : isPlainName id = true) (hw : S.Writable) : s.load y id = .ok S :=
  load_eq_ok hid hw h.manifest.1 h.manifest.2

omit h in
theorem Room.load_ne (S' : Snapshot) : s.load t id ≠ .ok S' := by
  intro hload
  have hdir := shapeAt?_of_load hload
  rw [hr.absent] at hdir
  cases hdir

include hid hw

theorem Shelved.mem_list : S' ∈ s.list y ↔ S' = S ∨ S' ∈ s.list t := by
  rw [SnapshotStore.mem_list, SnapshotStore.mem_list]
  constructor
  · rintro ⟨i, hload⟩
    by_cases hi : i = id
    · rw [hi, h.load hid hw] at hload
      exact .inl (Except.ok.inj hload).symm
    · exact .inr ⟨i, (h.load_eq hr hi).1 hload⟩
  · rintro (rfl | ⟨i, hload⟩)
    · exact ⟨id, h.load hid hw⟩
    · refine ⟨i, (h.load_eq hr ?_).2 hload⟩
      rintro rfl
      exact hr.load_ne S' hload

theorem Shelved.not_evicted {keep : Nat} (hkeep : 0 < keep) (hids : ∀ S' ∈ s.list t, S'.id ≠ id)
    (hts : ∀ S' ∈ s.list t, S'.timestamp < S.timestamp) :
    ∀ S' ∈ (s.list y).take ((s.list y).length - keep), S'.id ≠ id := by
  intro S' hS' hsame
  have hmem : ∀ S', S' ∈ s.list y ↔ S' = S ∨ S' ∈ s.list t := fun S' => h.mem_list hr hid hw
  obtain rfl : S' = S := by
    rcases (hmem S').1 (List.mem_of_mem_take hS') with heq | hold
    · exact heq
    · exact absurd hsame (hids S' hold)
  have hlen : (s.list y).length ≠ 0 := by
    have hpos := List.length_pos_of_mem (List.mem_of_mem_take hS')
    omega
  -- what follows the removed ones is not older than the new snapshot, so it is the new one again
  have hdrop : (s.list y).drop ((s.list y).length - keep) ≠ [] := by
    intro hnil
    have := List.drop_eq_nil_iff.1 hnil
    omega
  obtain ⟨L, rest, hL⟩ := List.exists_cons_of_ne_nil hdrop
  have hsplit := List.take_append_drop ((s.list y).length - keep) (s.list y)
  have hLmem : L ∈ (s.list y).drop ((s.list y).length - keep) := by simp [hL]
  have hbehind : notBehind S' L = true := by
    have hsorted := list_pairwise s y
    rw [← hsplit] at hsorted
    exact (List.pairwise_append.1 hsorted).2.2 S' hS' L hLmem
  have honly : ∀ i, s.load y i = .ok S' → i = id := by
    intro i hi
    by_contra hne
    exact Nat.lt_irrefl _ (hts _ (SnapshotStore.mem_list.2 ⟨i, (h.load_eq hr hne).1 hi⟩))
  have hunique := list_pairwise_of_unique h.wellFormed honly
  rw [← hsplit] at hunique
  refine (List.pairwise_append.1 hunique).2.2 S' hS' L hLmem ⟨rfl, ?_⟩
  rcases (hmem L).1 (List.mem_of_mem_drop hLmem) with heq | hold
  · exact heq
  · have hlt := hts L hold
    simp only [notBehind, Bool.or_eq_true, decide_eq_true_eq, Bool.and_eq_true, beq_iff_eq] at hbehind
    omega

/-- Files behind the creation of a snapshot: those behind its capture, less the directories of other snapshots. -/
structure Created (s : SnapshotStore) (S : Snapshot) (y x : Listing) : Prop where
  load : s.load x S.id = .ok S
  storeDir : x.isDir s.directory = true
  wellFormed : x.WellFormed
  shapeAt? : ∀ q, x.shapeAt? q = y.shapeAt? q ∨
    (∃ n, n ≠ S.id ∧ s.directory.settled ++ [n] <+: q) ∧ x.shapeAt? q = none

omit hr h hid hw in
theorem Created.shapeAt?_eq (h : s.Created S y x) {q : List String}
    (hq : ∀ n, s.directory.settled ++ [n] <+: q → n = S.id) : x.shapeAt? q = y.shapeAt? q :=
  (h.shapeAt? q).resolve_right fun ⟨⟨n, hne, hp⟩, _⟩ => hne (hq n hp)

/-- Removing the oldest snapshots leaves the new one in its place. -/
theorem Shelved.created {keep : Nat} (hkeep : 0 < keep) (hshun : s.directory.Shuns s.directory.settled)
    (hids : ∀ S' ∈ s.list t, isPlainName S'.id = true ∧ S'.id ≠ id)
    (hts : ∀ S' ∈ s.list t, S'.timestamp < S.timestamp) : s.Created S y (s.evict y keep).2 := by
  have hids' : ∀ S' ∈ s.list y, isPlainName S'.id = true := by
    intro S' hS'
    rcases (h.mem_list hr hid hw).1 hS' with rfl | hold
    · rw [h.id_eq]
      exact hid
    · exact (hids S' hold).1
  have hstays := h.not_evicted hr hid hw hkeep (fun S' hS' => (hids S' hS').2) hts
  have hshape : ∀ q, (s.evict y keep).2.shapeAt? q = y.shapeAt? q ∨
      (∃ n, n ≠ S.id ∧ s.directory.settled ++ [n] <+: q) ∧ (s.evict y keep).2.shapeAt? q = none := by
    intro q
    refine (shapeAt?_evict hids' keep q).imp_right fun ⟨⟨S', hS', hp⟩, hnone⟩ => ?_
    exact ⟨⟨S'.id, by rw [h.id_eq]; exact hstays S' hS', hp⟩, hnone⟩
  have hdir := isDir_eq_true.1 (h.grown.isDir hr hr.isDir)
  have hlead := leads_evict hids' keep hdir.1 hshun
  have hsame : ∀ ns, (∀ n, [n] <+: ns → n = S.id) →
      (s.evict y keep).2.shapeAt? (s.directory.settled ++ ns) = y.shapeAt? (s.directory.settled ++ ns) := by
    intro ns hns
    refine (hshape _).resolve_right ?_
    rintro ⟨⟨n, hne, hp⟩, -⟩
    rw [List.prefix_append_right_inj] at hp
    exact hne (hns n hp)
  refine ⟨?_, ?_, evict_wellFormed h.wellFormed keep, hshape⟩
  · have hload := h.load hid hw
    rw [← h.id_eq] at hload
    refine load_congr hlead (fun ns hns _ => hsame ns fun n hn => ?_) hload
    have hhead := hn.trans hns
    rw [List.cons_prefix_cons] at hhead
    exact hhead.1
  · have hnil := hsame [] fun n hn => by simp at hn
    rw [List.append_nil] at hnil
    exact isDir_eq_true.2 ⟨hlead, hnil.trans hdir.2⟩

end Shelved

/-! ## Creation -/

section Create

variable {env : Surroundings} {w w' : World} {root : Location} {tag description : String} {S : Snapshot}

/-- A snapshot that has been created can be loaded, and only older ones are gone. -/
theorem create_ok (h : s.Ready env w root) (hclock : w.now env < timestampBound)
    (hsize : ((s.filter.walkFiles w.files root).map (·.size)).sum < timestampBound) (hkeep : 0 < s.maxSnapshots)
    (hshun : s.directory.Shuns s.directory.settled) (hids : ∀ S' ∈ s.list w.files, isPlainName S'.id = true)
    (hnew : ∀ S' ∈ s.list w.files, ∀ ts, S'.id ≠ idOf ts (w.freshId env))
    (hc : s.create env w root tag description = (.ok S, w')) :
    ∃ made, s.capture env w root tag description [] = (.ok S, made) ∧ w' = w.drawn.withFiles w'.files ∧
      s.Created S made.files w'.files := by
  rw [create] at hc
  cases hcap : s.capture env w root tag description [] with
  | mk res made =>
    cases res with
    | error e => simp [hcap] at hc
    | ok S' =>
      simp only [hcap] at hc
      cases hev : s.evict made.files s.maxSnapshots with
      | mk gone left =>
        cases gone with
        | error e => simp [hev] at hc
        | ok e =>
          simp only [hev, Prod.mk.injEq, Except.ok.injEq] at hc
          obtain ⟨rfl, rfl⟩ := hc
          obtain ⟨⟨floor, hfloor, hts⟩, -, hmade, hshelved, -⟩ := capture_ok h.poised hcap
          have hw := writable_of_capture h.poised hclock hsize hcap
          have hcreated := hshelved.created (h.scene S'.timestamp).room (isPlainName_idOf h.hex) hw hkeep hshun
            (fun S'' hS'' => ⟨hids S'' hS'', hnew S'' hS'' _⟩) fun S'' hS'' => by
              have hlt := lt_nextTimestamp? hfloor hS''
              rw [hts]
              omega
          rw [hev] at hcreated
          exact ⟨made, rfl, by rw [hmade]; rfl, hcreated⟩

end Create

end SnapshotStore

end TreeRepair
