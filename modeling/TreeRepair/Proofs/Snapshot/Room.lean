import TreeRepair.Snapshot.Store
import TreeRepair.Proofs.FileTree.Walk
import TreeRepair.Proofs.Snapshot.Manifest

/-! The directory of a new snapshot while it is filled. Making it and writing into it changes nothing
elsewhere, and removing it gives the tree back as it was. -/

set_option autoImplicit false

namespace TreeRepair

open Location Listing

namespace SnapshotStore

/-- A name under which nothing lies in the directory of a store. -/
structure Room (s : SnapshotStore) (t : Listing) (id : String) : Prop where
  isDir : t.isDir s.directory = true
  noSlash : '/' ∉ id.toList
  goesDown : GoesDown id
  absent : t.shapeAt? (s.directory.settled ++ [id]) = none

/-- A tree that comes from another one by changes in the new directory only. -/
structure Grown (s : SnapshotStore) (id : String) (t x : Listing) : Prop where
  only : OnlyAt (s.directory.settled ++ [id]) t x
  made : x.shapeAt? (s.directory.settled ++ [id]) ≠ none →
    x.shapeAt? (s.directory.settled ++ [id]) = some .dir ∧ id.utf8ByteSize ≤ nameLimit

variable {s : SnapshotStore} {id : String} {t x y : Listing}

theorem ofConfig_eq_ok {directory : Location} {c : Config} (h : ofConfig directory c = .ok s) :
    s.directory = directory ∧ s.maxSnapshots = max 1 c.maxSnapshots := by
  unfold ofConfig at h
  cases hfilter : c.filter with
  | error e => simp [hfilter, Except.map] at h
  | ok filter =>
    rw [hfilter] at h
    rw [← Except.ok.inj h]
    exact ⟨rfl, rfl⟩

/-! ## The place of the directory -/

theorem snapshotDir_eq (h : '/' ∉ id.toList) : s.snapshotDir id = s.directory ++ [id] := join_name h _

theorem Room.dir_eq (h : s.Room t id) : s.snapshotDir id = s.directory ++ [id] := snapshotDir_eq h.noSlash

theorem Room.settled_eq (h : s.Room t id) (names : List String) (hn : ∀ n ∈ names, GoesDown n) :
    settled (s.directory ++ [id] ++ names) = s.directory.settled ++ [id] ++ names := by
  rw [List.append_assoc, List.append_assoc, settled_append_names]
  intro n hmem
  rcases List.mem_append.1 hmem with hmem | hmem
  · rw [List.mem_singleton.1 hmem]
    exact h.goesDown
  · exact hn n hmem

theorem Room.leads (h : s.Room t id) : t.Leads s.directory := (isDir_eq_true.1 h.isDir).1

theorem Room.shapeAt? (h : s.Room t id) : t.shapeAt? s.directory.settled = some .dir := (isDir_eq_true.1 h.isDir).2

theorem Room.not_prefix (h : s.Room t id) {q : List String} (hq : t.shapeAt? q ≠ none) :
    ¬ s.directory.settled ++ [id] <+: q := by
  rintro ⟨m, rfl⟩
  exact hq (shapeAt?_append_of_none h.absent m)

/-! ## Growing -/

theorem Grown.refl (h : s.Room t id) : s.Grown id t t := ⟨.refl _ _, fun hne => absurd h.absent hne⟩

section Grown

variable (hr : s.Room t id) (hx : s.Grown id t x)

include hr hx

theorem Grown.shapeAt?_eq {q : List String} (hq : ¬ s.directory.settled ++ [id] <+: q) :
    x.shapeAt? q = t.shapeAt? q := hx.only.shapeAt?_eq hr.shapeAt? hq

theorem Grown.shapeAt?_of_ne_none {q : List String} (hq : t.shapeAt? q ≠ none) : x.shapeAt? q = t.shapeAt? q :=
  hx.shapeAt?_eq hr (hr.not_prefix hq)

theorem Grown.dir_mono {q : List String} (hq : t.shapeAt? q = some .dir) : x.shapeAt? q = some .dir := by
  rw [hx.shapeAt?_of_ne_none hr (by simp [hq]), hq]

theorem Grown.leads {l : Location} (h : t.Leads l) : x.Leads l := h.mono fun _ => hx.dir_mono hr

theorem Grown.isDir {l : Location} (h : t.isDir l = true) : x.isDir l = true := by
  obtain ⟨h1, h2⟩ := isDir_eq_true.1 h
  exact isDir_eq_true.2 ⟨hx.leads hr h1, hx.dir_mono hr h2⟩

theorem Grown.makeDir {l : Location} (h : x.makeDir l = .ok y)
    (hl : t.shapeAt? l.settled = some .dir ∨ s.directory.settled ++ [id] <+: l.settled) : s.Grown id t y := by
  obtain ⟨above, n, hs, -, -, hlen, -, ha, hnone, rfl⟩ := makeDir_eq_ok h
  rcases hl with hl | ⟨q, hq⟩
  · simp [hx.dir_mono hr hl] at hnone
  · have habove : (s.directory.settled ++ [id] ++ q).dropLast = above := by rw [hq, hs, List.dropLast_concat]
    refine ⟨?_, fun _ => ?_⟩
    · rw [← hq]
      exact hx.only.put hr.shapeAt? (by rw [habove, ha]) _
    · have hshape := shapeAt?_makeDir h
      by_cases hqn : q = []
      · subst hqn
        rw [List.append_nil] at hq
        have hlast : id = n := by
          rw [hs] at hq
          exact (List.concat_inj.1 (by simpa using hq)).2
        exact ⟨by rw [hshape, if_pos hq], hlast ▸ hlen⟩
      · -- something lies in the directory, so it has been made before
        have hup : s.directory.settled ++ [id] <+: above := by
          rw [← habove, List.dropLast_append_of_ne_nil hqn]
          exact List.prefix_append _ _
        have hdir : x.shapeAt? (s.directory.settled ++ [id]) ≠ none := by
          obtain ⟨m, hm⟩ := hup
          intro hnone'
          rw [← hm, shapeAt?_append_of_none hnone'] at ha
          simp at ha
        obtain ⟨h1, h2⟩ := hx.made hdir
        refine ⟨?_, h2⟩
        rw [hshape]
        split
        · rfl
        · exact h1

theorem Grown.createDirs {l : Location}
    (hl : ∀ a : Location, a <+: l → t.shapeAt? a.settled = some .dir ∨ s.directory.settled ++ [id] <+: a.settled) :
    s.Grown id t (x.createDirs l).2 :=
  createDirs_induct (P := s.Grown id t) hx fun a _ _ ha hz hm => hz.makeDir hr hm (hl a ha)

theorem Grown.write {l : Location} {c : ByteArray} (h : x.write l c = .ok y)
    {q : List String} (hq : l.settled = s.directory.settled ++ [id] ++ q) (hne : q ≠ []) : s.Grown id t y := by
  obtain ⟨hlead, -, hd, rfl⟩ := write_eq_ok h
  obtain ⟨above, n, hs, ha⟩ := hlead.above (by simp [hq])
  have habove : (s.directory.settled ++ [id] ++ q).dropLast = above := by rw [← hq, hs, List.dropLast_concat]
  have hdir : x.shapeAt? (s.directory.settled ++ [id]) ≠ none := by
    intro hnone
    rw [← habove, List.dropLast_append_of_ne_nil hne, shapeAt?_append_of_none hnone] at ha
    simp at ha
  refine ⟨?_, fun _ => ?_⟩
  · rw [hq]
    exact hx.only.put hr.shapeAt? (by rw [habove, ha]) _
  · obtain ⟨h1, h2⟩ := hx.made hdir
    refine ⟨?_, h2⟩
    rw [shapeAt?_write h, if_neg, h1]
    rw [hq]
    simpa using hne.symm

/-- Removing the new directory gives the old tree back. -/
theorem Grown.removeDir (hc : checkPath (s.directory ++ [id]) = .ok ()) :
    (x.removeDir (s.directory ++ [id])).2 = t := by
  by_cases hnone : x.shapeAt? (s.directory.settled ++ [id]) = none
  · have hset : settled (s.directory ++ [id]) = s.directory.settled ++ [id] := by
      simpa using hr.settled_eq [] (by simp)
    have hself : x = t := by
      rcases hx.only with rfl | ⟨e, rfl⟩
      · rfl
      · rw [shapeAt?_putAt _ hr.shapeAt?, if_pos (List.prefix_refl _)] at hnone
        simp [Entry.follow?] at hnone
    rw [removeDir_of_not_dir (by rw [hset, hnone]; simp), hself]
  · obtain ⟨hdir, hlen⟩ := hx.made hnone
    have hlead : x.Leads (s.directory ++ [id]) := by
      refine ⟨hc, Passable.append.2 ⟨(hx.leads hr hr.leads).2, hx.dir_mono hr hr.shapeAt?, ?_⟩⟩
      simp only [hr.goesDown.1, Bool.false_eq_true, if_false, if_neg hr.goesDown.2]
      exact ⟨hlen, trivial⟩
    exact hx.only.removeDir_eq hr.goesDown hr.leads hr.shapeAt? hr.absent hdir hlead

end Grown

end SnapshotStore

end TreeRepair
