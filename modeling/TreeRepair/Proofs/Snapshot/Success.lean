import TreeRepair.Proofs.Snapshot.Difference
import TreeRepair.Proofs.Snapshot.Rollback

/-! Rollbacks that succeed. Each restored key has its stored bytes in the end and each deleted one leads
to no file, if no two steps lead to one place. -/

set_option autoImplicit false

namespace TreeRepair

open Location Listing Text

namespace SnapshotStore.Rollback

variable {r : Rollback} {env : Surroundings} {t x : Listing} {p p' : Progress} {steps : List RollbackStep}

/-! ## Steps that succeed -/

/-- Whether a step writes a stored file. -/
def Restores (s : RollbackStep) : Prop := s.action = .restore ∨ s.action = .restoreDeleted

theorem step_eq_ok {s : RollbackStep} (h : r.step env p s = (.ok (), p')) :
    (∃ key sum, s.path = some key ∧ Restores s ∧
        r.restore env.checksum p.world.files key = (.ok sum, p'.world.files)) ∨
      (∃ key, s.path = some key ∧ s.action = .delete ∧ r.delete p.world.files key = .ok p'.world.files) ∨
      p'.world.files = p.world.files ∧ (s.path = none ∨ ¬ Restores s ∧ s.action ≠ .delete) := by
  rw [Rollback.step] at h
  split at h
  · rename_i key hact hpath
    cases hres : r.restore env.checksum p.world.files key with
    | mk res files =>
      cases res with
      | error e => simp [hres] at h
      | ok sum =>
        simp only [hres, Prod.mk.injEq, true_and] at h
        exact .inl ⟨key, sum, hpath, .inl hact, by rw [← h, hres]; rfl⟩
  · rename_i key hact hpath
    cases hres : r.restore env.checksum p.world.files key with
    | mk res files =>
      cases res with
      | error e => simp [hres] at h
      | ok sum =>
        simp only [hres, Prod.mk.injEq, true_and] at h
        exact .inl ⟨key, sum, hpath, .inr hact, by rw [← h, hres]; rfl⟩
  · rename_i key hact hpath
    cases hres : r.delete p.world.files key with
    | error e => simp [hres] at h
    | ok files =>
      simp only [hres, Prod.mk.injEq, true_and] at h
      exact .inr (.inl ⟨key, hpath, hact, by rw [← h, hres]; rfl⟩)
  · rename_i hact
    simp only [Prod.mk.injEq, true_and] at h
    exact .inr (.inr ⟨by rw [← h], .inr ⟨by simp [Restores, hact], by simp [hact]⟩⟩)
  · rename_i h1 h2 h3
    simp only [Prod.mk.injEq, true_and] at h
    refine .inr (.inr ⟨by rw [← h], ?_⟩)
    cases hpath : s.path with
    | none => exact .inl rfl
    | some key =>
      refine .inr ⟨?_, fun hd => h3 key hd hpath⟩
      rintro (hr | hr)
      · exact h1 key hr hpath
      · exact h2 key hr hpath

theorem run_append (a b : List RollbackStep) :
    r.run env (a ++ b) p =
      match r.run env a p with
      | (.error e, q) => (.error e, q)
      | (.ok (), q) => r.run env b q := by
  induction a generalizing p with
  | nil => rfl
  | cons s rest ih =>
    rw [List.cons_append, Rollback.run, Rollback.run]
    cases r.step env p s with
    | mk res q =>
      cases res with
      | error e => rfl
      | ok u => exact ih

/-! ## Files that are gone -/

/-- A file cannot be removed only because it is not there, unless its path is none. -/
theorem removeFile_error {l : Location} {c : ByteArray} (hl : t.Passable [] l)
    (hf : t.shapeAt? l.settled = some (.file c)) : t.removeFile l ≠ .error .noEntry := by
  intro herr
  cases hc : checkPath l with
  | ok u => simp [removeFile_of_leads ⟨hc, hl⟩ hf] at herr
  | error fault =>
    simp only [removeFile, entryAt, locate, hc, Except.error.injEq] at herr
    subst herr
    simp only [checkPath] at hc
    split at hc
    · simp at hc
    · split at hc <;> simp at hc

theorem delete_eq_ok {names : List String} {key : String} (hwf : t.WellFormed) (hd : t.isDir r.root = true)
    (hkey : splitString '/' key = names) (hgo : ∀ n ∈ names, GoesDown n)
    (h : r.delete t key = .ok x) (c : ByteArray) : x.shapeAt? (r.root.settled ++ names) ≠ some (.file c) := by
  rw [Rollback.delete] at h
  split at h
  · simp at h
  · rename_i hk
    have hk : isSafeRelative key = true := by simpa using hk
    have hset : settled (r.root.join key) = r.root.settled ++ names := by
      rw [Key.join_of_safe hk, hkey, settled_append_names hgo]
    split at h
    · rename_i left hrem
      obtain rfl := Except.ok.inj h
      rw [shapeAt?_removeFile hrem, if_pos hset.symm]
      simp
    · rename_i hrem
      obtain rfl := Except.ok.inj h
      intro hf
      refine removeFile_error ?_ (by rw [hset]; exact hf) hrem
      rw [Key.join_of_safe hk, hkey, Passable.append]
      refine ⟨(isDir_eq_true.1 hd).1.2, passable_names hgo ?_ ?_⟩
      · exact fun n hn => (isName_of_shapeAt? hwf (p := r.root.settled ++ names) (by simp [hf]) n
          (List.mem_append_right _ hn)).short
      · change t.shapeAt? (r.root.settled ++ names) ≠ none
        simp [hf]
    · simp at h

/-! ## Runs that succeed -/

section Runs

variable {key : String} {q : List String}

/-- The bytes of a stored file are at the place of its key in the end if they are there at the start or a step
restores them, and if no other step leads there. -/
theorem run_restores {place : Location} {c : ByteArray} (all : List String)
    (hstored : r.store.storedFile r.target key = .ok place)
    (hcopy : ∀ x, Kept r.root all t x → x.read place = .ok c) (hq : q = r.root.settled ++ Key.steps key)
    (hsteps : ∀ s ∈ steps, ∀ k, s.path = some k → k ∈ all ∧ (LeadsTo r.root k q → k = key ∧ Restores s))
    (hd : t.isDir r.root = true) (hp : Kept r.root all t p.world.files)
    (hstart : p.world.files.shapeAt? q = some (.file c) ∨ ∃ s ∈ steps, s.path = some key ∧ Restores s)
    (h : r.run env steps p = (.ok (), p')) : p'.world.files.shapeAt? q = some (.file c) := by
  induction steps generalizing p with
  | nil =>
    rw [Rollback.run, Prod.mk.injEq] at h
    rw [← h.2]
    exact hstart.resolve_right (by simp)
  | cons s rest ih =>
    rw [Rollback.run] at h
    cases hres : r.step env p s with
    | mk res next =>
      cases res with
      | error e => simp [hres] at h
      | ok u =>
        simp only [hres] at h
        have hkept := step_kept env p s (hp.isDir hd)
        rw [hres] at hkept
        have hall : ∀ k ∈ s.path.toList, k ∈ all := fun k hk =>
          (hsteps s (List.mem_cons_self ..) k (Option.mem_toList.1 hk)).1
        have hnext : Kept r.root all t next.world.files := (hp.trans hkept).mono fun k hk =>
          (List.mem_append.1 hk).elim id (hall k)
        -- a restore of the key puts the bytes there, any other step leaves them
        have hput : s.path = some key → Restores s → next.world.files.shapeAt? q = some (.file c) := by
          intro hpath hrestores
          rcases step_eq_ok hres with ⟨k, sum, hk, -, hrestore⟩ | ⟨k, -, hdel, -⟩ | ⟨-, hnone | hnot⟩
          · obtain rfl : key = k := by simpa [hpath] using hk
            obtain ⟨source, content, hsource, hread, -, hfile, -⟩ := restore_eq_ok hrestore
            obtain rfl : place = source := by simpa [hstored] using hsource
            obtain rfl : c = content := by simpa [hcopy _ hp] using hread
            rw [hq, hfile]
          · simp [Restores, hdel] at hrestores
          · simp [hnone] at hpath
          · exact absurd hrestores hnot.1
        have hkeep : p.world.files.shapeAt? q = some (.file c) → next.world.files.shapeAt? q = some (.file c) := by
          intro hfile
          rcases hkept.files q c hfile with hsame | ⟨k, hk, hl⟩
          · exact hsame
          · have hpath := Option.mem_toList.1 hk
            obtain ⟨rfl, hrestores⟩ := (hsteps s (List.mem_cons_self ..) k hpath).2 hl
            exact hput hpath hrestores
        refine ih (fun s' hs' => hsteps s' (List.mem_cons_of_mem s hs')) hnext ?_ h
        rcases hstart with hfile | ⟨s', hs', hpath, hrestores⟩
        · exact .inl (hkeep hfile)
        · rcases List.mem_cons.1 hs' with rfl | hs'
          · exact .inl (hput hpath hrestores)
          · exact .inr ⟨s', hs', hpath, hrestores⟩

/-- No file is at the place of a deleted key in the end, if no other step leads there. -/
theorem run_deletes {names : List String} (hcut : r.root.IsCut) (hkey : splitString '/' key = names)
    (hgo : ∀ n ∈ names, GoesDown n) (hq : q = r.root.settled ++ names)
    (hsteps : ∀ s ∈ steps, ∀ k, s.path = some k → LeadsTo r.root k q → k = key ∧ s.action = .delete)
    (hd : p.world.files.isDir r.root = true) (hwf : p.world.files.WellFormed)
    (hstart : (∀ c, p.world.files.shapeAt? q ≠ some (.file c)) ∨ ∃ s ∈ steps, s.path = some key ∧ s.action = .delete)
    (h : r.run env steps p = (.ok (), p')) (c : ByteArray) : p'.world.files.shapeAt? q ≠ some (.file c) := by
  induction steps generalizing p with
  | nil =>
    rw [Rollback.run, Prod.mk.injEq] at h
    rw [← h.2]
    exact hstart.resolve_right (by simp) c
  | cons s rest ih =>
    rw [Rollback.run] at h
    cases hres : r.step env p s with
    | mk res next =>
      cases res with
      | error e => simp [hres] at h
      | ok u =>
        simp only [hres] at h
        have hkept := step_kept env p s hd
        have hwfn := run_wellFormed hcut env [s] p hwf
        rw [Rollback.run, hres] at hwfn
        rw [hres] at hkept
        have hgone : s.path = some key → s.action = .delete →
            ∀ c, next.world.files.shapeAt? q ≠ some (.file c) := by
          intro hpath hdel c
          rcases step_eq_ok hres with ⟨k, sum, -, hrestores, -⟩ | ⟨k, hk, -, hdelete⟩ | ⟨-, hnone | hnot⟩
          · simp [Restores, hdel] at hrestores
          · obtain rfl : key = k := by simpa [hpath] using hk
            rw [hq]
            exact delete_eq_ok hwf hd hkey hgo hdelete c
          · simp [hnone] at hpath
          · exact absurd hdel hnot.2
        have hkeep : (∀ c, p.world.files.shapeAt? q ≠ some (.file c)) →
            ∀ c, next.world.files.shapeAt? q ≠ some (.file c) := by
          intro hnone c hfile
          rcases hkept.newFiles q c hfile with hsame | ⟨k, hk, hl⟩
          · exact hnone c hsame
          · have hpath := Option.mem_toList.1 hk
            obtain ⟨rfl, hdel⟩ := hsteps s (List.mem_cons_self ..) k hpath hl
            exact hgone hpath hdel c hfile
        refine ih (fun s' hs' => hsteps s' (List.mem_cons_of_mem s hs')) (hkept.isDir hd) hwfn ?_ h
        rcases hstart with hnone | ⟨s', hs', hpath, hdel⟩
        · exact .inl (hkeep hnone)
        · rcases List.mem_cons.1 hs' with rfl | hs'
          · exact .inl (hgone hpath hdel)
          · exact .inr ⟨s', hs', hpath, hdel⟩

end Runs

end SnapshotStore.Rollback

end TreeRepair
