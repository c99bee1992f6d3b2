import TreeRepair.Proofs.FileTree.Making
import TreeRepair.Proofs.Snapshot.Record
import TreeRepair.Proofs.Snapshot.Restoration

/-! What the log of a rollback tells. Each file step that is carried out adds one entry, and a step that fails adds none
and leaves the bytes of all files; so the entries, applied in order to the files before, give the files behind the run,
wherever it ends. The log lies beside the manifest of the emergency snapshot, in a directory where nothing else lies if
every key of the walk is safe. -/

set_option autoImplicit false

namespace TreeRepair

open Location Listing Text

namespace Listing

variable {t x : Listing} {q : List String} {c : ByteArray}

/-! ## Bytes at places -/

/-- The bytes of the file at a place. -/
def bytesAt? (t : Listing) (q : List String) : Option ByteArray :=
  match t.shapeAt? q with
  | some (.file c) => some c
  | _ => none

theorem bytesAt?_eq_some : t.bytesAt? q = some c ↔ t.shapeAt? q = some (.file c) := by
  unfold bytesAt?
  split
  · rename_i h
    simp [h]
  · rename_i h
    simp only [reduceCtorEq, false_iff]
    exact h c

theorem bytesAt?_congr (h : ∀ c, x.shapeAt? q = some (.file c) ↔ t.shapeAt? q = some (.file c)) :
    x.bytesAt? q = t.bytesAt? q :=
  Option.ext fun c => by rw [bytesAt?_eq_some, bytesAt?_eq_some, h]

theorem bytesAt?_eq_none (h : ∀ c, t.shapeAt? q ≠ some (.file c)) : t.bytesAt? q = none :=
  Option.eq_none_iff_forall_not_mem.2 fun c hc => h c (bytesAt?_eq_some.1 hc)

/-! ## Files that are not missing -/

theorem locateFrom_ne_noEntry (trail : List (String × Listing)) (ht : Trailed t trail) {l : Location}
    (hup : ∀ p ∈ l, p ≠ "..") (hf : t.shapeAt? (trailNames trail ++ l.components) = some (.file c)) :
    locateFrom (t.find? (trailNames trail)) trail l ≠ .error .noEntry := by
  induction l generalizing trail with
  | nil => cases t.find? (trailNames trail) <;> simp [locateFrom]
  | cons piece rest ih =>
    obtain ⟨hpiece, hrest⟩ := List.forall_mem_cons.1 hup
    cases hfind : t.find? (trailNames trail) with
    | none =>
      rw [shapeAt?_append_of_none (shapeAt?_eq_none.2 hfind)] at hf
      simp at hf
    | some e =>
      cases e with
      | file c => simp [locateFrom]
      | dir here =>
        by_cases hv : isVoid piece = true
        · have hcomp : components (piece :: rest) = components rest := by simp [components, hv]
          rw [hcomp] at hf
          have hgo := ih trail ht hrest hf
          rw [hfind] at hgo
          simpa [locateFrom, hv] using hgo
        · have hcomp : components (piece :: rest) = piece :: components rest := by simp [components, hv]
          have hchild : here.child? piece = t.find? (trailNames ((piece, here) :: trail)) := by
            rw [trailNames_cons, find?_append, hfind, Option.bind_some, ← find?_eq_follow?, find?_cons]
            cases here.child? piece <;> simp [Entry.follow?]
          by_cases hlen : nameLimit < piece.utf8ByteSize
          · simp [locateFrom, hv, hpiece, hlen]
          · rw [hcomp] at hf
            have hgo := ih ((piece, here) :: trail) ⟨hfind, ht⟩ hrest (by simpa using hf)
            rw [← hchild] at hgo
            simpa [locateFrom, hv, hpiece, hlen] using hgo

theorem checkPath_ne_noEntry (l : Location) : checkPath l ≠ .error .noEntry := by
  unfold checkPath
  split
  · simp
  · split <;> simp

theorem removeFile_ne_noEntry {base l : Location} (hb : t.Passable [] base) (hup : ∀ p ∈ l, p ≠ "..")
    (hf : t.shapeAt? (base.settled ++ l.components) = some (.file c)) :
    t.removeFile (base ++ l) ≠ .error .noEntry := by
  obtain ⟨trail, ht, hnames, hfollow⟩ := locateFrom_append (t := t) [] trivial hb
  have hset : trailNames trail = base.settled := hnames
  have hgo := locateFrom_ne_noEntry trail ht hup (by rw [hset]; exact hf)
  rw [← hfollow] at hgo
  change locateFrom (some (.dir t)) [] (base ++ l) ≠ _ at hgo
  have hend : settled (base ++ l) = base.settled ++ l.components := by
    rw [settled_append, Key.settleFrom_of_noUp hup]
  intro herr
  cases hl : t.locate (base ++ l) with
  | ok names =>
    obtain ⟨hc, hpass, -⟩ := locate_eq_ok.1 hl
    rw [removeFile_of_leads ⟨hc, hpass⟩ (by rw [hend]; exact hf)] at herr
    cases herr
  | error fault =>
    obtain rfl : fault = .noEntry := by
      rw [removeFile, entryAt, hl] at herr
      exact Except.error.inj herr
    rw [locate] at hl
    split at hl
    · exact hgo hl
    · rename_i fault' hc
      exact checkPath_ne_noEntry _ (hc.trans (congrArg Except.error (Except.error.inj hl)))

end Listing

namespace SnapshotStore.Rollback

/-! ## Deeds -/

/-- An entry of a log with the bytes that its step wrote, or none if it deleted. -/
structure Deed where
  entry : LogEntry
  bytes : Option ByteArray

/-- An entry tells the checksum of what was written, and nothing was written exactly if it tells of a deletion. -/
structure Deed.Honest (checksum : HashFunction) (d : Deed) : Prop where
  checksum_eq : d.entry.checksum = d.bytes.map checksum
  bytes_eq_none : d.bytes = none ↔ d.entry.action = .delete

/-- The bytes of files with a deed applied. -/
def Deed.apply (root : Location) (contents : List String → Option ByteArray) (d : Deed) :
    List String → Option ByteArray :=
  fun q => if q = root.settled ++ Key.steps d.entry.path then d.bytes else contents q

/-- The bytes of files with deeds applied in order. -/
def replay (root : Location) (deeds : List Deed) (contents : List String → Option ByteArray) :
    List String → Option ByteArray :=
  deeds.foldl (Deed.apply root) contents

/-- The action and the path of a step that changes a file. -/
def fileStep? (s : RollbackStep) : Option (StepAction × String) :=
  match s.action, s.path with
  | .restore, some key | .restoreDeleted, some key | .delete, some key => some (s.action, key)
  | _, _ => none

/-- The action and the path that an entry tells of. -/
def stepOf (e : LogEntry) : StepAction × String := (e.action, e.path)

variable {r : Rollback} {checksum : HashFunction} {env : Surroundings} {root : Location} {t x : Listing} {key : String}
  {p p' : Progress} {s : RollbackStep} {steps : List RollbackStep}

theorem replay_of_ne {names : List String} (deeds : List Deed) (contents : List String → Option ByteArray)
    (h : ∀ d ∈ deeds, Key.steps d.entry.path ≠ names) :
    replay root deeds contents (root.settled ++ names) = contents (root.settled ++ names) := by
  induction deeds generalizing contents with
  | nil => rfl
  | cons d deeds ih =>
    obtain ⟨hd, hdeeds⟩ := List.forall_mem_cons.1 h
    have hskip : d.apply root contents (root.settled ++ names) = contents (root.settled ++ names) :=
      if_neg fun heq => hd (List.append_cancel_left heq).symm
    rw [← hskip]
    exact ih _ hdeeds

theorem replay_last (front rest : List Deed) (d : Deed) (contents : List String → Option ByteArray)
    (hlast : ∀ d' ∈ rest, Key.steps d'.entry.path ≠ Key.steps d.entry.path) :
    replay root (front ++ d :: rest) contents (root.settled ++ Key.steps d.entry.path) = d.bytes := by
  rw [replay, List.foldl_append, List.foldl_cons, ← replay, ← replay, replay_of_ne rest _ hlast]
  exact if_pos rfl

/-! ## What a step does to the bytes of files -/

theorem Kept.bytesAt?_of_ne {q : List String} (h : Kept root [key] t x) (hq : q ≠ root.settled ++ Key.steps key) :
    x.bytesAt? q = t.bytesAt? q := by
  have hnone : ¬ ∃ k ∈ [key], LeadsTo root k q := by
    rintro ⟨k, hk, hl⟩
    obtain rfl := List.mem_singleton.1 hk
    exact hq hl.place_eq
  exact bytesAt?_congr fun c =>
    ⟨fun hf => (h.newFiles q c hf).resolve_right hnone, fun hf => (h.files q c hf).resolve_right hnone⟩

theorem bytesAt?_restore {sum : String} (hd : t.isDir r.root = true) (h : r.restore checksum t key = (.ok sum, x)) :
    ∃ c, sum = checksum c ∧
      ∀ q, x.bytesAt? q = if q = r.root.settled ++ Key.steps key then some c else t.bytesAt? q := by
  obtain ⟨-, c, -, -, hsum, hfile, -⟩ := restore_eq_ok h
  have hkept : Kept r.root [key] t (r.restore checksum t key).2 := restore_kept hd key
  rw [h] at hkept
  refine ⟨c, hsum, fun q => ?_⟩
  split
  · rename_i hq
    rw [hq, bytesAt?_eq_some, hfile]
  · rename_i hq
    exact hkept.bytesAt?_of_ne hq

theorem bytesAt?_restore_error {e : SnapshotError} (h : r.restore checksum t key = (.error e, x)) (q : List String) :
    x.bytesAt? q = t.bytesAt? q := by
  have hmade : (t.createDirs (parent (r.root.join key))).2.bytesAt? q = t.bytesAt? q :=
    bytesAt?_congr fun c => shapeAt?_createDirs_file
  rw [Rollback.restore] at h
  split at h
  · rw [← (Prod.mk.inj h).2]
  · split at h
    · rw [← (Prod.mk.inj h).2]
    · simp only at h
      split at h
      · rename_i left hcd
        rw [← (Prod.mk.inj h).2, ← hmade, hcd]
      · rename_i made hcd
        split at h
        · rw [← (Prod.mk.inj h).2, ← hmade, hcd]
        · cases (Prod.mk.inj h).1

theorem bytesAt?_delete (hd : t.isDir r.root = true) (h : r.delete t key = .ok x) (q : List String) :
    x.bytesAt? q = if q = r.root.settled ++ Key.steps key then none else t.bytesAt? q := by
  have hkept := delete_kept h
  split
  · rename_i hq
    subst hq
    refine bytesAt?_eq_none fun c hf => ?_
    rw [Rollback.delete] at h
    split at h
    · cases h
    · rename_i hk
      have hk : isSafeRelative key = true := by simpa using hk
      split at h
      · rename_i left hrem
        obtain rfl := Except.ok.inj h
        rw [shapeAt?_removeFile hrem, if_pos (Key.settled_join_of_safe hk r.root).symm] at hf
        cases hf
      · rename_i hrem
        obtain rfl := Except.ok.inj h
        obtain ⟨first, rest, hs, -, hup⟩ := Key.isSafeRelative_iff.1 hk
        rw [Key.join_of_safe hk] at hrem
        exact removeFile_ne_noEntry (isDir_eq_true.1 hd).1.2 (by rwa [hs]) hf hrem
      · cases h
  · rename_i hq
    exact hkept.bytesAt?_of_ne hq

/-! ## Steps -/

theorem step_restores (hs : Restores s) (hpath : s.path = some key) :
    r.step env p s =
      match r.restore env.checksum p.world.files key with
      | (.error e, files) => (.error e, { p with world := p.world.withFiles files })
      | (.ok sum, files) => (.ok (), p.log env files s.action key (some sum)) := by
  obtain ⟨action, path, critical⟩ := s
  obtain rfl : path = some key := hpath
  rcases hs with rfl | rfl
  · rfl
  · rfl

/-- What a step does: it restores a file or fails to, deletes a file or fails to, or changes no file. -/
theorem step_cases (r : Rollback) (env : Surroundings) (p : Progress) (s : RollbackStep) :
    (∃ key, fileStep? s = some (s.action, key) ∧ s.action ≠ .delete ∧
      ((∃ sum files, r.restore env.checksum p.world.files key = (.ok sum, files) ∧
          r.step env p s = (.ok (), p.log env files s.action key (some sum))) ∨
        ∃ e files, r.restore env.checksum p.world.files key = (.error e, files) ∧
          r.step env p s = (.error e, { p with world := p.world.withFiles files }))) ∨
    (∃ key, fileStep? s = some (.delete, key) ∧
      ((∃ files, r.delete p.world.files key = .ok files ∧
          r.step env p s = (.ok (), p.log env files .delete key none)) ∨
        ∃ e, r.step env p s = (.error e, p))) ∨
    fileStep? s = none ∧ ∃ verified, r.step env p s = (.ok (), { p with verified := verified }) := by
  have hrestore : ∀ key, Restores s → s.path = some key →
      (∃ sum files, r.restore env.checksum p.world.files key = (.ok sum, files) ∧
          r.step env p s = (.ok (), p.log env files s.action key (some sum))) ∨
        ∃ e files, r.restore env.checksum p.world.files key = (.error e, files) ∧
          r.step env p s = (.error e, { p with world := p.world.withFiles files }) := by
    intro key hs hpath
    rw [step_restores hs hpath]
    cases hres : r.restore env.checksum p.world.files key with
    | mk res files =>
      cases res with
      | error e => exact .inr ⟨e, files, rfl, rfl⟩
      | ok sum => exact .inl ⟨sum, files, rfl, rfl⟩
  obtain ⟨action, path, critical⟩ := s
  cases path with
  | none =>
    refine .inr (.inr ⟨?_, ?_⟩)
    · cases action <;> rfl
    · cases action <;> exact ⟨_, rfl⟩
  | some key =>
    cases action with
    | restore => exact .inl ⟨key, rfl, by simp, hrestore key (.inl rfl) rfl⟩
    | restoreDeleted => exact .inl ⟨key, rfl, by simp, hrestore key (.inr rfl) rfl⟩
    | delete =>
      refine .inr (.inl ⟨key, rfl, ?_⟩)
      cases hres : r.delete p.world.files key with
      | error e => exact .inr ⟨e, by simp only [Rollback.step, hres]⟩
      | ok files => exact .inl ⟨files, rfl, by simp only [Rollback.step, hres]⟩
    | emergencyBackup => exact .inr (.inr ⟨rfl, _, rfl⟩)
    | verify => exact .inr (.inr ⟨rfl, _, rfl⟩)

/-- What a step logs for a change at the place of its key. -/
theorem deed_of_log {files : Listing} {action : StepAction} (bytes : Option ByteArray)
    (haction : bytes = none ↔ action = .delete) (hstep : fileStep? s = some (action, key))
    (hfiles : ∀ q, files.bytesAt? q = if q = r.root.settled ++ Key.steps key then bytes else p.world.files.bytesAt? q) :
    ∃ d : Deed, d.Honest env.checksum ∧ fileStep? s = some (stepOf d.entry) ∧
      (p.log env files action key (bytes.map env.checksum)).entries = p.entries ++ [d.entry] ∧
      (p.log env files action key (bytes.map env.checksum)).world.files.bytesAt? =
        d.apply r.root p.world.files.bytesAt? :=
  ⟨⟨⟨action, key, bytes.map env.checksum, p.world.now env⟩, bytes⟩, ⟨rfl, haction⟩, hstep, rfl, funext hfiles⟩

/-- A step that succeeds is no file step and changes nothing, or it does a deed and logs it. -/
theorem step_ok (hd : p.world.files.isDir r.root = true) (h : r.step env p s = (.ok (), p')) :
    fileStep? s = none ∧ p'.entries = p.entries ∧ p'.world = p.world ∨
      ∃ d : Deed, d.Honest env.checksum ∧ fileStep? s = some (stepOf d.entry) ∧ p'.entries = p.entries ++ [d.entry] ∧
        p'.world.files.bytesAt? = d.apply r.root p.world.files.bytesAt? := by
  rcases step_cases r env p s with ⟨key, hstep, hne, ⟨sum, files, hres, heq⟩ | ⟨e, files, -, heq⟩⟩ |
    ⟨key, hstep, ⟨files, hres, heq⟩ | ⟨e, heq⟩⟩ | ⟨hstep, verified, heq⟩
  · obtain rfl := (Prod.mk.inj (heq.symm.trans h)).2
    obtain ⟨c, rfl, hfiles⟩ := bytesAt?_restore hd hres
    exact .inr (deed_of_log (some c) (by simp [hne]) hstep hfiles)
  · cases (Prod.mk.inj (heq.symm.trans h)).1
  · obtain rfl := (Prod.mk.inj (heq.symm.trans h)).2
    exact .inr (deed_of_log none (by simp) hstep (bytesAt?_delete hd hres))
  · cases (Prod.mk.inj (heq.symm.trans h)).1
  · obtain rfl := (Prod.mk.inj (heq.symm.trans h)).2
    exact .inl ⟨hstep, rfl, rfl⟩

theorem step_error {e : SnapshotError} (h : r.step env p s = (.error e, p')) :
    fileStep? s ≠ none ∧ p'.entries = p.entries ∧ p'.world.files.bytesAt? = p.world.files.bytesAt? := by
  rcases step_cases r env p s with ⟨key, hstep, hne, ⟨sum, files, -, heq⟩ | ⟨e', files, hres, heq⟩⟩ |
    ⟨key, hstep, ⟨files, -, heq⟩ | ⟨e', heq⟩⟩ | ⟨hstep, verified, heq⟩
  · cases (Prod.mk.inj (heq.symm.trans h)).1
  · obtain rfl := (Prod.mk.inj (heq.symm.trans h)).2
    exact ⟨by simp [hstep], rfl, funext fun q => bytesAt?_restore_error hres q⟩
  · cases (Prod.mk.inj (heq.symm.trans h)).1
  · obtain rfl := (Prod.mk.inj (heq.symm.trans h)).2
    exact ⟨by simp [hstep], rfl, rfl⟩
  · cases (Prod.mk.inj (heq.symm.trans h)).1

/-! ## Runs -/

/-- What a run has done and logged: the first of its file steps, all of them exactly if it succeeds. -/
structure Carried (env : Surroundings) (root : Location) (steps : List RollbackStep) (p p' : Progress)
    (result : Except SnapshotError Unit) (deeds : List Deed) : Prop where
  honest : ∀ d ∈ deeds, d.Honest env.checksum
  entries : p'.entries = p.entries ++ deeds.map (·.entry)
  inOrder : deeds.map (fun d => stepOf d.entry) <+: steps.filterMap fileStep?
  complete : result = .ok () ↔ deeds.map (fun d => stepOf d.entry) = steps.filterMap fileStep?
  bytes : p'.world.files.bytesAt? = replay root deeds p.world.files.bytesAt?

theorem run_carried (steps : List RollbackStep) (p : Progress) {result : Except SnapshotError Unit}
    (hd : p.world.files.isDir r.root = true) (h : r.run env steps p = (result, p')) :
    ∃ deeds, Carried env r.root steps p p' result deeds := by
  induction steps generalizing p with
  | nil =>
    obtain ⟨rfl, rfl⟩ := Prod.mk.inj h
    exact ⟨[], by simp, by simp, List.nil_prefix, by simp, rfl⟩
  | cons s rest ih =>
    rw [Rollback.run] at h
    cases hres : r.step env p s with
    | mk res q =>
      simp only [hres] at h
      cases res with
      | error e =>
        -- the step that fails ends the run, and it is the first file step that is left
        obtain ⟨hstep, hentries, hbytes⟩ := step_error hres
        obtain ⟨rfl, rfl⟩ := Prod.mk.inj h
        obtain ⟨step, hfile⟩ := Option.ne_none_iff_exists'.1 hstep
        exact ⟨[], by simp, by simp [hentries], List.nil_prefix, by simp [hfile], hbytes⟩
      | ok u =>
        have hkept := step_kept env p s hd
        rw [hres] at hkept
        obtain ⟨deeds, hdeeds⟩ := ih q (hkept.isDir hd) h
        rcases step_ok hd hres with ⟨hstep, hentries, hworld⟩ | ⟨d, hhonest, hstep, hentries, hbytes⟩
        · refine ⟨deeds, hdeeds.honest, ?_, ?_, ?_, ?_⟩
          · rw [hdeeds.entries, hentries]
          · simpa [hstep] using hdeeds.inOrder
          · simpa [hstep] using hdeeds.complete
          · rw [hdeeds.bytes, hworld]
        · refine ⟨d :: deeds, List.forall_mem_cons.2 ⟨hhonest, hdeeds.honest⟩, ?_, ?_, ?_, ?_⟩
          · rw [hdeeds.entries, hentries]
            simp
          · simpa [hstep] using hdeeds.inOrder
          · simpa [hstep] using hdeeds.complete
          · rw [hdeeds.bytes, hbytes]
            rfl

theorem replay_congr (deeds : List Deed) {contents contents' : List String → Option ByteArray} {q : List String}
    (h : contents q = contents' q) : replay root deeds contents q = replay root deeds contents' q := by
  induction deeds generalizing contents contents' with
  | nil => exact h
  | cons d deeds ih =>
    refine ih ?_
    simp only [Deed.apply, h]

/-- Honest deeds log a checksum unless they tell of a deletion, so that counting checksums counts what was restored. -/
theorem length_restored {deeds : List Deed} (h : ∀ d ∈ deeds, d.Honest checksum) :
    ((deeds.map (·.entry)).filter (·.checksum.isSome)).length =
        ((deeds.map (·.entry)).filter (·.action ≠ .delete)).length ∧
      (deeds.map (·.entry)).length - ((deeds.map (·.entry)).filter (·.checksum.isSome)).length =
        ((deeds.map (·.entry)).filter (·.action = .delete)).length := by
  have hfilter : (deeds.map (·.entry)).filter (·.checksum.isSome) =
      (deeds.map (·.entry)).filter (·.action ≠ .delete) := by
    refine List.filter_congr fun e he => ?_
    obtain ⟨d, hd, rfl⟩ := List.mem_map.1 he
    have hnone := (h d hd).bytes_eq_none
    rw [(h d hd).checksum_eq, Option.isSome_map]
    cases hbytes : d.bytes with
    | none => simp [hnone.1 hbytes]
    | some c => simpa [hbytes] using hnone
  have hlen := List.length_eq_length_filter_add (l := deeds.map (·.entry)) (fun e => decide (e.action ≠ .delete))
  refine ⟨by rw [hfilter], ?_⟩
  rw [hfilter, hlen, Nat.add_sub_cancel_left]
  simp

/-- How the execution of a plan goes on behind its run. -/
theorem execute_run (r : Rollback) (env : Surroundings) (w : World) :
    ∃ result p, r.run env r.plan.steps ⟨w, [], true⟩ = (result, p) ∧
      (r.execute env w).2.files = r.writeLog p.world.files (r.logOf result p) ∧
      ((∃ report, result = .ok () ∧ (r.execute env w).1 = .ok report ∧ report.emergency = some r.emergency.id ∧
          report.restored = (p.entries.filter (·.checksum.isSome)).length ∧
          report.deleted = p.entries.length - (p.entries.filter (·.checksum.isSome)).length) ∨
        ∃ e, result = .error e ∧ (r.execute env w).1 = .error (.rollbackFailed r.emergency.id e.message)) := by
  rw [Rollback.execute]
  cases hrun : r.run env r.plan.steps ⟨w, [], true⟩ with
  | mk result p =>
    cases result with
    | ok u => exact ⟨_, p, rfl, rfl, .inl ⟨_, rfl, rfl, rfl, rfl, rfl⟩⟩
    | error e => exact ⟨_, p, rfl, rfl, .inr ⟨e, rfl, rfl⟩⟩

end SnapshotStore.Rollback

namespace SnapshotStore

open Rollback

variable {s : SnapshotStore} {env : Surroundings} {w w' : World} {root : Location} {t x y : Listing} {id m : String}

/-! ## A place beside the manifest -/

/-- Making directories on the way to a copy makes nothing else in the directory of a new snapshot. -/
theorem Room.vacant_createDirs (hr : s.Room t id) (hm : m ≠ filesName) {l : Location} (names : List String)
    (hl : ∀ a : Location, a <+: l → t.shapeAt? a.settled = some .dir ∨
      ∃ ns, ns ≠ [] ∧ ns <+: id :: filesName :: names ∧ a.settled = s.directory.settled ++ ns)
    (hx : x.shapeAt? (s.directory.settled ++ [id, m]) = none) :
    (x.createDirs l).2.shapeAt? (s.directory.settled ++ [id, m]) = none := by
  rcases shapeAt?_createDirs x l (s.directory.settled ++ [id, m]) with hsame | ⟨-, -, a, ha, hset⟩
  · rw [hsame, hx]
  · rcases hl a ha with hdir | ⟨ns, -, hns, hset'⟩
    · rw [hset] at hdir
      exact absurd ⟨[m], by simp⟩ (hr.not_prefix (by rw [hdir]; simp))
    · obtain rfl := List.append_cancel_left (hset.symm.trans hset')
      exact absurd (List.cons_prefix_cons.1 (List.cons_prefix_cons.1 hns).2).1 hm

/-- Beside the copies and the manifest nothing lies in the directory of a new snapshot. -/
theorem Scene.vacant {checksum : HashFunction} {required : List String} (h : s.Scene t root id) {snapshot S : Snapshot}
    (hf : s.fill checksum t root (s.directory ++ [id]) required snapshot = (.ok S, y)) (hm : m ≠ filesName)
    (hm' : m ≠ manifestName) : y.shapeAt? (s.directory.settled ++ [id, m]) = none := by
  have hmade := h.made
  have hwf := h.safe.wellFormed.createDirs h.target_cut
  have hsame := sameWalk_createDirs (s := s) h.rooted (s.directory ++ [id] ++ [filesName])
  have hnone : t.shapeAt? (s.directory.settled ++ [id, m]) = none := by
    have := shapeAt?_append_of_none h.room.absent [m]
    simpa using this
  have hfirst := h.room.vacant_createDirs hm [] (fun a ha => h.room.above_files ha) hnone
  obtain ⟨x, filled, z, hcd, hcopy, -, hwr⟩ := fill_eq_ok hf
  rw [hcd] at hmade hwf hsame hfirst
  have hmet := h.safe.met required hsame hwf
  have hcopies : (copyAll checksum (s.directory ++ [id] ++ [filesName]) required (s.copyList x root required)
      snapshot x).2.shapeAt? (s.directory.settled ++ [id, m]) = none := by
    refine copyAll_induct (P := fun x => x.shapeAt? (s.directory.settled ++ [id, m]) = none) checksum required
      (fun y hy f hf => ?_) (fun y z c hy f hf hw => ?_) snapshot hfirst
    · exact h.room.vacant_createDirs hm _ (fun a ha => above_copy (hmet f hf).safe h.room ha) hy
    · rw [shapeAt?_write hw, settled_copyPlace (hmet f hf).safe h.room.goesDown, copiesPlace, if_neg, hy]
      simp [hm]
  rw [hcopy] at hcopies
  rw [shapeAt?_write hwr, h.room.settled_eq _ goesDown_manifestName, if_neg (by simp [hm']), hcopies]

theorem vacant_of_capture {tag description : String} {required : List String} {S : Snapshot}
    (h : s.Ready env w root) (hc : s.capture env w root tag description required = (.ok S, w'))
    (hm : m ≠ filesName) (hm' : m ≠ manifestName) :
    w'.files.shapeAt? (s.directory.settled ++ [S.id, m]) = none := by
  obtain ⟨timestamp, hfill⟩ := fill_of_capture h.hex hc
  rw [(fill_shelved (h.scene timestamp) hfill).1.id_eq]
  exact (h.scene timestamp).vacant hfill hm hm'

/-! ## The log beside the manifest -/

/-- The place of a log. -/
def logPlace (s : SnapshotStore) (id : String) : Location := (s.snapshotDir id).join logName

theorem Room.logPlace_eq (h : s.Room t id) : s.logPlace id = s.directory ++ [id] ++ [logName] := by
  rw [logPlace, h.dir_eq, join_name (by decide)]

theorem Room.settled_logPlace (h : s.Room t id) : (s.logPlace id).settled = s.directory.settled ++ [id, logName] := by
  rw [h.logPlace_eq, h.settled_eq]
  · simp
  · intro n hn
    rw [List.mem_singleton.1 hn]
    exact ⟨by decide, by decide⟩

/-- A log is written, and read again, exactly if its path is not too long. -/
theorem read_writeLog {r : Rollback} (log : TransactionLog) (h : r.store.Room t r.emergency.id)
    (hopen : x.Leads (r.store.directory ++ [r.emergency.id] ++ [manifestName]))
    (hvacant : x.shapeAt? (r.store.directory.settled ++ [r.emergency.id, logName]) ≠ some .dir) :
    (r.writeLog x log).read (r.store.logPlace r.emergency.id) = .ok log.toJson.pretty.toUTF8 ↔
      checkPath (r.store.logPlace r.emergency.id) = .ok () := by
  refine ⟨fun hread => (read_eq_ok.1 hread).1.1, fun hc => ?_⟩
  have hleads : x.Leads (r.store.logPlace r.emergency.id) := by
    refine ⟨hc, ?_⟩
    obtain ⟨hpass, hdir, -⟩ := Passable.append.1 hopen.2
    rw [h.logPlace_eq, Passable.append]
    exact ⟨hpass, hdir, by decide, trivial⟩
  have hlast : (r.store.logPlace r.emergency.id).getLast? ≠ some "" := by
    rw [h.logPlace_eq, List.getLast?_concat]
    decide
  obtain ⟨written, hwrite⟩ :
      ∃ written, x.write (r.store.logPlace r.emergency.id) log.toJson.pretty.toUTF8 = .ok written :=
    ⟨_, write_of_leads hleads hlast (by rwa [h.settled_logPlace]) _⟩
  have hlog : r.writeLog x log = written := by
    rw [Rollback.writeLog, ← logPlace, hwrite]
  rw [hlog]
  refine read_eq_ok.2 ⟨hleads.mono fun q => (shapeAt?_write_dir hwrite).2, ?_⟩
  rw [shapeAt?_write hwrite, if_pos rfl]

theorem parseBytes_log {log : TransactionLog} (h : ∀ e ∈ log.entries, e.timestamp < 2 ^ 64) :
    Json.parseBytes log.toJson.pretty.toUTF8 = some log.toJson := by
  have hoptional : ∀ o : Option String, (Json.optional .text o).Exact := by
    intro o
    cases o <;> simp [Json.optional, Json.Exact]
  have hentries : ∀ es : List LogEntry, (∀ e ∈ es, e.timestamp < 2 ^ 64) →
      Json.ExactItems (es.map LogEntry.toJson) := by
    intro es hes
    induction es with
    | nil => trivial
    | cons e rest ih =>
      obtain ⟨he, hrest⟩ := List.forall_mem_cons.1 hes
      exact ⟨⟨trivial, trivial, hoptional _, he, trivial⟩, ih hrest⟩
  exact Json.parseBytes_pretty ⟨trivial, trivial, trivial, hentries _ h, hoptional _, trivial⟩

/-! ## What the log tells -/

/-- What the log of a rollback tells, in terms of the files before and behind it and of how it ended. -/
structure Told (s : SnapshotStore) (env : Surroundings) (root : Location) (plan : RollbackPlan) (t x : Listing)
    (result : Except SnapshotError RollbackReport) (log : TransactionLog) (deeds : List Deed) : Prop where
  /-- Its entries are those of what was done, each with the checksum of what was written. -/
  entries : log.entries = deeds.map (·.entry)
  honest : ∀ d ∈ deeds, d.Honest env.checksum
  /-- They are the first file steps of the plan, and all of them exactly if the log is completed. -/
  inOrder : log.entries.map stepOf <+: plan.steps.filterMap fileStep?
  complete : log.completed = true ↔ log.entries.map stepOf = plan.steps.filterMap fileStep?
  completed : log.completed = true ↔ ∃ report, result = .ok report
  error : log.error = none ↔ ∃ report, result = .ok report
  report : ∀ report, result = .ok report → report.emergency = some log.emergency ∧
    report.restored = (log.entries.filter (·.action ≠ .delete)).length ∧
    report.deleted = (log.entries.filter (·.action = .delete)).length
  failure : ∀ id reason, result = .error (.rollbackFailed id reason) → id = log.emergency ∧ log.error = some reason
  /-- The files of the project are those before with the entries applied in order. -/
  replayed : ∀ names, x.bytesAt? (root.settled ++ names) = replay root deeds t.bytesAt? (root.settled ++ names)
  /-- Each entry tells the checksum of what is at its place now, or that nothing is there, unless a later one is about
  the same place. -/
  last : ∀ front e rest, log.entries = front ++ e :: rest → (∀ e' ∈ rest, Key.steps e'.path ≠ Key.steps e.path) →
    (x.bytesAt? (root.settled ++ Key.steps e.path)).map env.checksum = e.checksum
  /-- It lies beside the manifest of the emergency snapshot, and its text tells it. -/
  written : x.read (s.logPlace log.emergency) = .ok log.toJson.pretty.toUTF8 ↔
    checkPath (s.logPlace log.emergency) = .ok ()
  legible : (∀ e ∈ log.entries, e.timestamp < 2 ^ 64) → Json.parseBytes log.toJson.pretty.toUTF8 = some log.toJson

theorem last_of_replayed {log : TransactionLog} {deeds : List Deed} (hentries : log.entries = deeds.map (·.entry))
    (hhonest : ∀ d ∈ deeds, d.Honest env.checksum)
    (hreplayed : ∀ names, x.bytesAt? (root.settled ++ names) = replay root deeds t.bytesAt? (root.settled ++ names))
    {front rest : List LogEntry} {e : LogEntry} (hsplit : log.entries = front ++ e :: rest)
    (hlast : ∀ e' ∈ rest, Key.steps e'.path ≠ Key.steps e.path) :
    (x.bytesAt? (root.settled ++ Key.steps e.path)).map env.checksum = e.checksum := by
  obtain ⟨dfront, dback, hdeeds, -, hback⟩ := List.map_eq_append_iff.1 (hentries.symm.trans hsplit)
  obtain ⟨d, drest, rfl, rfl, rfl⟩ := List.map_eq_cons_iff.1 hback
  have hd : d ∈ deeds := by simp [hdeeds]
  rw [hreplayed, hdeeds, replay_last _ _ _ _ fun d' hd' => hlast _ (List.mem_map_of_mem hd'), (hhonest d hd).checksum_eq]

/-- What the execution of a plan tells, once its emergency snapshot is there. -/
theorem execute_told (r : Rollback) (env : Surroundings) {saved : World} (hdir : t.isDir r.root = true)
    (hroom : r.store.Room t r.emergency.id) (hgrown : r.store.Grown r.emergency.id t saved.files)
    (hopen : saved.files.Leads (r.store.directory ++ [r.emergency.id] ++ [manifestName]))
    (hvacant : saved.files.shapeAt? (r.store.directory.settled ++ [r.emergency.id, logName]) = none)
    (hout : ¬ r.root.settled <+: r.store.directory.settled) :
    ∃ log deeds, r.store.Told env r.root r.plan t (r.execute env saved).2.files (r.execute env saved).1 log deeds := by
  obtain ⟨result, p, hrun, hfiles, hresult⟩ := execute_run r env saved
  have hdir' := hgrown.isDir hroom hdir
  obtain ⟨deeds, hc⟩ := run_carried r.plan.steps _ hdir' hrun
  have hkept := run_kept env r.plan.steps ⟨saved, [], true⟩ hdir'
  rw [hrun] at hkept
  have hentries : p.entries = deeds.map (·.entry) := hc.entries
  have hlog : (r.logOf result p).entries = deeds.map (·.entry) := hentries
  have happart := apart_of_outside (isDir_eq_true.1 hdir).2 hroom.absent hout
  have hreplayed : ∀ names, (r.execute env saved).2.files.bytesAt? (r.root.settled ++ names) =
      replay r.root deeds t.bytesAt? (r.root.settled ++ names) := by
    intro names
    have hbefore : saved.files.bytesAt? (r.root.settled ++ names) = t.bytesAt? (r.root.settled ++ names) := by
      rw [bytesAt?, bytesAt?, hgrown.shapeAt?_eq hroom]
      rintro ⟨ns, hns⟩
      exact happart ns names hns
    have hbehind : (r.writeLog p.world.files (r.logOf result p)).bytesAt? (r.root.settled ++ names) =
        p.world.files.bytesAt? (r.root.settled ++ names) := by
      rw [bytesAt?, bytesAt?, shapeAt?_writeLog hroom.noSlash hroom.goesDown]
      intro heq
      exact happart [logName] names (by simpa using heq.symm)
    rw [hfiles, hbehind, ← replay_congr deeds hbefore]
    exact congrFun hc.bytes _
  have hlogDir : p.world.files.shapeAt? (r.store.directory.settled ++ [r.emergency.id, logName]) ≠ some .dir := by
    intro hd
    rcases hkept.newDirs _ hd with hold | ⟨k, -, ns, -, heq, -⟩
    · exact absurd (hold.symm.trans hvacant) (by simp)
    · exact happart [logName] ns (by simpa using heq)
  have hwritten := read_writeLog (r.logOf result p) hroom (hkept.leads hopen) hlogDir
  rw [← hfiles] at hwritten
  have hcompleted : (r.logOf result p).completed = true ↔ result = .ok () := by
    cases result <;> simp [logOf, Except.toOption]
  obtain ⟨hrestored, hdeleted⟩ := length_restored hc.honest
  refine ⟨r.logOf result p, deeds, hlog, hc.honest, ?_, ?_, ?_, ?_, ?_, ?_, hreplayed,
    fun _ _ _ => last_of_replayed hlog hc.honest hreplayed, hwritten, parseBytes_log⟩
  · rw [hlog, List.map_map]
    exact hc.inOrder
  · rw [hcompleted, hlog, List.map_map]
    exact hc.complete
  · rw [hcompleted]
    rcases hresult with ⟨report, hok, hreport, -⟩ | ⟨e, herr, hfail⟩
    · simp [hok, hreport]
    · simp [herr, hfail]
  · rcases hresult with ⟨report, hok, hreport, -⟩ | ⟨e, herr, hfail⟩
    · simp [hok, hreport, logOf]
    · simp [herr, hfail, logOf]
  · intro report hreport
    rcases hresult with ⟨report', -, hok, hid, hres, hdel⟩ | ⟨e, -, hfail⟩
    · obtain rfl := Except.ok.inj (hreport.symm.trans hok)
      refine ⟨hid, ?_, ?_⟩
      · rw [hlog, hres, hentries, hrestored]
      · rw [hlog, hdel, hentries, hdeleted]
    · cases hreport.symm.trans hfail
  · intro id reason hreason
    rcases hresult with ⟨report', -, hok, -⟩ | ⟨e, herr, hfail⟩
    · cases hreason.symm.trans hok
    · obtain ⟨rfl, rfl⟩ := SnapshotError.rollbackFailed.inj (Except.error.inj (hreason.symm.trans hfail))
      exact ⟨rfl, by rw [herr]; rfl⟩

/-- The log of a rollback tells what has happened, wherever the rollback ends once its emergency snapshot is there:
its entries are the first file steps of the plan, as far as they were carried out; the project's files are those before
with the entries applied in order; and it says how the rollback ended. The walk meets safe keys only, so that no copy of
the emergency snapshot lies outside the directory of copies; the store lies outside the project. The log is missing only
if its path is too long. -/
theorem executeRollback_told (hsafe : s.Safe w.files root) (hcut : s.directory.IsCut)
    (hdir : w.files.isDir root = true) (hid : s.Unused env w) (hout : ¬ root.settled <+: s.directory.settled)
    {plan : RollbackPlan} {result : Except SnapshotError RollbackReport}
    (h : s.executeRollback env w plan root false = (result, w'))
    (hpast : (∃ report, result = .ok report) ∨ ∃ id reason, result = .error (.rollbackFailed id reason)) :
    ∃ log deeds, s.Told env root plan w.files w'.files result log deeds := by
  have hnot : ∀ e, result = .error e → (∀ id reason, e ≠ .rollbackFailed id reason) → False := by
    rintro e rfl hne
    rcases hpast with ⟨report, hreport⟩ | ⟨id, reason, hreason⟩
    · cases hreport
    · exact hne id reason (Except.error.inj hreason)
  rw [executeRollback, if_neg (by simp)] at h
  simp only at h
  cases hload : s.load w.files plan.snapshot with
  | error e =>
    simp only [hload, Prod.mk.injEq] at h
    exact (hnot e h.1.symm fun id reason => load_error hload id reason).elim
  | ok target =>
    have hready : s.Ready env w root := ⟨isDir_of_load hload, hcut, hdir, hsafe, hid.hex, hid.fresh⟩
    simp only [hload] at h
    cases hc : s.capture env w root "emergency" s!"state before rollback to {target.id}"
        (plan.atRisk w.files root) with
    | mk res saved =>
      cases res with
      | error e =>
        simp only [hc, Prod.mk.injEq] at h
        exact (hnot e h.1.symm (capture_error hready.poised hc).2).elim
      | ok E =>
        simp only [hc] at h
        obtain ⟨-, -, -, hshelved, -⟩ := capture_ok hready.poised hc
        have hvacant := vacant_of_capture hready hc (m := logName) (by decide) (by decide)
        have hroom := (hready.scene E.timestamp).room
        have hgrown := hshelved.grown
        have hopen := hshelved.manifest.2
        rw [← hshelved.id_eq] at hroom hgrown hopen
        split at h
        · have htold := execute_told ⟨s, root, plan, target, E, plan.atRisk w.files root⟩ env hdir hroom hgrown hopen
            hvacant hout
          rwa [h] at htold
        · exact (hnot _ (Prod.mk.inj h).1.symm fun id reason => by simp).elim

/-! ## A run that stops half way -/

/-- A list of paths made by hand: a file that is gone, one that is not there, one that is, and one outside. -/
def partly : SnapshotDiff := ⟨taken.id, ["a.js"], ["gone.js", "b.js", "../b.js"], [], 0, true⟩

theorem executeRollback_partly : ∃ w', shelf.executeRollback again ⟨late, 0, 0⟩ (.ofDiff taken partly) ["work"] false =
    (.error (.rollbackFailed "1700000000001-7c9e6679" "Unsafe path in snapshot: ../b.js"), w') := by
  have hresult : (shelf.executeRollback again ⟨late, 0, 0⟩ (.ofDiff taken partly) ["work"] false).1 =
      .error (.rollbackFailed "1700000000001-7c9e6679" "Unsafe path in snapshot: ../b.js") := by
    decide +kernel
  revert hresult
  rcases shelf.executeRollback again ⟨late, 0, 0⟩ (.ofDiff taken partly) ["work"] false with ⟨result, w'⟩
  rintro rfl
  exact ⟨w', rfl⟩

/-- Two deletions are logged before the third one is refused, and nothing is restored. -/
theorem executeRollback_told_partly :
    ∃ id reason w' log deeds, shelf.executeRollback again ⟨late, 0, 0⟩ (.ofDiff taken partly) ["work"] false =
        (.error (.rollbackFailed id reason), w') ∧
      shelf.Told again ["work"] (.ofDiff taken partly) late w'.files (.error (.rollbackFailed id reason)) log deeds := by
  obtain ⟨w', hrun⟩ := executeRollback_partly
  have hgrounds : shelf.Grounds late ["work"] := grounds_work (by decide) (by decide) (by decide)
  obtain ⟨log, deeds, htold⟩ := executeRollback_told hgrounds.plainWalk.safe hgrounds.cut hgrounds.rootDir unused_again
    (by decide) hrun (.inr ⟨_, _, rfl⟩)
  exact ⟨_, _, w', log, deeds, hrun, htold⟩

end SnapshotStore

end TreeRepair
