import TreeRepair.Proofs.Snapshot.Emergency
import TreeRepair.Proofs.Snapshot.Eviction
import TreeRepair.Workflow.Run

/-! Runs that end before they have changed anything: blocked, or without the snapshot to go back to. Only the
remedy for too little disk space touches the store before that. -/

set_option autoImplicit false

namespace TreeRepair

open Location Listing

namespace Preflight

variable (env : Surroundings) (config : Config) (store : SnapshotStore) (facts : HostFacts) (w : World)
  (root : Location)

/-- The free space is known and not more than two snapshots of the tree are estimated to take. -/
def IsShort (config : Config) (store : SnapshotStore) (facts : HostFacts) (files : Listing) (root : Location) : Prop :=
  ∃ free, facts.freeDiskBytes = some free ∧
    free ≤ clampBytes (estimateBytes store files root config.diskSampleFiles * 2) ∧
    clampBytes (estimateBytes store files root config.diskSampleFiles * 2) ≠ 0

theorem checkChanges_world (dryRun : Bool) : (checkChanges config facts w dryRun).2.files = w.files ∧
    (checkChanges config facts w dryRun).2.draws = w.draws := by
  unfold checkChanges
  split
  · exact ⟨rfl, rfl⟩
  · exact ⟨rfl, rfl⟩
  · split
    · exact ⟨rfl, rfl⟩
    · split <;> exact ⟨rfl, rfl⟩

/-- The check of disk space leaves the files, or evicts all snapshots but the newest where space is short. -/
theorem checkDisk_world :
    ¬ IsShort config store facts w.files root ∧ (checkDisk config store facts w root false).2 = w ∨
      IsShort config store facts w.files root ∧
        (checkDisk config store facts w root false).2 = w.withFiles (store.evict w.files 1).2 := by
  unfold checkDisk IsShort
  cases hfree : facts.freeDiskBytes with
  | none => exact .inl ⟨(fun ⟨_, h, _⟩ => nomatch h), rfl⟩
  | some free =>
    simp only [Option.some.injEq, exists_eq_left']
    split
    · rename_i hroom
      simp only [Bool.or_eq_true, decide_eq_true_eq, beq_iff_eq] at hroom
      refine .inl ⟨fun ⟨hle, hne⟩ => ?_, rfl⟩
      rcases hroom with hroom | hroom
      · omega
      · exact hne hroom
    · rename_i hshort
      simp only [Bool.or_eq_true, decide_eq_true_eq, beq_iff_eq, not_or, Nat.not_lt] at hshort
      refine .inr ⟨hshort, ?_⟩
      rw [if_neg Bool.false_ne_true, evictOld]
      cases store.evict w.files 1 with
      | mk res left => cases res <;> rfl

theorem checkWrite_files (hnew : w.files.shapeAt? (root.join (probeName (w.freshId env))).settled = none) :
    (checkWrite env w root false).2.files = w.files := by
  unfold checkWrite
  simp only [Bool.false_eq_true, if_false]
  generalize root.join (probeName (w.freshId env)) = place at hnew
  cases hw : w.files.write place ByteArray.empty with
  | error fault => rfl
  | ok written =>
    obtain ⟨hlead, -, -, rfl⟩ := write_eq_ok hw
    have hne : place.settled ≠ [] := by
      intro hnil
      rw [hnil] at hnew
      cases hnew
    obtain ⟨above, n, hs, hdir⟩ := hlead.above hne
    have hshape := shapeAt?_write hw
    have hlead' : (w.files.putAt place.settled (.file ByteArray.empty)).Leads place := by
      refine hlead.mono fun q hq => ?_
      rw [hshape, if_neg, hq]
      rintro rfl
      simp [hnew] at hq
    have hremoved := removeFile_of_leads hlead' ((hshape _).trans (if_pos rfl))
    simp only [hremoved, Except.toOption, Option.getD_some]
    change ((w.files.putAt place.settled _).removeAt place.settled) = w.files
    rw [hs] at hnew ⊢
    exact removeAt_putAt _ hdir hnew

theorem run_world (dryRun : Bool) : (run env config store facts w root dryRun).2 =
    (checkWrite env (checkDisk config store facts (checkChanges config facts w dryRun).2 root dryRun).2 root dryRun).2 := by
  unfold run
  cases checkChanges config facts w dryRun with
  | mk changes afterChanges =>
    cases hdisk : checkDisk config store facts afterChanges root dryRun with
    | mk disk afterDisk => simp only [hdisk]

theorem checkDisk_mem (dryRun : Bool) :
    (checkDisk config store facts (checkChanges config facts w dryRun).2 root dryRun).1 ∈
      (run env config store facts w root dryRun).1.checks := by
  unfold run
  cases checkChanges config facts w dryRun with
  | mk changes afterChanges => simp

/-- What the checks do to the files: nothing, or what the remedy for too little space does. -/
theorem run_files (hnew : w.files.shapeAt? (root.join (probeName (w.freshId env))).settled = none) :
    ¬ IsShort config store facts w.files root ∧ (run env config store facts w root false).2.files = w.files ∨
      IsShort config store facts w.files root ∧
        (run env config store facts w root false).2.files = (store.evict w.files 1).2 := by
  obtain ⟨hfiles, hdraws⟩ := checkChanges_world config facts w false
  rw [run_world]
  generalize (checkChanges config facts w false).2 = c at hfiles hdraws
  have hid : c.freshId env = w.freshId env := congrArg env.freshId hdraws
  rcases checkDisk_world config store facts c root with
    ⟨hroom, hsame⟩ | ⟨hlow, hevicted⟩
  · rw [hfiles] at hroom
    rw [hsame]
    refine .inl ⟨hroom, (checkWrite_files env c root ?_).trans hfiles⟩
    rw [hid, hfiles]
    exact hnew
  · rw [hfiles] at hlow hevicted
    rw [hevicted]
    refine .inr ⟨hlow, checkWrite_files env _ root ?_⟩
    have hid' : (c.withFiles (store.evict w.files 1).2).freshId env = w.freshId env := hid
    rw [hid']
    exact SnapshotStore.shapeAt?_evict_none hnew

end Preflight

/-! ## Refusals -/

/-- The ends of a run that has changed nothing yet: blocked, or without the snapshot to go back to. -/
def WorkflowError.Refuses : WorkflowError → Prop
  | .blocked _ => True
  | .snapshot (.notFound _) => True
  | .noSnapshot => True
  | _ => False

namespace SnapshotStore

variable {s : SnapshotStore} {env : Surroundings} {w : World} {root : Location}

end SnapshotStore

namespace Site

open Registry (Bench)

variable {s : Site} {env : Surroundings} {facts : HostFacts} {b b' : Bench} {force : Bool} {id : Option String}
  {e : WorkflowError}

/-- The free space is known and not more than two snapshots of the project are estimated to take. -/
def IsShort (s : Site) (facts : HostFacts) (files : Listing) : Prop :=
  Preflight.IsShort s.config s.store facts files s.root

theorem preflight_eq (dryRun : Bool) : s.preflight env facts b dryRun =
    ((Preflight.run env s.config s.store facts b.world s.root dryRun).1,
      { b with world := (Preflight.run env s.config s.store facts b.world s.root dryRun).2 }) := by
  unfold preflight
  cases Preflight.run env s.config s.store facts b.world s.root dryRun with
  | mk report w => rfl

theorem preflight_world :
    (s.preflight env facts b false).2.world = (Preflight.run env s.config s.store facts b.world s.root false).2 := by
  rw [preflight_eq]

/-- The list of snapshots is the one from before, or old snapshots have made room where space is short. -/
def Spared (s : Site) (facts : HostFacts) (t x : Listing) : Prop :=
  s.store.list x = s.store.list t ∨
    s.IsShort facts t ∧ 1 < (s.store.list t).length ∧
      (s.store.Tidy t → s.store.list x = (s.store.list t).drop ((s.store.list t).length - 1))

end Site

end TreeRepair
