import TreeRepair.Proofs.Snapshot.Restoration
import TreeRepair.Proofs.Workflow.Fix
import TreeRepair.Proofs.Workflow.Sessions

/-! Runs that only look: dry runs, the check of the ledger and the status. They may store parsed units and leave all
else as it was, in every session and however they end. If all checks pass, a dry run also says what the real run
will do: the same plan, the same candidates. -/

set_option autoImplicit false

namespace TreeRepair

open Location Listing

theorem SnapshotStore.executeRollback_plan {s : SnapshotStore} {env : Surroundings} {w w' : World} {plan : RollbackPlan}
    {root : Location} {dryRun : Bool} {report : RollbackReport}
    (h : s.executeRollback env w plan root dryRun = (.ok report, w')) : report.plan = plan := by
  cases dryRun with
  | true =>
    rw [executeRollback, if_pos rfl] at h
    rw [← Except.ok.inj (Prod.mk.inj h).1]
    rfl
  | false =>
    obtain ⟨target, description, emergency, saved, -, -, -, hrun⟩ := executeRollback_eq_ok h
    unfold Rollback.execute at hrun
    dsimp only at hrun
    split at hrun
    · cases hrun
    · rw [← Except.ok.inj (Prod.mk.inj hrun).1]

/-! ## Checks -/

namespace Preflight

variable (env : Surroundings) (config : Config) (store : SnapshotStore) (facts : HostFacts) (w : World)
  (root : Location)

theorem checkChanges_dry : (checkChanges config facts w true).2 = w := by
  unfold checkChanges
  split <;> rfl

theorem checkDisk_dry : (checkDisk config store facts w root true).2 = w := by
  unfold checkDisk
  split
  · rfl
  · simp only [if_true]
    split <;> rfl

theorem checkWrite_dry : (checkWrite env w root true).2 = w := by
  unfold checkWrite
  simp only [if_true]
  split <;> rfl

theorem run_dry : (run env config store facts w root true).2 = w := by
  rw [run_world, checkWrite_dry, checkDisk_dry, checkChanges_dry]

theorem not_isShort_of_passed {dryRun : Bool} (h : (checkDisk config store facts w root dryRun).1.passed = true) :
    ¬ IsShort config store facts w.files root := by
  rintro ⟨free, hfree, hle, hne⟩
  unfold checkDisk at h
  simp only [hfree] at h
  rw [if_neg (by simpa using ⟨hle, hne⟩)] at h
  cases dryRun <;> simp [CheckResult.passed] at h

theorem run_files_of_passed (hnew : w.files.shapeAt? (root.join (probeName (w.freshId env))).settled = none) {dryRun : Bool}
    (h : ∀ c ∈ (run env config store facts w root dryRun).1.checks, c.passed = true) :
    (run env config store facts w root false).2.files = w.files := by
  have hroom := not_isShort_of_passed config store facts _ root (h _ (checkDisk_mem env config store facts w root dryRun))
  rw [(checkChanges_world config facts w dryRun).1] at hroom
  exact ((run_files env config store facts w root hnew).resolve_right fun hshort => hroom hshort.1).2

end Preflight

namespace Site

open Registry (Bench Housed Perused)

variable {s : Site} {env : Surroundings} {facts : HostFacts} {home : Home} {b b' : Bench}

/-! ## What is left -/

/-- Calls that only look. -/
def Call.OnlyLooks : Call → Prop
  | .scan _ dryRun _ | .fix _ dryRun _ | .rollback _ _ dryRun _ => dryRun = true
  | .verify | .status => True

/-- A bench behind a run that only looks. Of the files only those in the cache may have changed; the registry with its
ledger and its counters, the snapshots and the stashes are those from before. -/
structure Untouched (home : Home) (store : SnapshotStore) (b b' : Bench) : Prop where
  files : ∀ q, ¬ home.cache.settled <+: q → b'.world.files.shapeAt? q = b.world.files.shapeAt? q
  reads : ∀ l c, ¬ home.cache.settled <+: settled l → (b'.world.files.read l = .ok c ↔ b.world.files.read l = .ok c)
  stored : ∀ q, store.directory.settled <+: q → b'.world.files.shapeAt? q = b.world.files.shapeAt? q
  list : store.list b'.world.files = store.list b.world.files
  loads : ∀ id S, store.load b'.world.files id = .ok S ↔ store.load b.world.files id = .ok S
  ledger : ∀ q, home.ledger.settled <+: q → b'.world.files.shapeAt? q = b.world.files.shapeAt? q
  registry : b'.registry = b.registry
  stashes : b'.world.stashes = b.world.stashes

theorem Untouched.of_perused {store : SnapshotStore} (h : Perused home b b') (hdir : store.directory = home.backups) :
    Untouched home store b b' where
  files := h.files.same
  reads _ _ hl := h.files.read_eq_ok hl
  stored q hq := h.files.same q (home.not_cache_of_backups (hdir ▸ hq))
  list := SnapshotStore.list_of_kept h.files (home.not_cache_of_backups (hdir ▸ List.prefix_refl _))
    (hdir ▸ home.not_backups_of_cache)
  loads _ _ := SnapshotStore.load_of_kept h.files (home.not_cache_of_backups (hdir ▸ List.prefix_refl _))
    (hdir ▸ home.not_backups_of_cache)
  ledger q hq := h.files.same q (home.not_cache_of_ledger hq)
  registry := h.registry
  stashes := h.stashes

/-- A reading of the clock touches nothing. -/
theorem Untouched.tick {store : SnapshotStore} (h : Untouched home store b b') : Untouched home store b (tick b') :=
  ⟨h.files, h.reads, h.stored, h.list, h.loads, h.ledger, h.registry, h.stashes⟩

theorem preflight_dry : (s.preflight env facts b true).2 = b := by
  rw [preflight_eq, Preflight.run_dry]

theorem scan_dry (force : Bool) : (s.scan env facts b true force).2 = tick (s.analyze env b).2 := by
  have hchecked : (s.preflight env facts b true).2 = b := preflight_dry
  unfold scan
  generalize s.preflight env facts b true = checked at hchecked
  obtain ⟨report, checked⟩ := checked
  subst hchecked
  rfl

theorem fix_dry (s : Site) (env : Surroundings) (facts : HostFacts) (b : Bench) (force : Bool) : ∃ report, s.fix env facts b true force =
      (.ok report, tick (s.candidates env (s.analyze env b).2).2) ∧
    report.before = (s.analyze env b).1.summary ∧ report.candidates = (s.candidates env (s.analyze env b).2).1 := by
  have hchecked : (s.preflight env facts b true).2 = b := preflight_dry
  unfold fix
  generalize s.preflight env facts b true = checked at hchecked
  obtain ⟨report, checked⟩ := checked
  subst hchecked
  exact ⟨_, rfl, rfl, rfl⟩

theorem rollback_dry (id : Option String) (force : Bool) : s.rollback env facts b id true force =
    match s.rollbackTarget b.world.files id with
    | .error e => (.error e, b)
    | .ok target =>
      let diff := s.store.diff env.checksum b.world.files target s.root none
      (.ok ⟨b.world.now env, (s.preflight env facts b true).1, diff, SnapshotStore.dryReport (.ofDiff target diff)⟩,
        tick b) := by
  have hchecked : (s.preflight env facts b true).2 = b := preflight_dry
  unfold rollback
  generalize s.preflight env facts b true = checked at hchecked
  obtain ⟨report, checked⟩ := checked
  subst hchecked
  rfl

/-- Calls that only look leave all but the cache as it was. -/
theorem Call.untouched {c : Call} (h : c.OnlyLooks) (hb : Housed home b) (hdir : s.store.directory = home.backups) :
    Untouched home s.store b (c.behind s env b) := by
  have hsame : Untouched home s.store b b := Untouched.of_perused (.refl hb) hdir
  cases c with
  | scan facts dryRun force =>
    obtain rfl : dryRun = true := h
    rw [Call.behind, scan_dry]
    exact (Untouched.of_perused (analyze_perused hb) hdir).tick
  | fix facts dryRun force =>
    obtain rfl : dryRun = true := h
    obtain ⟨report, hrun, -⟩ := fix_dry s env facts b force
    rw [Call.behind, hrun]
    have hanalyzed : Perused home b (s.analyze env b).2 := analyze_perused hb
    exact (Untouched.of_perused (hanalyzed.trans (candidates_perused hanalyzed.housed)) hdir).tick
  | verify => exact (Untouched.of_perused (candidates_perused hb) hdir).tick
  | rollback facts id dryRun force =>
    obtain rfl : dryRun = true := h
    rw [Call.behind, rollback_dry]
    split
    · exact hsame
    · exact hsame.tick
  | status => exact hsame.tick

/-! ## What is foretold -/

/-- Benches with the same rules, the same cache and the same files. -/
structure Alike (b b' : Bench) : Prop where
  registry : b'.registry = b.registry
  host : b'.host = b.host
  files : b'.world.files = b.world.files

theorem Alike.of_files {w : World} (h : w.files = b.world.files) : Alike b { b with world := w } := ⟨rfl, rfl, h⟩

theorem Alike.analyze (h : Alike b b') (s : Site) (env : Surroundings) :
    (s.analyze env b').1 = (s.analyze env b).1 ∧ Alike (s.analyze env b).2 (s.analyze env b').2 := by
  simp only [Site.analyze, h.host, h.files]
  exact ⟨trivial, h.registry, rfl, rfl⟩

theorem Alike.candidatesOf (h : Alike b b') (s : Site) (env : Surroundings) (file : TreeFile) :
    (s.candidatesOf env b' file).1 = (s.candidatesOf env b file).1 ∧
      Alike (s.candidatesOf env b file).2 (s.candidatesOf env b' file).2 := by
  simp only [Site.candidatesOf, h.host, h.files, h.registry]
  split
  · exact ⟨rfl, h⟩
  · exact ⟨rfl, rfl, rfl, rfl⟩

theorem Alike.candidatesAmong (h : Alike b b') (files : List TreeFile) :
    (s.candidatesAmong env files b').1 = (s.candidatesAmong env files b).1 := by
  induction files generalizing b b' with
  | nil => rfl
  | cons file rest ih =>
    obtain ⟨hfirst, hnext⟩ := h.candidatesOf s env file
    simp only [Site.candidatesAmong]
    rw [hfirst, ih hnext]

/-- Alike benches have the same candidates. -/
theorem Alike.candidates (h : Alike b b') : (s.candidates env b').1 = (s.candidates env b).1 := by
  rw [Site.candidates, Site.candidates, h.files]
  exact h.candidatesAmong _

theorem preflight_alike (hnew : b.world.files.shapeAt? (s.root.join (Preflight.probeName (b.world.freshId env))).settled = none)
    {dryRun : Bool} (h : ∀ c ∈ (s.preflight env facts b dryRun).1.checks, c.passed = true) :
    Alike b (s.preflight env facts b false).2 := by
  rw [preflight_eq] at h ⊢
  exact .of_files (Preflight.run_files_of_passed env s.config s.store facts b.world s.root hnew h)

/-- What a dry rollback says of the one that it stands for: the difference and the plan, or why there is none. -/
structure Foretells (dry real : Except WorkflowError RollbackSummary) : Prop where
  plan : ∀ r, real = .ok r → ∃ d, dry = .ok d ∧ d.diff = r.diff ∧ d.report.plan = r.report.plan
  error : ∀ e, dry = .error e → real = .error e ∨ ∃ checks, real = .error (.blocked checks)

/-- A rollback that comes to a report has found its target behind its checks, and went the way that it reports. -/
theorem rollback_report {id : Option String} {force : Bool} {r : RollbackSummary}
    (h : (s.rollback env facts b id false force).1 = .ok r) :
    ∃ target, s.rollbackTarget (s.preflight env facts b false).2.world.files id = .ok target ∧
      r.diff = s.store.diff env.checksum (s.preflight env facts b false).2.world.files target s.root none ∧
      r.report.plan = .ofDiff target r.diff := by
  unfold rollback at h
  generalize s.preflight env facts b false = checked at h ⊢
  obtain ⟨report, checked⟩ := checked
  dsimp only at h ⊢
  split at h
  · cases h
  · split at h
    · cases h
    · rename_i target htarget
      split at h
      · cases h
      · rename_i hrun
        rw [← Except.ok.inj h]
        exact ⟨target, htarget, rfl, SnapshotStore.executeRollback_plan hrun⟩

/-- A rollback without a target is blocked or says so. -/
theorem rollback_error {id : Option String} {e : WorkflowError} (force : Bool)
    (h : s.rollbackTarget (s.preflight env facts b false).2.world.files id = .error e) :
    (s.rollback env facts b id false force).1 = .error e ∨
      ∃ checks, (s.rollback env facts b id false force).1 = .error (.blocked checks) := by
  unfold rollback
  generalize s.preflight env facts b false = checked at h ⊢
  obtain ⟨report, checked⟩ := checked
  dsimp only at h ⊢
  split
  · exact .inr ⟨_, rfl⟩
  · rw [h]
    exact .inl rfl

theorem rollback_foretold (h : Alike b (s.preflight env facts b false).2) (id : Option String) (force force' : Bool) :
    Foretells (s.rollback env facts b id true force').1 (s.rollback env facts b id false force).1 where
  plan r hr := by
    obtain ⟨target, htarget, hdiff, hplan⟩ := rollback_report hr
    rw [h.files] at htarget hdiff
    rw [rollback_dry, htarget, hplan, hdiff]
    exact ⟨_, rfl, rfl, rfl⟩
  error e he := by
    rw [rollback_dry] at he
    cases htarget : s.rollbackTarget b.world.files id with
    | error e' =>
      rw [htarget] at he
      rw [← h.files] at htarget
      obtain rfl := Except.error.inj he
      exact rollback_error force htarget
    | ok target =>
      rw [htarget] at he
      cases he

theorem fix_report {force : Bool} {report : FixReport} (h : (s.fix env facts b false force).1 = .ok report) :
    report.before = (s.analyze env (s.preflight env facts b false).2).1.summary ∧
      report.candidates = (s.candidates env (s.analyze env (s.preflight env facts b false).2).2).1 := by
  unfold fix at h
  generalize s.preflight env facts b false = checked at h ⊢
  obtain ⟨preflight, checked⟩ := checked
  dsimp only at h ⊢
  split at h
  · cases h
  · simp only [Bool.false_eq_true, if_false] at h
    unfold fixCandidates at h
    split at h
    · cases h
    · split at h
      · cases h
      · rw [← Except.ok.inj h]
        exact ⟨rfl, rfl⟩

theorem fix_foretold (h : Alike b (s.preflight env facts b false).2) (force force' : Bool) :
    ∃ dry, (s.fix env facts b true force').1 = .ok dry ∧ ∀ report, (s.fix env facts b false force).1 = .ok report →
      dry.before = report.before ∧ dry.candidates = report.candidates := by
  obtain ⟨dry, hrun, hbefore, hcandidates⟩ := fix_dry s env facts b force'
  refine ⟨dry, by rw [hrun], fun report hreport => ?_⟩
  obtain ⟨hbefore', hcandidates'⟩ := fix_report hreport
  obtain ⟨hanalysis, hanalyzed⟩ := h.analyze s env
  rw [hbefore, hbefore', hcandidates, hcandidates', hanalysis, hanalyzed.candidates]
  exact ⟨rfl, rfl⟩

/-! ## Dry runs -/

/-- In every session, calls that only look leave all but the cache as it was, however they end; and if all checks pass,
a dry rollback has the plan, and a dry repair the candidates, of the real run from the same bench. -/
theorem Opened.dryRuns_look_ahead {w w' : World} {here : Location} {root home : String} {o : Opened} (hcut : here.IsCut)
    (hopen : openSite w here root home = (.ok o, w')) (hb : o.Reached env b) :
    (∀ c : Call, c.OnlyLooks → Untouched ⟨here.join home⟩ o.site.store b (c.behind o.site env b)) ∧
    ∀ facts, b.world.files.shapeAt? (o.site.root.join (Preflight.probeName (b.world.freshId env))).settled = none →
      ∀ dryRun, (∀ c ∈ (o.site.preflight env facts b dryRun).1.checks, c.passed = true) → ∀ force force',
        (∀ id, Foretells (o.site.rollback env facts b id true force').1 (o.site.rollback env facts b id false force).1) ∧
        ∃ dry, (o.site.fix env facts b true force').1 = .ok dry ∧
          ∀ report, (o.site.fix env facts b false force).1 = .ok report →
            dry.before = report.before ∧ dry.candidates = report.candidates := by
  obtain ⟨hhoused, hdir⟩ := openSite_housed hcut hopen
  refine ⟨fun c hc => c.untouched hc (hb.housed hhoused) hdir, fun facts hnew dryRun hpassed force force' => ?_⟩
  have halike := preflight_alike hnew hpassed
  exact ⟨fun id => rollback_foretold halike id force force', fix_foretold halike force force'⟩

/-- The session behind a scan, with another text in the project's one file. -/
def revisited (o : Opened) : Bench :=
  let b := (Call.scan unknown false false).behind o.site refusing o.bench
  { b with world := b.world.withFiles ((b.world.files.write ["work", "a.js"] "Now do it".toUTF8).toOption.getD .empty) }

/-- Whether the checks pass on a bench, and no file has the name of the one that they write. -/
def isClear (o : Opened) (b : Bench) : Bool :=
  (o.site.preflight refusing unknown b true).1.checks.all (·.passed) &&
    (b.world.files.shapeAt? (o.site.root.join (Preflight.probeName (b.world.freshId refusing))).settled).isNone

theorem of_isClear {o : Opened} (h : isClear o b = true) :
    b.world.files.shapeAt? (o.site.root.join (Preflight.probeName (b.world.freshId refusing))).settled = none ∧
      ∀ c ∈ (o.site.preflight refusing unknown b true).1.checks, c.passed = true := by
  simpa [isClear, and_comm] using h

/-- What is looked at in a session: a repair at its beginning, and a rollback once the file has changed. -/
structure Glimpse where
  clear : Bool
  candidates : Option (List String)
  restores : Option (List String)
  deriving DecidableEq

def Opened.glimpse (o : Opened) : Glimpse :=
  let b := revisited o
  { clear := isClear o o.bench && isClear o b
    candidates := (o.site.fix refusing unknown o.bench false false).1.toOption.map fun r => r.candidates.map (·.file)
    restores := (o.site.rollback refusing unknown b none false false).1.toOption.map (·.report.plan.restores) }

theorem glimpse_hut : (openSite ⟨remark, 0, 0⟩ [] "work" "home").1.toOption.map Opened.glimpse =
    some ⟨true, some ["a.js"], some ["a.js"]⟩ := by decide +kernel

theorem dryRuns_look_ahead_hut : ∃ o w', openSite ⟨remark, 0, 0⟩ [] "work" "home" = (.ok o, w') ∧
    (∃ dry real, (o.site.fix refusing unknown o.bench true false).1 = .ok dry ∧
      (o.site.fix refusing unknown o.bench false false).1 = .ok real ∧ dry.candidates = real.candidates ∧
      real.candidates.map (·.file) = ["a.js"]) ∧
    Untouched hut o.site.store (revisited o)
      ((Call.rollback unknown none true false).behind o.site refusing (revisited o)) ∧
    ∃ dry real, (o.site.rollback refusing unknown (revisited o) none true false).1 = .ok dry ∧
      (o.site.rollback refusing unknown (revisited o) none false false).1 = .ok real ∧
      dry.report.plan = real.report.plan ∧ real.report.plan.restores = ["a.js"] := by
  have hsession := glimpse_hut
  cases hopen : openSite ⟨remark, 0, 0⟩ [] "work" "home" with
  | mk result w' =>
    rw [hopen] at hsession
    cases result with
    | error e => cases hsession
    | ok o =>
      have hglimpse : o.glimpse = ⟨true, some ["a.js"], some ["a.js"]⟩ := Option.some.inj hsession
      simp only [Opened.glimpse, Glimpse.mk.injEq, Bool.and_eq_true, Option.map_eq_some_iff, toOption_eq_some] at hglimpse
      obtain ⟨⟨hstart, hlater⟩, ⟨real, hreal, hfiles⟩, r, hr, hrestores⟩ := hglimpse
      have hhere : IsCut [] := by decide
      have hfresh : o.Reached refusing o.bench := .opened
      have hreached : o.Reached refusing (revisited o) :=
        .elsewhere (.behind .opened (.scan unknown false false)) _
      obtain ⟨-, hforetold⟩ := Opened.dryRuns_look_ahead hhere hopen hfresh
      obtain ⟨huntouched, hforetold'⟩ := Opened.dryRuns_look_ahead hhere hopen hreached
      obtain ⟨-, dry, hdry, hsame⟩ := hforetold unknown (of_isClear hstart).1 true (of_isClear hstart).2 false false
      obtain ⟨hplans, -⟩ := hforetold' unknown (of_isClear hlater).1 true (of_isClear hlater).2 false false
      obtain ⟨d, hd, -, hplan⟩ := (hplans none).plan r hr
      exact ⟨o, w', rfl, ⟨dry, real, hdry, hreal, (hsame real hreal).2, hfiles⟩, huntouched _ rfl, d, r, hd, hr, hplan,
        hrestores⟩

end Site

end TreeRepair
