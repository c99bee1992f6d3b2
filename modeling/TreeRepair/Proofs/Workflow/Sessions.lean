import TreeRepair.Proofs.Workflow.Preparation
import TreeRepair.Proofs.Workflow.Repairs

/-! Sessions. Whatever is called in one, and whatever happens to the world in between, its cache, its ledger and its
snapshots stay in the home that it was opened with. -/

set_option autoImplicit false

namespace TreeRepair

open Location Listing

/-! ## What is opened -/

theorem ParseCache.openAt_eq_ok {files made : Listing} {directory : Location} {c : ParseCache}
    (h : openAt files directory = .ok (c, made)) : c = fresh (some directory) := by
  unfold openAt at h
  split at h
  · cases h
  · exact (Prod.mk.inj (Except.ok.inj h)).1.symm

theorem ProofLedger.open?_file {t : Listing} {file : Location} {l : ProofLedger} (h : open? t file = .ok l) :
    l.file = some file := by
  unfold open? at h
  split at h
  · split at h
    · cases h
    · rename_i bytes _
      cases hread : readRecords bytes with
      | error e => simp [hread, Except.map] at h
      | ok records =>
        rw [hread] at h
        rw [← Except.ok.inj h]
  · rw [← Except.ok.inj h]

namespace Site

open Registry (Bench Housed)

variable {s : Site} {env : Surroundings} {facts : HostFacts} {home : Home} {b : Bench}

/-! ## Sessions -/

/-- What can be called in a session. -/
inductive Call where
  | scan (facts : HostFacts) (dryRun force : Bool)
  | fix (facts : HostFacts) (dryRun force : Bool)
  | verify
  | rollback (facts : HostFacts) (id : Option String) (dryRun force : Bool)
  | status

namespace Call

/-- The bench behind a call, however it ends. -/
def behind (s : Site) (env : Surroundings) : Call → Bench → Bench
  | .scan facts dryRun force, b => (s.scan env facts b dryRun force).2
  | .fix facts dryRun force, b => (s.fix env facts b dryRun force).2
  | .verify, b => (s.verify env b).2
  | .rollback facts id dryRun force, b => (s.rollback env facts b id dryRun force).2
  | .status, b => (s.status env b).2

end Call

/-- The benches of an opened session: any calls, with any changes of the world between them. -/
inductive Opened.Reached (env : Surroundings) (o : Opened) : Bench → Prop
  | opened : o.Reached env o.bench
  | behind {b : Bench} : o.Reached env b → ∀ c : Call, o.Reached env (c.behind o.site env b)
  | elsewhere {b : Bench} : o.Reached env b → ∀ w : World, o.Reached env { b with world := w }

/-! ## Stages of calls -/

/-- A property of benches that every stage of a call keeps, where the files that are fixed have keys of the kind that
candidates have. -/
structure Stable (s : Site) (env : Surroundings) (I : Bench → Prop) (K : String → Prop) : Prop where
  preflight {b : Bench} : I b → ∀ facts dryRun, I (s.preflight env facts b dryRun).2
  create {b : Bench} : I b → ∀ tag description,
    I { b with world := (s.store.create env b.world s.root tag description).2 }
  analyze {b : Bench} : I b → I (s.analyze env b).2
  candidates {b : Bench} : I b → I (s.candidates env b).2
  keys {b : Bench} : I b → ∀ key ∈ keysOf (s.candidates env b).1, K key
  fixFile {f : Fixed} {key : String} : K key → I f.bench → I (s.fixFile env f key).2.bench
  rollback {b : Bench} {id : Option String} {target : Snapshot} : I b → s.rollbackTarget b.world.files id = .ok target →
    ∀ dryRun, I { b with world := (s.store.executeRollback env b.world
      (.ofDiff target (s.store.diff env.checksum b.world.files target s.root none)) s.root dryRun).2 }
  tick {b : Bench} : I b → I (tick b)

namespace Stable

variable {I : Bench → Prop} {K : String → Prop} (h : s.Stable env I K)

include h

theorem scanSnapshot (hb : I b) (wanted : Bool) : I (s.scanSnapshot env b wanted).2 := by
  have hcreated := h.create hb "scan" "state at scan"
  unfold Site.scanSnapshot
  split
  · split
    · rename_i hc
      rwa [hc] at hcreated
    · rename_i hc
      rwa [hc] at hcreated
  · exact hb

theorem scan (hb : I b) (dryRun force : Bool) : I (s.scan env facts b dryRun force).2 := by
  have hchecked : I (s.preflight env facts b dryRun).2 := h.preflight hb facts dryRun
  unfold Site.scan
  generalize s.preflight env facts b dryRun = checked at hchecked
  obtain ⟨report, checked⟩ := checked
  have hsaved : I (s.scanSnapshot env checked (!dryRun && (!report.isBlocked || force))).2 := h.scanSnapshot hchecked _
  dsimp only at hsaved ⊢
  split
  · rename_i hsnapshot
    rwa [hsnapshot] at hsaved
  · rename_i hsnapshot
    rw [hsnapshot] at hsaved
    exact h.tick (h.analyze hsaved)

theorem fixAll {keys : List String} (hkeys : ∀ key ∈ keys, K key) {f : Fixed} (hb : I f.bench) :
    I (s.fixAll env keys f).2.bench := by
  induction keys generalizing f with
  | nil => exact hb
  | cons key rest ih =>
    have hfirst : I (s.fixFile env f key).2.bench := h.fixFile (hkeys key (List.mem_cons_self ..)) hb
    rw [Site.fixAll]
    split
    · rename_i hstep
      rwa [hstep] at hfirst
    · rename_i hstep
      rw [hstep] at hfirst
      exact ih (fun k hk => hkeys k (List.mem_cons_of_mem key hk)) hfirst

theorem fixCandidates (hb : I b) (report : PreflightReport) (before : Analysis.Summary) {candidates : List Candidate}
    (hkeys : ∀ key ∈ keysOf candidates, K key) : I (s.fixCandidates env report before candidates b).2 := by
  have hcreated := h.create hb "pre-fix" "state before fix"
  unfold Site.fixCandidates
  split
  · rename_i hc
    rwa [hc] at hcreated
  · rename_i snapshot w hc
    rw [hc] at hcreated
    have hall : I (s.fixAll env (keysOf candidates) ⟨[], [], { b with world := w }⟩).2.bench := h.fixAll hkeys hcreated
    rw [keysOf] at hall
    split
    · rename_i hrun
      rwa [hrun] at hall
    · rename_i hrun
      rw [hrun] at hall
      exact h.tick (h.analyze hall)

theorem fix (hb : I b) (dryRun force : Bool) : I (s.fix env facts b dryRun force).2 := by
  have hchecked : I (s.preflight env facts b dryRun).2 := h.preflight hb facts dryRun
  unfold Site.fix
  generalize s.preflight env facts b dryRun = checked at hchecked
  obtain ⟨report, checked⟩ := checked
  dsimp only at hchecked ⊢
  split
  · exact hchecked
  · have hanalyzed := h.analyze hchecked
    have hfound : I (s.candidates env (s.analyze env checked).2).2 := h.candidates hanalyzed
    split
    · exact h.tick hfound
    · exact h.fixCandidates hfound _ _ (h.keys hanalyzed)

theorem rollBack (hb : I b) (id : Option String) (dryRun force : Bool) :
    I (s.rollback env facts b id dryRun force).2 := by
  have hchecked : I (s.preflight env facts b dryRun).2 := h.preflight hb facts dryRun
  unfold Site.rollback
  generalize s.preflight env facts b dryRun = checked at hchecked
  obtain ⟨report, checked⟩ := checked
  dsimp only at hchecked ⊢
  split
  · exact hchecked
  · split
    · exact hchecked
    · rename_i target htarget
      have hrun := h.rollback hchecked htarget dryRun
      split
      · rename_i hr
        rwa [hr] at hrun
      · rename_i hr
        rw [hr] at hrun
        exact h.tick hrun

/-- What the stages keep, a call keeps, however it ends. -/
theorem call (hb : I b) (c : Call) : I (c.behind s env b) := by
  cases c with
  | scan facts dryRun force => exact h.scan hb dryRun force
  | fix facts dryRun force => exact h.fix hb dryRun force
  | verify => exact h.tick (h.candidates hb)
  | rollback facts id dryRun force => exact h.rollBack hb id dryRun force
  | status => exact h.tick hb

end Stable

/-! ## The home of a session -/

theorem housed_of_world (h : Housed home b) (w : World) : Housed home { b with world := w } :=
  ⟨h.cut, h.cache, h.ledger, h.named⟩

theorem assemble_housed {config : Config} {w : World} {root : Location} {rootText homeText : String} {o : Opened}
    (hcut : home.root.IsCut) (h : assemble config w root rootText homeText home = .ok o) :
    Housed home o.bench ∧ o.site.store.directory = home.backups := by
  unfold assemble at h
  split at h
  · cases h
  · rename_i cache files hcache
    split at h
    · cases h
    · rename_i ledger hledger
      split at h
      · rename_i store filter hstore hfilter
        obtain rfl := Except.ok.inj h
        obtain rfl := ParseCache.openAt_eq_ok hcache
        exact ⟨⟨hcut, rfl, ProofLedger.open?_file hledger, ParseCache.named_fresh _⟩,
          (SnapshotStore.ofConfig_eq_ok hstore).1⟩
      · cases h
      · cases h

theorem openSite_housed {w w' : World} {here : Location} {root home : String} {o : Opened} (hcut : here.IsCut)
    (h : openSite w here root home = (.ok o, w')) :
    Housed ⟨here.join home⟩ o.bench ∧ o.site.store.directory = Home.backups ⟨here.join home⟩ := by
  unfold openSite at h
  simp only at h
  split at h
  · cases h
  · split at h
    · cases h
    · exact assemble_housed (hcut.join home) (Prod.mk.inj h).1

theorem preflight_housed (h : Housed home b) (dryRun : Bool) : Housed home (s.preflight env facts b dryRun).2 := by
  rw [preflight_eq]
  exact housed_of_world h _

theorem analyze_housed (h : Housed home b) : Housed home (s.analyze env b).2 := (analyze_perused h).housed

theorem candidates_housed (h : Housed home b) : Housed home (s.candidates env b).2 := (candidates_perused h).housed

theorem fixFile_housed {f : Fixed} (h : Housed home f.bench) (key : String) : Housed home (s.fixFile env f key).2.bench := by
  unfold fixFile
  simp only
  split
  · exact h
  · rename_i source _
    obtain ⟨-, hworked⟩ := applyRules_spec env key (f.bench.registry.rules.map (·.id))
      ⟨source, (f.bench.host.parse env f.bench.world.files key source).unit⟩ _ (h.parse env key source).2.housed
    split
    · exact hworked.housed
    · split <;> exact housed_of_world hworked.housed _

theorem stable_housed (s : Site) (env : Surroundings) (home : Home) : s.Stable env (Housed home) fun _ => True where
  preflight h _ dryRun := preflight_housed h dryRun
  create h _ _ := housed_of_world h _
  analyze := analyze_housed
  candidates := candidates_housed
  keys _ _ _ := trivial
  fixFile _ h := fixFile_housed h _
  rollback h _ _ := housed_of_world h _
  tick h := housed_of_world h _

/-- Whatever is called and whatever happens in between, a session stays in its home. -/
theorem Opened.Reached.housed {o : Opened} (hb : o.Reached env b) (h : Housed home o.bench) : Housed home b := by
  induction hb with
  | opened => exact h
  | behind _ c ih => exact (stable_housed o.site env home).call ih c
  | elsewhere _ w ih => exact housed_of_world ih w

end Site

end TreeRepair
