import TreeRepair.Proofs.Workflow.Preparation
import TreeRepair.Proofs.Workflow.Rewriting

/-! A run of repairs from end to end. What it writes is what its accepted repairs have given out, each of them earned
its verdict, the ledger tells of all of them, and before the first file is written there is a snapshot. -/

set_option autoImplicit false

namespace TreeRepair

open Location Listing

namespace Site

open Registry (Bench Housed Judges Recorded)

variable {s : Site} {env : Surroundings} {facts : HostFacts} {home : Home} {b b' : Bench} {force : Bool}
  {report : FixReport}

/-! ## Stages -/

/-- The candidates of a run and the bench behind the search for them. -/
def searched (s : Site) (env : Surroundings) (facts : HostFacts) (b : Bench) : List Candidate × Bench :=
  s.candidates env (s.analyze env (s.preflight env facts b false).2).2

theorem stopping_eq_nil {checks : PreflightReport} (h : stopping checks false force = []) :
    checks.isBlocked = false ∨ force = true := by
  cases force with
  | true => exact .inr rfl
  | false =>
    refine .inl ?_
    simp only [stopping, Bool.or_self, Bool.false_eq_true, if_false, List.map_eq_nil_iff] at h
    rw [PreflightReport.isBlocked, h]
    rfl

/-- The stages of a run that gives a report: checks that let it go on, a snapshot, and the files of the candidates. -/
structure Staged (s : Site) (env : Surroundings) (facts : HostFacts) (b : Bench) (force : Bool) (report : FixReport)
    (b' : Bench) (S : Snapshot) (saved : Bench) (f : Fixed) : Prop where
  preflight_eq : report.preflight = (s.preflight env facts b false).1
  allowed : report.preflight.isBlocked = false ∨ force = true
  create : s.store.create env (s.searched env facts b).2.world s.root "pre-fix" "state before fix" = (.ok S, saved.world)
  saved_eq : saved = ⟨(s.searched env facts b).2.registry, (s.searched env facts b).2.host, saved.world⟩
  run : s.fixAll env (keysOf (s.searched env facts b).1) ⟨[], [], saved⟩ = (.ok (), f)
  left : b' = tick (s.analyze env f.bench).2
  snapshot : report.snapshot = some S.id
  outcomes : report.outcomes = f.outcomes
  written : report.filesWritten = f.written

theorem staged_of_ok (h : s.fix env facts b false force = (.ok report, b')) :
    ∃ S saved f, s.Staged env facts b force report b' S saved f := by
  unfold fix at h
  simp only at h
  split at h
  · cases h
  · rename_i hstop
    rw [if_neg Bool.false_ne_true, ← searched] at h
    generalize hchecks : (s.preflight env facts b false).1 = checks at h hstop
    generalize (s.analyze env (s.preflight env facts b false).2).1.summary = before at h
    generalize hsearched : s.searched env facts b = searched at h
    unfold fixCandidates at h
    split at h
    · cases h
    · rename_i S w hcreate
      split at h
      · cases h
      · rename_i f hrun
        obtain ⟨hreport, hbench⟩ := Prod.mk.inj h
        obtain rfl := Except.ok.inj hreport
        refine ⟨S, { searched.2 with world := w }, f, hchecks.symm, stopping_eq_nil hstop, ?_, ?_, ?_, hbench.symm, rfl, rfl, rfl⟩
        · rw [hsearched]
          exact hcreate
        · rw [hsearched]
        · rw [hsearched]
          exact hrun

section Prepared

variable (facts) (hp : s.Prepared home env b) (hf : s.Fitted home)

include hp hf

theorem searched_looked : s.Looked home env b (s.analyze env (s.preflight env facts b false).2).2 ∧
    s.Looked home env b (s.searched env facts b).2 := by
  have hchecked := hp.looked hf facts
  have hanalyzed : s.Looked home env b (s.analyze env (s.preflight env facts b false).2).2 :=
    hchecked.perused hf (analyze_perused hchecked.housed)
  exact ⟨hanalyzed, hanalyzed.perused hf (candidates_perused hanalyzed.housed)⟩

theorem searched_keys : (keysOf (s.searched env facts b).1).Nodup ∧
    ∀ key ∈ keysOf (s.searched env facts b).1, checkPath (s.root.join key) = .ok () ∧
      ∃ names c, s.store.Spells s.root key names ∧ s.store.filter.Walks b.world.files s.root names c := by
  obtain ⟨hlooked, -⟩ := searched_looked facts hp hf
  obtain ⟨hnodup, hkeys⟩ : (keysOf (s.searched env facts b).1).Nodup ∧ _ :=
    candidates_keys hlooked.ordered.plain.wellFormed
  refine ⟨hnodup, fun key hkey => ?_⟩
  obtain ⟨hpath, names, c, hw, rfl⟩ := hkeys key hkey
  rw [← hf.filter] at hw
  exact ⟨hpath, names, c, hlooked.ordered.plain.spells hw, (hlooked.project.sameWalk hf hp.ordered hlooked.ordered _ _).1 hw⟩

end Prepared

section Staged

variable {S : Snapshot} {saved : Bench} {f : Fixed} (h : s.Staged env facts b force report b' S saved f)
  (hp : s.Prepared home env b) (hf : s.Fitted home)

include h hp hf

theorem Staged.behind : S.tag = "pre-fix" ∧ s.Saved home env b saved S := by
  have hsaved := hp.saved hf (searched_looked facts hp hf).2 h.create
  rwa [← h.saved_eq] at hsaved

/-- The files of the candidates have been fixed, beginning behind the snapshot. -/
theorem Staged.fixing : s.Fixing home env saved (keysOf (s.searched env facts b).1) f := by
  obtain ⟨-, hsaved⟩ := h.behind hp hf
  obtain ⟨hnodup, hkeys⟩ := searched_keys facts hp hf
  have hstart : s.Fixing home env saved [] ⟨[], [], saved⟩ := .start hsaved.housed
  refine hstart.run hf hsaved.ordered (fun key hkey => ?_) hnodup h.run
  obtain ⟨-, names, c, hspells, -⟩ := hkeys key hkey
  exact ⟨names, hspells⟩

/-- Behind the repairs only units have been stored. -/
theorem Staged.perused : Registry.Perused home f.bench (s.analyze env f.bench).2 :=
  analyze_perused (h.fixing hp hf).housed

theorem Staged.sameFiles : SameFiles (s.Touched home report.filesWritten) saved.world.files b'.world.files := by
  have hfixing := h.fixing hp hf
  rw [h.written, h.left]
  exact hfixing.files.trans ((h.perused hp hf).worked.files.mono fun _ hq => .inl hq)

theorem Staged.written_mem : ∀ key ∈ report.filesWritten, key ∈ keysOf (s.searched env facts b).1 := by
  rw [h.written]
  exact (h.fixing hp hf).written

theorem Staged.not_touched {q : List String} (hq : s.store.directory.settled <+: q) :
    ¬ s.Touched home report.filesWritten q := by
  rintro (hs | ⟨key, hkey, rfl⟩)
  · exact hf.store_not_scratch hq hs
  · obtain ⟨-, names, c, hspells, -⟩ := (searched_keys facts hp hf).2 key (h.written_mem hp hf key hkey)
    have henters := hspells.enters
    rw [settled_of_spells hspells] at hq
    rw [hf.filter] at henters
    exact hf.not_store henters hq

/-- Each file that was tried and had a text at first ends with what the rules have left of it. -/
theorem Staged.mended (key : String) :
    outcomesOf key report.outcomes = [] ∧ key ∉ report.filesWritten ∨
      ∃ text u last, Mended s env b.registry.rules b.world.files b'.world.files key (outcomesOf key report.outcomes)
        text u last ∧ (key ∈ report.filesWritten ↔ last.source ≠ text) := by
  have hfixing := h.fixing hp hf
  obtain ⟨-, hsaved⟩ := h.behind hp hf
  rw [h.outcomes, h.written]
  by_cases hkey : key ∈ keysOf (s.searched env facts b).1
  · refine (hfixing.mended key hkey).imp_right ?_
    rintro ⟨text, u, last, hm, hiff⟩
    obtain ⟨-, names, c, hspells, -⟩ := (searched_keys facts hp hf).2 key hkey
    have hplace := settled_of_spells hspells
    have henters := hspells.enters
    rw [hf.filter] at henters
    have hbefore := hm.before
    have hafter := hm.after
    rw [hplace] at hbefore hafter
    refine ⟨text, u, last, { hm with before := ?_, repairs := hsaved.registry ▸ hm.repairs, after := ?_ }, hiff⟩
    · rw [hplace]
      exact (hsaved.project _ _ (hf.outside hsaved.ordered.storeDir henters hbefore) not_false).1 hbefore
    · rw [hplace, h.left]
      exact ((h.perused hp hf).worked.files.files _ _ (hf.not_scratch henters)).2 hafter
  · exact .inl ⟨outcomesOf_eq_nil fun o ho heq => hkey (heq ▸ hfixing.outcomes o ho), fun hw => hkey (hfixing.written key hw)⟩

end Staged

/-! ## What a run has done -/

/-- What a run that has given a report has done to the project and to the ledger. -/
structure Repaired (s : Site) (home : Home) (env : Surroundings) (b : Bench) (force : Bool) (report : FixReport)
    (b' : Bench) : Prop where
  /-- The checks have let it go on. -/
  allowed : report.preflight.isBlocked = false ∨ force = true
  /-- Outside the home only the files written have changed. -/
  project : SameProject home (fun q => ∃ key ∈ report.filesWritten, q = (s.root.join key).settled)
    b.world.files b'.world.files
  /-- A file that is written gets the source of its last accepted outcome. -/
  written : ∀ key ∈ report.filesWritten, ∃ text source, text ≠ source ∧
    Outcome.lastSource (outcomesOf key report.outcomes) = some source ∧
    b.world.files.shapeAt? (s.root.join key).settled = some (.file text.toUTF8) ∧
    b'.world.files.shapeAt? (s.root.join key).settled = some (.file source.toUTF8)
  /-- The outcomes on a file are those of attempts one after another, each on what the accepted ones before it have
  left; in the end there are no more errors than at first. -/
  chain : ∀ key, outcomesOf key report.outcomes = [] ∧ key ∉ report.filesWritten ∨
    ∃ text u last, Mended s env b.registry.rules b.world.files b'.world.files key (outcomesOf key report.outcomes)
      text u last ∧ (key ∈ report.filesWritten ↔ last.source ≠ text) ∧ last.InStep env key ∧
      last.unit.errors.length ≤ u.errors.length
  /-- Each accepted repair has earned its verdict. -/
  earned : ∀ o ∈ report.outcomes, o.success = true → ∃ v, o.verdict = some v ∧ v.Earned
  /-- On a file no accepted repair begins with more errors than an earlier one has left. -/
  errors : ∀ key, (((outcomesOf key report.outcomes).filter (·.success)).filterMap (·.verdict)).Pairwise
    fun v v' => v'.errorsBefore ≤ v.errorsAfter
  /-- The ledger has a record of each outcome, in order. -/
  ledger : ∃ rs, b'.registry.ledger.records = b.registry.ledger.records ++ rs ∧
    List.Forall₂ Recorded report.outcomes rs
  /-- All files are written behind a snapshot, which is still there in the end. -/
  saved : ∃ S saved keys f, report.snapshot = some S.id ∧ S.tag = "pre-fix" ∧
    SameProject home (fun _ => False) b.world.files saved.world.files ∧
    s.store.load saved.world.files S.id = .ok S ∧ s.store.load b'.world.files S.id = .ok S ∧
    s.fixAll env keys ⟨[], [], saved⟩ = (.ok (), f) ∧ f.outcomes = report.outcomes ∧ f.written = report.filesWritten

/-- A run of repairs over rules that leave the verdict to their defects, in a home where each snapshot lies in the
directory of its own name. -/
theorem repaired_of_run (hf : s.Fitted home) (hp : s.Prepared home env b) (hjudges : Judges b.registry.rules)
    (hrun : s.fix env facts b false force = (.ok report, b')) : s.Repaired home env b force report b' := by
  obtain ⟨S, saved, f, h⟩ := staged_of_ok hrun
  obtain ⟨htag, hsaved⟩ := h.behind hp hf
  have hfixing := h.fixing hp hf
  have hsame := h.sameFiles hp hf
  have hmended := h.mended hp hf
  obtain ⟨t, -, -, hadded⟩ := hsaved.added
  refine ⟨h.allowed, ?_, fun key hkey => ?_, fun key => ?_, fun o ho hgood => ?_, fun key => ?_, ?_,
    S, saved, _, f, h.snapshot, htag, hsaved.project, hadded.load, ?_, h.run, h.outcomes.symm, h.written.symm⟩
  · exact hsaved.project.trans (.of_sameFiles hsame fun q hq => hq) fun q hq => hq.elim
  · obtain ⟨-, hnot⟩ | ⟨text, u, last, hm, hiff⟩ := hmended key
    · exact absurd hkey hnot
    · have hne := hiff.1 hkey
      have hsource := hm.repairs.source_eq
      cases hlast : Outcome.lastSource (outcomesOf key report.outcomes) with
      | none => exact absurd (by rw [hsource, hlast]; rfl) hne
      | some source =>
        rw [hlast, Option.getD_some] at hsource
        exact ⟨text, source, hsource ▸ hne.symm, rfl, hm.before, hsource ▸ hm.after⟩
  · refine (hmended key).imp_right ?_
    rintro ⟨text, u, last, hm, hiff⟩
    exact ⟨text, u, last, hm, hiff, hm.repairs.inStep hm.inStep, hm.repairs.errors_le hjudges⟩
  · have hmem : o ∈ outcomesOf o.file report.outcomes := List.mem_filter.2 ⟨ho, beq_self_eq_true _⟩
    obtain ⟨hnil, -⟩ | ⟨text, u, last, hm, -⟩ := hmended o.file
    · rw [hnil] at hmem
      cases hmem
    · exact hm.repairs.earned hjudges o hmem hgood
  · obtain ⟨hnil, -⟩ | ⟨text, u, last, hm, -⟩ := hmended key
    · rw [hnil]
      exact List.Pairwise.nil
    · exact hm.repairs.errors_pairwise hjudges
  · obtain ⟨rs, hrs, hall⟩ := hfixing.records
    refine ⟨rs, ?_, h.outcomes ▸ hall⟩
    rw [← hsaved.registry, ← hrs, h.left]
    exact congrArg (fun r => r.ledger.records) (h.perused hp hf).registry
  · exact (SnapshotStore.load_sameFiles hsame (fun q hq => h.not_touched hp hf hq) hsaved.ordered.storeDir).2 hadded.load

/-! ## A run -/

/-- Surroundings where every text is refused, and a hash is the hexadecimal text of the first bytes. -/
def refusing : Surroundings where
  grammars _ text := .refusal text
  contentHash bytes := Digest.hexText (bytes.data.toList.take 4)
  checksum bytes := Digest.hexText (bytes.data.toList.take 4)
  archives := .json
  process := 1
  clock n := 1700000000000 + n
  freshId n := "0f8fad5" ++ toString n

def hut : Home := ⟨["home"]⟩

/-- A site whose snapshots take files of so many bytes. -/
def lane (limit : Nat) : Site :=
  let filter : SourceFilter := ⟨["js"], [], [], fun _ => false⟩
  ⟨["work"], "work", "home", .default, filter, ⟨hut.backups, filter, limit, 3⟩⟩

/-- A project of one file with a line of prose, beside a new home. -/
def remark : Listing :=
  .dir "work" (.file "a.js" "Do it now".toUTF8 .empty)
    (.dir "home" (.dir Home.backupsName .empty (.dir Home.cacheName .empty .empty)) .empty)

def bench : Bench :=
  ⟨.fresh Rule.builtin { ProofLedger.inMemory with file := some hut.ledger }, .fresh (.fresh (some hut.cache)) 100,
    ⟨remark, 0, 0⟩⟩

/-- Nothing is known of the machine. -/
def unknown : HostFacts := ⟨none, none, none, none⟩

section Lane

variable (limit : Nat)

theorem file_remark {q : List String} {c : ByteArray} (h : remark.shapeAt? q = some (.file c)) :
    q = ["work", "a.js"] ∧ c = "Do it now".toUTF8 := by
  have hmem := mem_files_of_shapeAt? h
  have hfiles : remark.files = [(["work", "a.js"], "Do it now".toUTF8)] := rfl
  rw [hfiles] at hmem
  exact Prod.mk.inj (List.mem_singleton.1 hmem)

theorem fitted_lane : (lane limit).Fitted hut := by
  have hcut : IsCut ["work"] := by decide
  refine ⟨rfl, rfl, Nat.succ_pos 2, hcut, by decide, fun names m ms _ heq => ?_,
    shuns_of_length_le (Nat.le_succ 1)⟩
  have hhead : "home" = "work" := (List.cons.inj heq).1
  exact absurd hhead (by decide)

theorem ordered_lane : (lane limit).Ordered hut refusing remark := by
  have hwf : remark.WellFormed := by decide
  have hnames : remark.names.all (fun n => !n.toList.contains '\\') = true := by decide
  have hstore : remark.isDir hut.backups = true := by decide
  have hroot : remark.isDir ["work"] = true := by decide
  refine ⟨hstore, hroot, ⟨hwf, fun names c hw => ?_⟩,
    ⟨hwf, fun id S hload => ?_, shuns_of_length_le (Nat.le_refl 2)⟩, fun q m c _ hfile hlast => ?_⟩
  · exact isPlain_of_names hnames (p := (lane limit).root.settled) (by simp [hw.isFile])
  · obtain ⟨hplain, bytes, hread, -⟩ := SnapshotStore.load_eq_ok_iff.1 hload
    have hfile := (read_eq_ok.1 hread).2
    rw [settled_append_names SnapshotStore.goesDown_manifestName,
      settled_append_names (by simpa using SnapshotStore.goesDown_of_isPlainName hplain)] at hfile
    have hhead : "home" = "work" := (List.cons.inj (file_remark hfile).1).1
    exact absurd hhead (by decide)
  · obtain ⟨rfl, -⟩ := file_remark hfile
    have hname : "a.js" = draftName refusing.process m := Option.some.inj hlast
    have hdot := congrArg (fun name => name.toList.head?) hname
    simp [draftName] at hdot

theorem prepared_lane : (lane limit).Prepared hut refusing bench where
  ordered := ordered_lane limit
  housed := ⟨by decide, rfl, rfl, ParseCache.named_fresh _⟩
  probe := by
    have hprobe : remark.shapeAt? ["work", Preflight.probeName (refusing.freshId 0)] = none := by decide
    exact hprobe
  unused := by
    refine ⟨SnapshotStore.isHex_of_all (by decide), fun ts => ?_⟩
    generalize SnapshotStore.idOf ts _ = id
    change remark.shapeAt? ["home", "backups", id] = none
    rw [remark, shapeAt?_dir_cons, if_neg (by decide), shapeAt?_dir_cons, if_pos rfl, shapeAt?_dir_cons,
      if_pos (by decide), shapeAt?_empty_cons]
  clock := by decide
  bytes := by decide

end Lane

/-- What is looked at behind a run. -/
structure Sketch where
  written : Option (List String)
  /-- The files of the project and their bytes. -/
  project : List (List String × List UInt8)
  /-- The names in the store. -/
  stored : Option (List String)
  draws : Nat
  /-- Whether there is nothing in the way of another run. -/
  vacant : Bool
  roomy : Bool
  deriving DecidableEq

def sketch (limit : Nat) : Sketch :=
  let run := (lane limit).fix refusing unknown bench false false
  let files := run.2.world.files
  { written := run.1.toOption.map (·.filesWritten)
    project := (files.files.filter fun f => f.1.head? == some "work").map fun f => (f.1, f.2.data.toList)
    stored := (files.listing (lane limit).store.directory).toOption.map fun inner => inner.entries.map (·.1)
    draws := run.2.world.draws
    vacant := (files.shapeAt? ["work", Preflight.probeName (refusing.freshId run.2.world.draws)]).isNone
    roomy := ((lane limit).store.nextTimestamp? files).isSome && decide (files.totalBytes < SnapshotStore.timestampBound) }

theorem sketch_lane : sketch 16 = ⟨some ["a.js"], [(["work", "a.js"], "// Do it now".toUTF8.data.toList)],
    some ["1700000000001-0f8fad51"], 4, true, true⟩ := by decide +kernel

theorem ok_lane {limit : Nat} {written : List String} (h : (sketch limit).written = some written) :
    ∃ report b', (lane limit).fix refusing unknown bench false false = (.ok report, b') ∧
      report.filesWritten = written := by
  rw [sketch] at h
  cases hrun : (lane limit).fix refusing unknown bench false false with
  | mk result b' =>
    rw [hrun] at h
    cases result with
    | error e => cases h
    | ok report => exact ⟨report, b', rfl, Option.some.inj h⟩

theorem repaired_lane : ∃ report b', (lane 16).fix refusing unknown bench false false = (.ok report, b') ∧
    report.filesWritten = ["a.js"] ∧ (lane 16).Repaired hut refusing bench false report b' := by
  obtain ⟨report, b', hrun, hwritten⟩ := ok_lane (congrArg Sketch.written sketch_lane)
  exact ⟨report, b', hrun, hwritten,
    repaired_of_run (fitted_lane 16) (prepared_lane 16) Registry.judges_builtin hrun⟩

end Site

end TreeRepair
