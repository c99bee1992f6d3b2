import TreeRepair.Proofs.Snapshot.Passage
import TreeRepair.Proofs.Workflow.Fix

/-! The way back from a run of repairs. Its snapshot holds each file that it has written, unless the file was over the
limit of the store; and a rollback to the snapshot gives what it holds its old bytes. -/

set_option autoImplicit false

namespace TreeRepair

open Location Listing

namespace Site

open Registry (Bench)

variable {s : Site} {env : Surroundings} {facts : HostFacts} {home : Home} {b b' : Bench} {force : Bool}
  {report : FixReport}

section Staged

variable {S : Snapshot} {saved : Bench} {f : Fixed} (h : s.Staged env facts b force report b' S saved f)
  (hp : s.Prepared home env b) (hf : s.Fitted home)

include h hp hf

theorem Staged.ordered : s.Ordered home env b'.world.files := by
  obtain ⟨-, hsaved⟩ := h.behind hp hf
  have hspells : ∀ key ∈ keysOf (s.searched env facts b).1, ∃ names, s.store.Spells s.root key names := by
    intro key hkey
    obtain ⟨-, names, c, hspells, -⟩ := (searched_keys facts hp hf).2 key hkey
    exact ⟨names, hspells⟩
  have hfixed := (h.fixing hp hf).ordered hf hsaved.ordered hspells
  rw [h.left]
  exact hfixed.sameFiles hf (h.perused hp hf).worked.files fun q hq => .inl hq

/-- Behind a run its snapshot is an intact record of a tree with the old project, and the newest snapshot. -/
theorem Staged.kept : ∃ t, s.Ordered home env t ∧ SameProject home (fun _ => False) b.world.files t ∧
    s.store.Records env.checksum t s.root [] S ∧ s.store.Intact b'.world.files S t s.root ∧
    ∀ T ∈ s.store.list b'.world.files, T ≠ S → T.timestamp < S.timestamp := by
  obtain ⟨-, hsaved⟩ := h.behind hp hf
  obtain ⟨t, hordered, hproject, hadded⟩ := hsaved.added
  have hsame := h.sameFiles hp hf
  have hout := fun q hq => h.not_touched hp hf (q := q) hq
  refine ⟨t, hordered, hproject, hadded.toRecords, hadded.toIntact.sameFiles hordered.plain hsame hout, fun T hT hne => ?_⟩
  obtain ⟨id, hload⟩ := SnapshotStore.mem_list.1 hT
  exact hadded.newest T (SnapshotStore.mem_list.2
    ⟨id, (SnapshotStore.load_sameFiles hsame hout hsaved.ordered.storeDir).1 hload⟩) hne

end Staged

section Secured

variable {S : Snapshot} {saved : Bench} {f : Fixed} (h : s.Staged env facts b force report b' S saved f)
  (hp : s.Prepared home env b) (hf : s.Fitted home) {t : Listing} (ht : s.Ordered home env t)
  (hproject : SameProject home (fun _ => False) b.world.files t)

include h hp hf ht hproject

/-- A file that is written was one of the project, and could be read when the snapshot was made. -/
theorem Staged.source {key : String} (hkey : key ∈ report.filesWritten) : ∃ names c,
    s.store.Spells s.root key names ∧ s.store.filter.Walks t s.root names c ∧ t.read (s.root ++ names) = .ok c ∧
      b.world.files.shapeAt? (s.root.join key).settled = some (.file c) := by
  obtain ⟨hpath, names, c, hspells, hw⟩ := (searched_keys facts hp hf).2 key (h.written_mem hp hf key hkey)
  have hwalk := (hproject.sameWalk hf hp.ordered ht names c).2 hw
  refine ⟨names, c, hspells, hwalk, ?_, ?_⟩
  · rw [hwalk.read_eq hspells.isName, ← join_of_spells hspells, hpath]
    rfl
  · rw [settled_of_spells hspells, hw.isFile]

end Secured

/-! ## The rollback -/

/-- What a rollback behind a run starts from: the files of the run, a fresh id, and room for its own snapshot. -/
structure Resumed (s : Site) (env : Surroundings) (facts : HostFacts) (b' b₂ : Bench) : Prop where
  files : b₂.world.files = b'.world.files
  probe : b'.world.files.shapeAt? (s.root.join (Preflight.probeName (b₂.world.freshId env))).settled = none
  unused : s.store.Unused env (s.preflight env facts b₂ false).2.world
  roomy : s.store.Roomy env (s.preflight env facts b₂ false).2.world s.root

section Rollback

variable {S : Snapshot} {t : Listing} {b₂ : Bench} {facts₂ : HostFacts}

/-- The checks before a rollback leave the newest snapshot intact. -/
theorem preflight_intact (facts₂ : HostFacts) (ho : s.Ordered home env b₂.world.files) (hp : s.store.Plain t s.root)
    (hintact : s.store.Intact b₂.world.files S t s.root)
    (hnewest : ∀ T ∈ s.store.list b₂.world.files, T ≠ S → T.timestamp < S.timestamp)
    (hprobe : b₂.world.files.shapeAt? (s.root.join (Preflight.probeName (b₂.world.freshId env))).settled = none) :
    s.store.Intact (s.preflight env facts₂ b₂ false).2.world.files S t s.root := by
  rw [preflight_world]
  rcases Preflight.run_files env s.config s.store facts₂ b₂.world s.root hprobe with ⟨-, hsame⟩ | ⟨-, hevicted⟩
  · rw [hsame]
    exact hintact
  · rw [hevicted]
    exact hintact.evict hp ho.tidy hnewest Nat.one_pos

end Rollback

section Following

variable {S : Snapshot} {saved : Bench} {f : Fixed} (h : s.Staged env facts b force report b' S saved f)
  (hp : s.Prepared home env b) (hf : s.Fitted home)

include h hp hf

theorem Staged.still_file {names : List String} {c : ByteArray} (hw : s.store.filter.Walks b.world.files s.root names c) :
    ∃ c', b'.world.files.shapeAt? (s.root.settled ++ names) = some (.file c') := by
  have henters := hw.enters
  rw [hf.filter] at henters
  by_cases hwritten : ∃ key ∈ report.filesWritten, s.root.settled ++ names = (s.root.join key).settled
  · obtain ⟨key, hkey, hplace⟩ := hwritten
    rw [hplace]
    obtain ⟨-, hnot⟩ | ⟨text, u, last, hm, -⟩ := h.mended hp hf key
    · exact absurd hkey hnot
    · exact ⟨_, hm.after⟩
  · obtain ⟨-, hsaved⟩ := h.behind hp hf
    have hfile := (hsaved.project _ c (hf.outside hp.ordered.storeDir henters hw.isFile) not_false).2 hw.isFile
    refine ⟨c, ((h.sameFiles hp hf).files _ _ ?_).2 hfile⟩
    rintro (hs | hkey)
    · exact hf.not_scratch henters hs
    · exact hwritten hkey

/-- Behind a run, and behind the checks of a rollback, the old tree can be brought back. -/
theorem Staged.later {facts₂ : HostFacts} {b₂ : Bench} (hr : s.Resumed env facts₂ b' b₂)
    (hdistinct : ∀ names c c', s.store.filter.Walks b.world.files s.root names c →
      s.store.filter.Walks b'.world.files s.root names c' → env.checksum c = env.checksum c' → c = c')
    {t : Listing} (ht : s.Ordered home env t) (hproject : SameProject home (fun _ => False) b.world.files t)
    (hrec : s.store.Records env.checksum t s.root [] S) (hintact : s.store.Intact b'.world.files S t s.root)
    (hnewest : ∀ T ∈ s.store.list b'.world.files, T ≠ S → T.timestamp < S.timestamp) :
    s.store.Ready env (s.preflight env facts₂ b₂ false).2.world s.root ∧
      s.store.Later env.checksum s.root S t (s.preflight env facts₂ b₂ false).2.world.files ∧
      s.store.Unobstructed s.root S t (s.preflight env facts₂ b₂ false).2.world.files ∧
      s.store.Aside b'.world.files (s.preflight env facts₂ b₂ false).2.world.files := by
  have ho := h.ordered hp hf
  have hprobe := hr.probe
  rw [← hr.files] at ho hprobe hintact hnewest
  have haside := (preflight_checked facts₂ ho hprobe).aside
  have hkept := preflight_intact facts₂ ho ht.plain hintact hnewest hprobe
  rw [hr.files] at haside
  have hx := (h.ordered hp hf).aside hf haside
  have hunused := hr.unused
  generalize (s.preflight env facts₂ b₂ false).2.world = w at *
  have hcut : s.store.directory.IsCut := hf.directory ▸ hf.homeCut.join _
  have hsame : s.store.SameWalk b'.world.files w.files s.root :=
    (hf.sameProject haside _).sameWalk hf (h.ordered hp hf) hx
  have hold := hproject.sameWalk hf hp.ordered ht
  have hfile : ∀ names c, s.store.filter.Walks t s.root names c →
      ∃ c', w.files.shapeAt? (s.root.settled ++ names) = some (.file c') := by
    intro names c hw
    have henters := hw.enters
    rw [hf.filter] at henters
    obtain ⟨c', hc'⟩ := h.still_file hp hf ((hold names c).1 hw)
    refine ⟨c', ?_⟩
    rw [haside.same _ fun n hpre => hf.not_store henters ((List.prefix_append _ _).trans hpre), hc']
  refine ⟨⟨hx.storeDir, hcut, hx.rootDir, hx.plain.safe, hunused.hex, hunused.fresh⟩, ?_, ?_, haside⟩
  · refine ⟨hrec.sorted, hrec.files_eq, fun k sum hm => ?_, ht.plain, hx.plain, hx.rootDir, hf.cut, hf.hidden_store, hkept,
      fun names c c' hw hw' => hdistinct names c c' ((hold _ _).1 hw) ((hsame _ _).1 hw')⟩
    obtain ⟨names, c, hwant, hread, hk, hs⟩ := (hrec.mem_checksums k sum).1 hm
    exact ⟨names, c, hwant.walks, hread, hk, hs⟩
  · refine ⟨fun names c hw _ hdir => ?_, fun names c hw _ front c' hpre hne hfront => ?_⟩
    · obtain ⟨c', hc'⟩ := hfile names c hw
      rw [hc'] at hdir
      cases hdir
    · obtain ⟨c'', hc'⟩ := hfile names c hw
      exact absurd hfront (SnapshotStore.Rollback.noFile_on_way (fun _ hq => hq) hc' hpre hne)

end Following

section Lane

variable (hrun : (lane 16).fix refusing unknown bench false false = (.ok report, b'))

include hrun

end Lane

end Site

end TreeRepair
