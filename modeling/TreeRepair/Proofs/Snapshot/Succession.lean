import TreeRepair.Proofs.Snapshot.Completion
import TreeRepair.Proofs.Snapshot.Eviction
import TreeRepair.Syntax.Table

/-! The snapshots of a store as a queue. Captures append to it and evictions take from its front, whatever the clock
says: a new timestamp is behind all that are left in the store, so the order of the list is the order of creation, and
since the id begins with the timestamp no older snapshot lies where the new one goes. -/

set_option autoImplicit false

namespace TreeRepair

open Location Listing

namespace SnapshotStore

variable {s : SnapshotStore} {env : Surroundings} {t x y : Listing} {kept : List Snapshot} {S : Snapshot}

/-! ## Ids -/

theorem timestamp_of_idOf {timestamp timestamp' : Nat} {freshId freshId' : String}
    (h : idOf timestamp freshId = idOf timestamp' freshId') : timestamp = timestamp' := by
  have hdigits : ∀ (ts : Nat) (fresh : String),
      (idOf ts fresh).toList.takeWhile (· != '-') = Nat.toDigits 10 ts := by
    intro ts fresh
    rw [idOf, String.toList_append, String.toList_append, Nat.toString_eq_repr, Nat.toList_repr, List.append_assoc,
      List.takeWhile_append_of_pos]
    · simp
    · intro c hc
      have hd := Nat.isDigit_of_mem_toDigits (b := 10) (by decide) (by decide) hc
      rw [bne_iff_ne]
      rintro rfl
      exact absurd hd (by decide)
  have hsame := hdigits timestamp freshId
  rw [h, hdigits] at hsame
  rw [← Nat.ofDigitChars_ten_toDigits (n := timestamp), ← hsame, Nat.ofDigitChars_ten_toDigits]

/-! ## The state of a store -/

/-- A store that is still to be made: its directory is missing, nothing is in the way of it, and its path is short
enough for what is to lie in it. -/
def Unmade (s : SnapshotStore) (t : Listing) : Prop :=
  ∃ base names, s.directory = base ++ names ∧ t.Makeable base names ∧ t.shapeAt? (base.settled ++ names) = none ∧
    byteSize s.directory ≤ 3800

/-- A store in whose directory lie the snapshots of a list and nothing else, the list in the order of timestamps. -/
structure Queue (s : SnapshotStore) (t : Listing) (kept : List Snapshot) : Prop where
  tidy : s.Tidy t
  cut : s.directory.IsCut
  list_eq : s.list t = kept
  ordered : kept.Pairwise (·.timestamp < ·.timestamp)
  ids : ∀ S ∈ kept, ∃ fresh, S.id = idOf S.timestamp fresh
  entries : ∀ n, t.shapeAt? (s.directory.settled ++ [n]) ≠ none → ∃ S ∈ kept, n = S.id
  stands : t.isDir s.directory = true ∨ kept = [] ∧ s.Unmade t

theorem list_eq_nil (h : ∀ id S, s.load t id ≠ .ok S) : s.list t = [] := by
  refine List.eq_nil_iff_forall_not_mem.2 fun S hS => ?_
  obtain ⟨id, hload⟩ := mem_list.1 hS
  exact h id S hload

theorem load_ne_of_absent {id : String} (h : t.shapeAt? (s.directory.settled ++ [id]) = none) (S : Snapshot) :
    s.load t id ≠ .ok S := by
  intro hload
  rw [shapeAt?_of_load hload] at h
  cases h

/-- A store that starts empty: a directory without entries, or one that is still to be made. -/
structure Empty (s : SnapshotStore) (t : Listing) : Prop where
  wellFormed : t.WellFormed
  cut : s.directory.IsCut
  shuns : s.directory.Shuns s.directory.settled
  absent : ∀ n, t.shapeAt? (s.directory.settled ++ [n]) = none
  stands : t.isDir s.directory = true ∨ s.Unmade t

theorem Empty.queue (h : s.Empty t) : s.Queue t [] where
  tidy := ⟨h.wellFormed, fun id S hload => absurd hload (load_ne_of_absent (h.absent id) S), h.shuns⟩
  cut := h.cut
  list_eq := list_eq_nil fun id S => load_ne_of_absent (h.absent id) S
  ordered := List.Pairwise.nil
  ids := fun _ hS => absurd hS List.not_mem_nil
  entries := fun n hn => absurd (h.absent n) hn
  stands := h.stands.imp_right fun hu => ⟨rfl, hu⟩

/-! ## Captures -/

/-- What a capture asks of a project: its root is a directory or holds no files, the files have safe keys, and their
lengths add up to a number that a manifest can hold. -/
structure Project (s : SnapshotStore) (t : Listing) (root : Location) : Prop where
  rooted : Rooted t root
  safe : s.Safe t root
  bytes : ((s.filter.walkFiles t root).map (·.size)).sum < timestampBound

/-- Clock readings that fit a timestamp, and fresh ids of hexadecimal digits. -/
structure Regular (env : Surroundings) : Prop where
  clock : ∀ n, env.clock n < timestampBound
  hex : ∀ n, ∀ c ∈ (env.freshId n).toList, Digest.isHexDigit c = true ∨ c = '-'

section Capture

variable {w w' : World} {root : Location} {tag description : String} {required : List String} (henv : Regular env)

include henv

theorem Queue.poised (h : s.Queue w.files kept) (hd : w.files.isDir s.directory = true)
    (hp : s.Project w.files root) : s.Poised env w root := by
  intro floor hfloor
  refine ⟨⟨hd, noSlash_idOf (henv.hex _), goesDown_idOf, ?_⟩, h.cut, hp.rooted, hp.safe⟩
  by_contra hthere
  obtain ⟨S, hS, hid⟩ := h.entries _ hthere
  obtain ⟨fresh, hSid⟩ := h.ids S hS
  have hlt := lt_nextTimestamp? hfloor (h.list_eq ▸ hS)
  have hsame := timestamp_of_idOf (hid.trans hSid)
  omega

theorem Queue.capture_made (h : s.Queue w.files kept) (hd : w.files.isDir s.directory = true)
    (hp : s.Project w.files root) (hc : s.capture env w root tag description required = (.ok S, w')) :
    s.Queue w'.files (kept ++ [S]) := by
  have hpoised := h.poised henv hd hp
  obtain ⟨⟨floor, hfloor, hts⟩, -, -, hshelved, -⟩ := capture_ok hpoised hc
  have hw := writable_of_capture hpoised (henv.clock _) hp.bytes hc
  have hroom : s.Room w.files (idOf S.timestamp (w.freshId env)) := by
    rw [hts]
    exact (hpoised floor hfloor).room
  have hplain : isPlainName (idOf S.timestamp (w.freshId env)) = true := isPlainName_idOf (henv.hex _)
  have hload : ∀ i, i ≠ idOf S.timestamp (w.freshId env) → ∀ S', s.load w'.files i = .ok S' ↔ s.load w.files i = .ok S' :=
    fun i hi S' => hshelved.load_eq hroom hi
  have hlater : ∀ S' ∈ kept, S'.timestamp < S.timestamp := by
    intro S' hS'
    have hlt := lt_nextTimestamp? hfloor (h.list_eq ▸ hS')
    omega
  have htidy : s.Tidy w'.files := by
    refine ⟨hshelved.wellFormed, fun i S' hi => ?_, h.tidy.shuns⟩
    by_cases hid : i = idOf S.timestamp (w.freshId env)
    · rw [hid, hshelved.load hplain hw] at hi
      rw [← Except.ok.inj hi, hshelved.id_eq, hid]
    · exact h.tidy.named i S' ((hload i hid S').1 hi)
  have hordered : (kept ++ [S]).Pairwise (·.timestamp < ·.timestamp) :=
    List.pairwise_append.2 ⟨h.ordered, List.pairwise_singleton _ _, fun a ha b hb => by
      rw [List.mem_singleton.1 hb]
      exact hlater a ha⟩
  refine ⟨htidy, h.cut, ?_, hordered, fun S' hS' => ?_, fun n hn => ?_, .inl (hshelved.grown.isDir hroom hd)⟩
  · refine htidy.list_eq (hordered.imp fun hlt heq => absurd (heq ▸ hlt) (Nat.lt_irrefl _)) (hordered.imp fun hlt => ?_)
      fun S' => ?_
    · simp [notBehind, hlt]
    · rw [hshelved.mem_list hroom hplain hw, h.list_eq, List.mem_append, List.mem_singleton, or_comm]
  · rcases List.mem_append.1 hS' with hS' | hS'
    · exact h.ids S' hS'
    · rw [List.mem_singleton.1 hS']
      exact ⟨_, hshelved.id_eq⟩
  · by_cases hid : n = S.id
    · exact ⟨S, by simp, hid⟩
    · rw [hshelved.grown.shapeAt?_eq hroom] at hn
      · obtain ⟨S', hS', heq⟩ := h.entries n hn
        exact ⟨S', List.mem_append_left _ hS', heq⟩
      · rw [← hshelved.id_eq, List.prefix_append_right_inj]
        intro hpre
        exact hid (List.cons_prefix_cons.1 hpre).1.symm

/-- Below a store that is still to be made the directory of a snapshot can be made. -/
theorem Unmade.makeable {base : Location} {names : List String} (hm : t.Makeable base names)
    (hnone : t.shapeAt? (base.settled ++ names) = none) (hsize : byteSize (base ++ names) ≤ 3800) {ts : Nat}
    (hts : ts < timestampBound) (n : Nat) : t.Makeable base (names ++ [idOf ts (env.freshId n), filesName]) := by
  have hpath : checkPath (base ++ names ++ [idOf ts (env.freshId n)] ++ [filesName]) = .ok () := by
    have hfiles : byteSize [filesName] = 6 := by decide
    refine checkPath_idOf hts (henv.hex n) ?_ ?_
    · rw [hasNul, List.any_append, Bool.or_eq_false_iff]
      exact ⟨(checkPath_eq_ok.1 hm.path).1, by decide⟩
    · rw [byteSize_append]
      omega
  refine ⟨hm.isDir, fun m hm' => ?_, fun m hm' => ?_, by simpa using hpath, fun front c hf => ?_⟩
  · rcases List.mem_append.1 hm' with hm' | hm'
    · exact hm.goesDown m hm'
    · rcases List.mem_cons.1 hm' with rfl | hm'
      · exact goesDown_idOf
      · rw [List.mem_singleton.1 hm']
        exact goesDown_filesName
  · rcases List.mem_append.1 hm' with hm' | hm'
    · exact hm.short m hm'
    · rcases List.mem_cons.1 hm' with rfl | hm'
      · exact idOf_short hts _
      · rw [List.mem_singleton.1 hm']
        decide
  · rcases prefix_append_cases hf with hf | ⟨rest, rfl, -⟩
    · exact hm.noFile front c hf
    · rw [← List.append_assoc, shapeAt?_append_of_none hnone]
      simp

/-- The directory of a store that is still to be made can be made first, and the directories of snapshots then are as
they would have been. -/
theorem Unmade.made (h : s.Unmade t) (ht : t.WellFormed) (hcut : s.directory.IsCut)
    (hshun : s.directory.Shuns s.directory.settled) :
    s.Empty (t.createDirs s.directory).2 ∧ (t.createDirs s.directory).2.isDir s.directory = true ∧
      ∀ ts < timestampBound, ∀ n, t.createDirs (s.directory ++ [idOf ts (env.freshId n)] ++ [filesName]) =
        (t.createDirs s.directory).2.createDirs (s.directory ++ [idOf ts (env.freshId n)] ++ [filesName]) := by
  obtain ⟨base, names, hdir, hmakeable, hnone, hsize⟩ := h
  rw [hdir] at hsize
  obtain ⟨x, hx, hmade⟩ := hmakeable.createDirs
  have hset : s.directory.settled = base.settled ++ names := by
    rw [hdir, settled_append_names hmakeable.goesDown]
  have hwf := ht.createDirs hcut
  rw [hdir, hx] at hwf ⊢
  refine ⟨⟨hwf, hcut, hshun, fun n => ?_, .inl (hdir ▸ hmade.isDir)⟩, hmade.isDir, fun ts hts n => ?_⟩
  · rw [hset, List.append_assoc, hmade.beyond _ not_append_prefix, ← List.append_assoc,
      shapeAt?_append_of_none hnone]
  · obtain ⟨z, hz, -, hsame⟩ := (Unmade.makeable henv hmakeable hnone hsize hts n).createDirs_through hnone
    obtain rfl : x = z := (Prod.mk.inj (hx.symm.trans hz)).2
    rw [List.append_assoc _ [_]]
    exact hsame

theorem Queue.capture_unmade (h : s.Queue w.files []) (hu : s.Unmade w.files) :
    s.capture env w root tag description required =
      s.capture env (w.withFiles (w.files.createDirs s.directory).2) root tag description required := by
  obtain ⟨hempty, -, hmake⟩ := hu.made henv h.tidy.wellFormed h.cut h.tidy.shuns
  have hnext : ∀ t, s.list t = [] → s.nextTimestamp? t = some 0 := by
    intro t ht
    rw [nextTimestamp?, latest?, ht]
    rfl
  have hcreate : w.files.createDirs (s.directory ++ [idOf (max (w.now env) 0) (w.freshId env)] ++ [filesName]) =
      (w.files.createDirs s.directory).2.createDirs
        (s.directory ++ [idOf (max (w.now env) 0) (w.freshId env)] ++ [filesName]) :=
    hmake _ (Nat.max_lt.2 ⟨henv.clock _, by decide⟩) w.draws
  have hfill : ∀ snapshot : Snapshot,
      s.fill env.checksum w.files root (s.directory ++ [idOf (max (w.now env) 0) (w.freshId env)]) required snapshot =
        s.fill env.checksum (w.files.createDirs s.directory).2 root
          (s.directory ++ [idOf (max (w.now env) 0) (w.freshId env)]) required snapshot := by
    intro snapshot
    rw [fill, fill, hcreate]
  have hplace : s.snapshotDir (idOf (max (w.now env) 0) (w.freshId env)) =
      s.directory ++ [idOf (max (w.now env) 0) (w.freshId env)] := snapshotDir_eq (noSlash_idOf (henv.hex _))
  have hnow : (w.withFiles (w.files.createDirs s.directory).2).now env = w.now env := rfl
  have hid : (w.withFiles (w.files.createDirs s.directory).2).freshId env = w.freshId env := rfl
  rw [capture, capture, hnext _ h.list_eq, hnow, hid]
  simp only [World.withFiles, hnext _ hempty.queue.list_eq, hplace, hfill]
  rfl

omit henv in
/-- What a project asks for is there when the directory of the store has been made. -/
theorem Project.made (hp : s.Project t root) (ht : t.WellFormed) (hcut : s.directory.IsCut) :
    s.Project (t.createDirs s.directory).2 root := by
  have hsame := sameWalk_createDirs (s := s) hp.rooted s.directory
  have hwf := ht.createDirs hcut
  refine ⟨hp.rooted.createDirs _, ⟨hwf, fun names c hw => hp.safe.keys names c ((hsame names c).1 hw)⟩, ?_⟩
  rw [hsame.sum_eq ht hwf]
  exact hp.bytes

theorem Queue.capture_ok (h : s.Queue w.files kept) (hp : s.Project w.files root)
    (hc : s.capture env w root tag description required = (.ok S, w')) : s.Queue w'.files (kept ++ [S]) := by
  rcases h.stands with hd | ⟨rfl, hu⟩
  · exact h.capture_made henv hd hp hc
  · obtain ⟨hempty, hd, -⟩ := hu.made henv h.tidy.wellFormed h.cut h.tidy.shuns
    rw [h.capture_unmade henv hu] at hc
    exact hempty.queue.capture_made henv hd (hp.made h.tidy.wellFormed h.cut) hc

theorem Queue.capture_error (h : s.Queue w.files kept) (hp : s.Project w.files root) {e : SnapshotError}
    (hc : s.capture env w root tag description required = (.error e, w')) : s.Queue w'.files kept := by
  rcases h.stands with hd | ⟨rfl, hu⟩
  · rw [(SnapshotStore.capture_error (h.poised henv hd hp) hc).1]
    exact h
  · obtain ⟨hempty, hd, -⟩ := hu.made henv h.tidy.wellFormed h.cut h.tidy.shuns
    rw [h.capture_unmade henv hu] at hc
    rw [(SnapshotStore.capture_error (hempty.queue.poised henv hd (hp.made h.tidy.wellFormed h.cut)) hc).1]
    exact hempty.queue

end Capture

/-! ## Evictions and creations -/

/-- An eviction takes the oldest snapshots beyond a number from the front of the queue, and nothing else goes. -/
theorem Queue.evict (h : s.Queue t kept) (keep : Nat) :
    ∃ e y, s.evict t keep = (.ok e, y) ∧ s.Queue y (kept.drop (kept.length - keep)) ∧
      e.removed = (kept.take (kept.length - keep)).map (·.id) ∧
      s.Cleared (kept.take (kept.length - keep)) t y := by
  obtain ⟨e, y, hy, htidy, hlist, hremoved, hcleared⟩ := h.tidy.evict_exact keep
  rw [h.list_eq] at hlist hremoved hcleared
  refine ⟨e, y, hy, ⟨htidy, h.cut, hlist, h.ordered.sublist (List.drop_sublist _ _),
    fun S hS => h.ids S (List.mem_of_mem_drop hS), fun n hn => ?_, ?_⟩, hremoved, hcleared⟩
  · have hstays : ∀ S ∈ kept.take (kept.length - keep), n ≠ S.id := by
      rintro S hS rfl
      exact hn (hcleared.absent S hS _ (List.prefix_refl _))
    have hthere : t.shapeAt? (s.directory.settled ++ [n]) ≠ none := by
      rwa [← hcleared.same _ fun S hS hp => ?_]
      rw [List.prefix_append_right_inj] at hp
      exact hstays S hS (List.cons_prefix_cons.1 hp).1.symm
    obtain ⟨S, hS, heq⟩ := h.entries n hthere
    rw [← List.take_append_drop (kept.length - keep) kept, List.mem_append] at hS
    exact ⟨S, hS.resolve_left fun hgone => hstays S hgone heq, heq⟩
  · rcases h.stands with hd | ⟨rfl, hu⟩
    · obtain ⟨hlead, hdir⟩ := isDir_eq_true.1 hd
      refine .inl (isDir_eq_true.2 ⟨hlead.congr fun a ha hshape => ?_, ?_⟩)
      · rw [hcleared.same _ fun S _ => h.tidy.shuns a S.id ha, hshape]
      · rw [hcleared.same _ fun S _ => not_append_prefix, hdir]
    · rw [evict_eq_self (by simp [h.list_eq])] at hy
      obtain rfl : t = y := (Prod.mk.inj hy).2
      exact .inr ⟨List.drop_nil, hu⟩

section Create

variable {w w' : World} {root : Location} {tag description : String} (henv : Regular env) (h : s.Queue w.files kept)
  (hp : s.Project w.files root)

include henv h hp

theorem Queue.create_ok (hc : s.create env w root tag description = (.ok S, w')) :
    s.Queue w'.files ((kept ++ [S]).drop ((kept ++ [S]).length - s.maxSnapshots)) := by
  rw [create] at hc
  cases hcap : s.capture env w root tag description [] with
  | mk result made =>
    rw [hcap] at hc
    cases result with
    | error e => cases hc
    | ok S' =>
      obtain ⟨e, y, hy, hqueue, -⟩ := (h.capture_ok henv hp hcap).evict s.maxSnapshots
      simp only [hy, Prod.mk.injEq, Except.ok.injEq] at hc
      obtain ⟨rfl, rfl⟩ := hc
      exact hqueue

theorem Queue.create_of_capture {made : World} (hcap : s.capture env w root tag description [] = (.ok S, made)) :
    ∃ w', s.create env w root tag description = (.ok S, w') := by
  obtain ⟨e, y, hy, -⟩ := (h.capture_ok henv hp hcap).evict s.maxSnapshots
  exact ⟨made.withFiles y, by simp only [create, hcap, hy]⟩

theorem Queue.create_error {e : SnapshotError} (hc : s.create env w root tag description = (.error e, w')) :
    s.Queue w'.files kept := by
  cases hcap : s.capture env w root tag description [] with
  | mk result made =>
    cases result with
    | error e' =>
      rw [create, hcap] at hc
      obtain ⟨-, rfl⟩ := Prod.mk.inj hc
      exact h.capture_error henv hp hcap
    | ok S' =>
      obtain ⟨w'', hok⟩ := h.create_of_capture henv hp hcap
      rw [hok] at hc
      cases hc

end Create

/-! ## Changes elsewhere -/

/-- Files that are changed, but not below the directory of a store nor on the way to it. -/
structure Elsewhere (s : SnapshotStore) (t x : Listing) : Prop where
  wellFormed : x.WellFormed
  below : ∀ n ns, x.shapeAt? (s.directory.settled ++ n :: ns) = t.shapeAt? (s.directory.settled ++ n :: ns)
  isDir : t.isDir s.directory = true → x.isDir s.directory = true
  unmade : s.Unmade t → s.Unmade x

theorem Queue.elsewhere (h : s.Queue t kept) (hx : s.Elsewhere t x) : s.Queue x kept := by
  rcases h.stands with hd | ⟨rfl, hu⟩
  · have hd' := hx.isDir hd
    obtain ⟨hlead, hdir⟩ := isDir_eq_true.1 hd
    obtain ⟨hlead', hdir'⟩ := isDir_eq_true.1 hd'
    have hsame : ∀ ns, x.shapeAt? (s.directory.settled ++ ns) = t.shapeAt? (s.directory.settled ++ ns) := by
      intro ns
      cases ns with
      | nil => rw [List.append_nil, hdir, hdir']
      | cons n ns => exact hx.below n ns
    have hload : ∀ id S, s.load x id = .ok S ↔ s.load t id = .ok S := fun id S =>
      ⟨load_congr hlead fun ns _ _ => (hsame ns).symm, load_congr hlead' fun ns _ _ => hsame ns⟩
    have htidy : s.Tidy x := ⟨hx.wellFormed, fun id S hS => h.tidy.named id S ((hload id S).1 hS), h.tidy.shuns⟩
    refine ⟨htidy, h.cut, ?_, h.ordered, h.ids, fun n hn => h.entries n (hsame [n] ▸ hn), .inl hd'⟩
    rw [← h.list_eq]
    refine htidy.list_eq h.tidy.nodup (list_pairwise s t) fun S => ?_
    simp only [mem_list, hload]
  · refine Empty.queue ⟨hx.wellFormed, h.cut, h.tidy.shuns, fun n => ?_, .inr (hx.unmade hu)⟩
    rw [hx.below n []]
    by_contra hthere
    obtain ⟨S, hS, -⟩ := h.entries n hthere
    cases hS

/-! ## Runs -/

/-- The worlds that calls on a store lead to from one where it is empty, each with the snapshots that have been created
and not yet evicted, in the order of their creation. Between the calls the files outside the store may change. -/
inductive Reached (s : SnapshotStore) (env : Surroundings) : World → List Snapshot → Prop where
  | start {w : World} : s.Empty w.files → Reached s env w []
  | elsewhere {w w' : World} {kept : List Snapshot} : Reached s env w kept → s.Elsewhere w.files w'.files →
      Reached s env w' kept
  | create {w w' : World} {kept : List Snapshot} {S : Snapshot} {root : Location} {tag description : String} :
      Reached s env w kept → s.Project w.files root → s.create env w root tag description = (.ok S, w') →
      Reached s env w' ((kept ++ [S]).drop ((kept ++ [S]).length - s.maxSnapshots))
  | createFails {w w' : World} {kept : List Snapshot} {e : SnapshotError} {root : Location} {tag description : String} :
      Reached s env w kept → s.Project w.files root → s.create env w root tag description = (.error e, w') →
      Reached s env w' kept
  | capture {w w' : World} {kept : List Snapshot} {S : Snapshot} {root : Location} {tag description : String}
      {required : List String} :
      Reached s env w kept → s.Project w.files root →
      s.capture env w root tag description required = (.ok S, w') → Reached s env w' (kept ++ [S])
  | captureFails {w w' : World} {kept : List Snapshot} {e : SnapshotError} {root : Location}
      {tag description : String} {required : List String} :
      Reached s env w kept → s.Project w.files root →
      s.capture env w root tag description required = (.error e, w') → Reached s env w' kept
  | evict {w : World} {kept : List Snapshot} {e : Eviction} {files : Listing} {keep : Nat} :
      Reached s env w kept → s.evict w.files keep = (.ok e, files) →
      Reached s env (w.withFiles files) (kept.drop (kept.length - keep))

theorem Reached.queue {w : World} (henv : Regular env) (h : s.Reached env w kept) : s.Queue w.files kept := by
  induction h with
  | start hempty => exact hempty.queue
  | elsewhere _ hx ih => exact ih.elsewhere hx
  | create _ hp hc ih => exact ih.create_ok henv hp hc
  | createFails _ hp hc ih => exact ih.create_error henv hp hc
  | capture _ hp hc ih => exact ih.capture_ok henv hp hc
  | captureFails _ hp hc ih => exact ih.capture_error henv hp hc
  | @evict w kept e files keep _ hev ih =>
    obtain ⟨e', y, hy, hqueue, -⟩ := ih.evict keep
    obtain rfl : y = files := (Prod.mk.inj (hy.symm.trans hev)).2
    exact hqueue

/-- What a store says of its snapshots and does with them, where so many are kept when one is created. -/
structure Succession (s : SnapshotStore) (env : Surroundings) (limit : Nat) (w : World) (kept : List Snapshot) :
    Prop where
  list_eq : s.list w.files = kept
  ordered : kept.Pairwise (·.timestamp < ·.timestamp)
  evict : ∀ keep, ∃ e y, s.evict w.files keep = (.ok e, y) ∧ s.list y = kept.drop (kept.length - keep) ∧
    e.removed = (kept.take (kept.length - keep)).map (·.id) ∧ s.Cleared (kept.take (kept.length - keep)) w.files y
  create : ∀ root tag description S w', s.Project w.files root → s.create env w root tag description = (.ok S, w') →
    s.list w'.files = (kept ++ [S]).drop (kept.length + 1 - limit) ∧ (s.list w'.files).length ≤ limit ∧
      S ∈ s.list w'.files ∧ s.latest? w'.files = some S
  capture : ∀ root tag description required S w', s.Project w.files root →
    s.capture env w root tag description required = (.ok S, w') → s.list w'.files = kept ++ [S]
  failed : ∀ root tag description required e w', s.Project w.files root →
    s.create env w root tag description = (.error e, w') ∨
      s.capture env w root tag description required = (.error e, w') → s.list w'.files = kept

/-- Whatever calls have been made, the list is the queue of the snapshots that are left, in the order of their creation;
a creation keeps the newest ones, itself among them, and an eviction takes the oldest ones only. -/
theorem succession_of_reached {directory : Location} {c : Config} {w : World}
    (hs : ofConfig directory c = .ok s) (henv : Regular env) (h : s.Reached env w kept) :
    s.Succession env (max 1 c.maxSnapshots) w kept := by
  obtain ⟨-, hlimit⟩ := ofConfig_eq_ok hs
  have hqueue := h.queue henv
  refine ⟨hqueue.list_eq, hqueue.ordered, fun keep => ?_, fun root tag description S w' hp hc => ?_,
    fun root tag description required S w' hp hc => (hqueue.capture_ok henv hp hc).list_eq,
    fun root tag description required e w' hp hc => ?_⟩
  · obtain ⟨e, y, hy, hleft, hremoved, hcleared⟩ := hqueue.evict keep
    exact ⟨e, y, hy, hleft.list_eq, hremoved, hcleared⟩
  · have hlist := (hqueue.create_ok henv hp hc).list_eq
    rw [hlimit, List.length_append, List.length_singleton] at hlist
    have hle : kept.length + 1 - max 1 c.maxSnapshots ≤ kept.length := by omega
    have hsplit : (kept ++ [S]).drop (kept.length + 1 - max 1 c.maxSnapshots) =
        kept.drop (kept.length + 1 - max 1 c.maxSnapshots) ++ [S] := List.drop_append_of_le_length hle
    refine ⟨hlist, ?_, ?_, ?_⟩
    · rw [hlist, List.length_drop, List.length_append, List.length_singleton]
      omega
    · rw [hlist, hsplit]
      simp
    · rw [latest?, hlist, hsplit, List.getLast?_concat]
  · exact (hc.elim (hqueue.create_error henv hp) (hqueue.capture_error henv hp)).list_eq

/-! ## A clock that runs backwards -/

theorem project_of_names {root : Location} (hd : t.isDir root = true) (hwf : t.WellFormed)
    (hnames : t.names.all (fun n => !n.toList.contains '\\') = true) (hbytes : t.totalBytes < timestampBound) :
    s.Project t root where
  rooted := .inl hd
  safe := Plain.safe ⟨hwf, fun names c hw => isPlain_of_names hnames (p := root.settled) (by simp [hw.isFile])⟩
  bytes := Nat.lt_of_le_of_lt (s.filter.sum_walkFiles_le t root) hbytes

/-- Surroundings whose clock runs backwards and whose fresh ids are all the same. -/
def backwards : Surroundings where
  grammars _ text := .refusal text
  contentHash bytes := Digest.hexText bytes.data.toList
  checksum bytes := Digest.hexText bytes.data.toList
  archives := .json
  process := 1
  clock n := 1000 - n
  freshId _ := "0f8fad5b"

/-- Settings that ask for no snapshots. -/
def frugal : Config := { Config.default with ignoreGlobs := [], maxSnapshots := 0 }

def tray : SnapshotStore :=
  ⟨["home", "backups"], ⟨frugal.extensions, frugal.skipDirs, [], fun key => ([] : List Glob).any (·.isMatch key)⟩,
    frugal.maxSnapshotFileBytes, 1⟩

/-- A project of one file, beside a home without a store. -/
def homely : Listing := .dir "work" (.file "a.js" "let a".toUTF8 .empty) (.dir "home" .empty .empty)

/-- An emergency snapshot in the home, and the world behind it. -/
def first : Except SnapshotError Snapshot × World := tray.capture backwards ⟨homely, 0, 0⟩ ["work"] "emergency" "" []

theorem unmade_homely : tray.Unmade homely := by
  refine ⟨["home"], ["backups"], rfl, ⟨by decide, ?_, ?_, by decide, fun front c hf => ?_⟩,
    by decide, by decide⟩
  · simp [GoesDown, isVoid]
  · decide
  · cases front with
    | nil =>
      have hdir : homely.isDir ["home"] = true := by decide
      rw [List.append_nil, (isDir_eq_true.1 hdir).2]
      simp
    | cons m rest =>
      obtain ⟨rfl, hrest⟩ := List.cons_prefix_cons.1 hf
      have hnone : homely.shapeAt? (settled ["home"] ++ ["backups"]) = none := by decide
      rw [List.prefix_nil.1 hrest, hnone]
      simp

theorem empty_homely : tray.Empty homely where
  wellFormed := by decide
  cut := by decide
  shuns := shuns_of_length_le (Nat.le_refl 2)
  absent n := by
    change homely.shapeAt? ["home", "backups", n] = none
    rw [homely, shapeAt?_dir_cons, if_neg (by decide), shapeAt?_dir_cons, if_pos rfl, shapeAt?_empty_cons]
  stands := .inr unmade_homely

theorem regular_backwards : Regular backwards where
  clock n := by
    have hbound : 1000 < timestampBound := by decide
    have hclock : backwards.clock n = 1000 - n := rfl
    omega
  hex n := by
    have hfresh : backwards.freshId n = "0f8fad5b" := rfl
    rw [hfresh]
    exact isHex_of_all (by decide)

/-- The clock is set back between two snapshots, and no more than one is kept. -/
theorem succession_backwards : ofConfig ["home", "backups"] frugal = .ok tray ∧
    ∃ S₁ S₂ w, first = (.ok S₁, first.2) ∧ tray.create backwards first.2 ["work"] "manual" "" = (.ok S₂, w) ∧
      S₁.timestamp = 1000 ∧ S₂.timestamp = 1001 ∧ tray.Reached backwards w [S₂] ∧
      tray.Succession backwards 1 w [S₂] := by
  have hconfig : ofConfig ["home", "backups"] frugal = .ok tray := rfl
  have hstamps : (first.1.toOption.map (·.timestamp),
      (tray.capture backwards first.2 ["work"] "manual" "" []).1.toOption.map (·.timestamp)) =
      (some 1000, some 1001) := by decide +kernel
  have hproject : tray.Project homely ["work"] := project_of_names (by decide) (by decide)
    (by decide) (by decide)
  have hproject' : tray.Project first.2.files ["work"] := project_of_names (by decide +kernel) (by decide +kernel)
    (by decide +kernel) (by decide +kernel)
  obtain ⟨h1, h2⟩ := Prod.mk.inj hstamps
  cases hfirst : first with
  | mk result w₁ =>
    rw [hfirst] at h1 h2 hproject'
    cases result with
    | error e => cases h1
    | ok S₁ =>
      have hreached : tray.Reached backwards w₁ [S₁] := .capture (.start empty_homely) hproject hfirst
      cases hsecond : tray.capture backwards w₁ ["work"] "manual" "" [] with
      | mk result w₂ =>
        rw [hsecond] at h2
        cases result with
        | error e => cases h2
        | ok S₂ =>
          obtain ⟨w, hcreate⟩ := (hreached.queue regular_backwards).create_of_capture regular_backwards hproject' hsecond
          have hlast : tray.Reached backwards w [S₂] := .create hreached hproject' hcreate
          exact ⟨hconfig, S₁, S₂, w, rfl, hcreate, Option.some.inj h1, Option.some.inj h2, hlast,
            succession_of_reached hconfig regular_backwards hlast⟩

end SnapshotStore

end TreeRepair
