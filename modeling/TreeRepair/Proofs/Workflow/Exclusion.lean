import TreeRepair.Proofs.Workflow.Separation

/-! Opening a session in a project that holds its home. The home is made before its place is looked up, so that it is
found; and it is never walked if it lies below the root and the place of the root was known before. -/

set_option autoImplicit false

namespace TreeRepair

open Location Listing

/-! ## Places below a root -/

namespace Location

variable {l : Location}

theorem settled_of_noUp (h : ".." ∉ l) : l.settled = l.components :=
  Key.settleFrom_of_noUp (fun _ hp heq => h (heq ▸ hp)) []

theorem components_settled (l : Location) : components l.settled = l.settled :=
  Key.components_of_goesDown fun _ hn => (mem_of_mem_settled hn).2

theorem noUp_settled (l : Location) : ".." ∉ l.settled := fun h => (mem_of_mem_settled h).2.2 rfl

theorem IsCut.settled (h : l.IsCut) : IsCut l.settled := fun _ hn => h _ (mem_of_mem_settled hn).1

theorem shuns_of_noUp {d : List String} (hup : ".." ∉ l) (hlen : l.settled.length ≤ d.length) : l.Shuns d := by
  -- without a step up, each front settles to at most as many names as the whole
  intro a n ha hp
  have hup' : ".." ∉ a := fun hmem => hup (ha.subset hmem)
  rw [settled_of_noUp hup'] at hp
  rw [settled_of_noUp hup] at hlen
  have hfront : (components a).length ≤ l.components.length := (ha.filter _).length_le
  have hback := hp.length_le
  rw [List.length_append, List.length_singleton] at hback
  omega

end Location

theorem SourceFilter.not_enters_of_excluded {f : SourceFilter} {root place : Location} {names rest : List String}
    (hmem : place ∈ f.excluded) (hplace : place.components = root.components ++ components names) (hne : names ≠ [])
    (hrest : rest ≠ []) : ¬ f.Enters root [] (names ++ rest) := by
  intro he
  obtain ⟨front, last, rfl⟩ := (List.eq_nil_or_concat' names).resolve_left hne
  have hopen := he front last (List.prefix_append _ _) fun heq => hrest (List.append_right_eq_self.1 heq.symm)
  have hsame : place.same (root ++ ([] ++ front ++ [last])) = true := by
    rw [same, hplace, List.nil_append, beq_iff_eq]
    exact (List.filter_append ..).symm
  rw [prunes, Bool.or_eq_false_iff, List.any_eq_false] at hopen
  exact hopen.2 place hmem hsame

/-! ## Making a home -/

namespace Listing

theorem isDir_createDirs {t : Listing} {l : Location} (h : t.isDir l = true) (m : Location) :
    (t.createDirs m).2.isDir l = true := by
  obtain ⟨hlead, hdir⟩ := isDir_eq_true.1 h
  exact isDir_eq_true.2 ⟨hlead.mono fun _ => shapeAt?_createDirs_dir, shapeAt?_createDirs_dir hdir⟩

end Listing

namespace Home

variable {h : Home} {t x : Listing} {P : List String → ByteArray → Prop}

theorem isDir_of_makeAll {ls : List Location} (hm : makeAll ls t = (.ok (), x)) :
    (∀ l, t.isDir l = true → x.isDir l = true) ∧ ∀ l ∈ ls, x.isDir l = true := by
  induction ls generalizing t with
  | nil =>
    obtain rfl := (Prod.mk.inj hm).2
    exact ⟨fun _ hl => hl, fun _ hl => nomatch hl⟩
  | cons l rest ih =>
    rw [makeAll] at hm
    split at hm
    · cases hm
    · rename_i made hcd
      obtain ⟨hkeep, hrest⟩ := ih hm
      refine ⟨fun m hd => hkeep m ?_, List.forall_mem_cons.2 ⟨hkeep l (isDir_of_createDirs hcd), hrest⟩⟩
      have hleft := isDir_createDirs hd l
      rwa [hcd] at hleft

theorem makeAll_eachFile {ls : List Location} (hcut : ∀ l ∈ ls, l.IsCut) (ht : t.EachFile P) :
    (makeAll ls t).2.EachFile P := by
  induction ls generalizing t with
  | nil => exact ht
  | cons l rest ih =>
    have hmade := ht.createDirs (hcut l (List.mem_cons_self ..))
    rw [makeAll]
    split
    · rename_i hcd
      rwa [hcd] at hmade
    · rename_i hcd
      rw [hcd] at hmade
      exact ih (fun m hm => hcut m (List.mem_cons_of_mem l hm)) hmade

theorem isDir_of_ensure (he : h.ensure t = (.ok (), x)) : x.isDir h.root = true := by
  have hcache := (isDir_of_makeAll he).2 h.cache (List.mem_cons_self ..)
  rw [h.cache_eq] at hcache
  obtain ⟨⟨hc, hpass⟩, -⟩ := isDir_eq_true.1 hcache
  have hparts := Passable.append.1 hpass
  exact isDir_eq_true.2 ⟨⟨checkPath_of_append hc, hparts.1⟩, hparts.2.1⟩

theorem ensure_eachFile (hcut : h.root.IsCut) (ht : t.EachFile P) : (h.ensure t).2.EachFile P :=
  makeAll_eachFile (by simpa using ⟨hcut.join _, hcut.join _, hcut.join _⟩) ht

end Home

namespace Site

variable {w w' : World} {here place : Location} {root home : String} {o : Opened} {t : Listing}

/-! ## What is excluded -/

/-- A root whose place is known: it is there, or its path is absolute and never goes up. -/
def Traceable (t : Listing) (here : Location) (root : String) : Prop :=
  (∃ there, t.canonicalPath here root = .ok there) ∨ root.startsWith "/" = true ∧ ".." ∉ here.join root

/-- The place of a root: where it is, or else where its path points. -/
def rootPlace (t : Listing) (here : Location) (root : String) : Location :=
  (t.canonicalPath here root).toOption.getD (here.join root)

theorem isCut_rootPlace (hcut : here.IsCut) : (rootPlace t here root).IsCut := by
  unfold rootPlace
  cases hfound : t.canonicalPath here root with
  | error fault => exact hcut.join root
  | ok there => exact canonicalPath_eq_ok hfound ▸ (hcut.join root).settled

theorem Traceable.noUp (h : Traceable t here root) : ".." ∉ rootPlace t here root := by
  unfold rootPlace
  cases hfound : t.canonicalPath here root with
  | error fault =>
    rcases h with ⟨there, hthere⟩ | ⟨-, hup⟩
    · rw [hfound] at hthere
      cases hthere
    · exact hup
  | ok there => exact canonicalPath_eq_ok hfound ▸ noUp_settled _

/-- What lies below a root with a known place counts as inside. -/
theorem Traceable.isInside (h : Traceable t here root) (hbelow : (rootPlace t here root).settled <+: place.components) :
    isInside (t.canonicalPath here root) here root place = true := by
  rw [settled_of_noUp h.noUp] at hbelow
  unfold rootPlace at hbelow
  cases hfound : t.canonicalPath here root with
  | error fault =>
    rw [hfound] at hbelow
    rcases h with ⟨there, hthere⟩ | ⟨habs, -⟩
    · rw [hfound] at hthere
      cases hthere
    · exact Bool.and_eq_true_iff.2 ⟨habs, List.isPrefixOf_iff_prefix.2 hbelow⟩
  | ok there =>
    rw [hfound] at hbelow
    exact List.isPrefixOf_iff_prefix.2 hbelow

/-- A home that is there is excluded if it lies inside the root. -/
theorem excludeHome_eq {config : Config} {files : Listing} {found : Except FileFault Location} (hne : home ≠ "")
    (hdir : files.isDir (here.join home) = true) (hin : isInside found here root (here.join home).settled = true) :
    excludeHome config files found here root home =
      { config with excludedDirs := config.excludedDirs ++ [(here.join home).settled] } := by
  unfold excludeHome
  simp only [canonicalPath_of_isDir hne hdir, hin, if_true]

/-! ## What is opened -/

theorem excluded_of_filter {config : Config} {f : SourceFilter} (h : config.filter = .ok f) :
    f.excluded = config.excludedDirs := by
  unfold Config.filter at h
  split at h
  · cases h
  · rw [← Except.ok.inj h]

/-- The parts of an opened session. -/
theorem of_assemble {config : Config} {rootText homeText : String} {home : Home} {place : Location}
    (h : assemble config w place rootText homeText home = .ok o) :
    config.filter = .ok o.site.filter ∧ SnapshotStore.ofConfig home.backups config = .ok o.site.store ∧
      o.site.root = place ∧ o.bench.world.files = (w.files.createDirs home.cache).2 := by
  unfold assemble at h
  split at h
  · cases h
  · rename_i cache files hcache
    split at h
    · cases h
    · split at h
      · rename_i store filter hstore hfilter
        rw [← Except.ok.inj h]
        refine ⟨hfilter, hstore, rfl, ?_⟩
        unfold ParseCache.openAt at hcache
        split at hcache
        · cases hcache
        · rename_i hcd
          rw [hcd, ← (Prod.mk.inj (Except.ok.inj hcache)).2]
          rfl
      · cases h
      · cases h

/-- The stages of opening a session: the home is made, and what is excluded follows from where it is then. -/
theorem of_openSite (h : openSite w here root home = (.ok o, w')) :
    ∃ config rootText, Home.ensure ⟨here.join home⟩ w.files = (.ok (), w'.files) ∧
      assemble (excludeHome config w'.files (w.files.canonicalPath here root) here root home) w'
        (rootPlace w.files here root) rootText home ⟨here.join home⟩ = .ok o := by
  unfold openSite at h
  simp only at h
  split at h
  · cases h
  · rename_i config _
    split at h
    · cases h
    · rename_i files hensure
      obtain ⟨hopened, rfl⟩ := Prod.mk.inj h
      exact ⟨config, _, hensure, hopened⟩

theorem filter_of_ofConfig {config : Config} {directory : Location} {store : SnapshotStore} {f : SourceFilter}
    (hf : config.filter = .ok f) (h : SnapshotStore.ofConfig directory config = .ok store) : store.filter = f := by
  unfold SnapshotStore.ofConfig at h
  rw [hf] at h
  rw [← Except.ok.inj h]

theorem openSite_fitted (hcut : here.IsCut) (hopen : openSite w here root home = (.ok o, w')) (hne : home ≠ "")
    (hroot : Traceable w.files here root) {n : String} {ns : List String}
    (hbelow : (here.join home).settled = o.site.root.settled ++ n :: ns) : o.site.Fitted ⟨here.join home⟩ := by
  obtain ⟨config, rootText, hensure, hopened⟩ := of_openSite hopen
  obtain ⟨hfilter, hstore, hplace, -⟩ := of_assemble hopened
  obtain ⟨hdirectory, hkeeps⟩ := SnapshotStore.ofConfig_eq_ok hstore
  have hup : ".." ∉ o.site.root := hplace ▸ hroot.noUp
  have hprefix : (rootPlace w.files here root).settled <+: components (here.join home).settled := by
    rw [components_settled, hbelow, ← hplace]
    exact List.prefix_append _ _
  have hinside := hroot.isInside hprefix
  rw [excludeHome_eq hne (Home.isDir_of_ensure hensure) hinside] at hfilter
  have hexcluded : (here.join home).settled ∈ o.site.filter.excluded := by
    rw [excluded_of_filter hfilter]
    exact List.mem_append_right _ (List.mem_singleton_self _)
  refine ⟨hdirectory, filter_of_ofConfig ?_ hstore, hkeeps ▸ Nat.le_max_left .., hplace ▸ isCut_rootPlace hcut,
    hcut.join home, fun names m ms he heq => ?_, shuns_of_noUp hup ?_⟩
  · rwa [excludeHome_eq hne (Home.isDir_of_ensure hensure) hinside]
  · -- a way below the home goes through the home itself, which lies properly below the root
    rw [hbelow, List.append_assoc] at heq
    obtain rfl := List.append_cancel_left heq
    refine SourceFilter.not_enters_of_excluded hexcluded ?_ (List.cons_ne_nil n ns) (List.cons_ne_nil m ms) he
    have hgo : ∀ k ∈ n :: ns, GoesDown k := fun k hk =>
      (mem_of_mem_settled (l := here.join home) (hbelow ▸ List.mem_append_right _ hk)).2
    rw [components_settled, hbelow, Key.components_of_goesDown hgo, settled_of_noUp hup]
  · rw [hdirectory, Home.settled_backups]
    change o.site.root.settled.length ≤ ((here.join home).settled ++ [Home.backupsName]).length
    rw [hbelow, List.length_append, List.length_append]
    omega

theorem openSite_eachFile {P : List String → ByteArray → Prop} (hcut : here.IsCut)
    (hopen : openSite w here root home = (.ok o, w')) (hw : w.files.EachFile P) : o.bench.world.files.EachFile P := by
  obtain ⟨config, rootText, hensure, hopened⟩ := of_openSite hopen
  obtain ⟨-, -, -, hfiles⟩ := of_assemble hopened
  have hmade : w'.files.EachFile P := by
    have hleft := Home.ensure_eachFile (h := ⟨here.join home⟩) (hcut.join home) hw
    rwa [hensure] at hleft
  rw [hfiles]
  exact hmade.createDirs ((hcut.join home).join _)

end Site

end TreeRepair
