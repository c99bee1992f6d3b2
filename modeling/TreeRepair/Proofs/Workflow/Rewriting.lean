import TreeRepair.Proofs.Text.Decoding
import TreeRepair.Proofs.Workflow.Order
import TreeRepair.Proofs.Workflow.Repairs

/-! Files that are fixed one after another. A file is written by way of a draft beside it, which leaves all other
files as they are; so each file of a run ends with the text that its last accepted repair has given out. -/

set_option autoImplicit false

namespace TreeRepair

open Location Listing

namespace Site

open Registry (Bench Housed Worked Recorded Judges)

variable {s : Site} {env : Surroundings} {home : Home} {t x : Listing}

/-! ## Replacing a file -/

theorem toList_draftName (process : Nat) (name : String) :
    (draftName process name).toList = '.' :: (name.toList ++ ".warden-tmp-".toList ++ (toString process).toList) := by
  simp [draftName]

theorem goesDown_draftName (process : Nat) (name : String) : GoesDown (draftName process name) := by
  refine goesDown_of_length ?_
  have htmp : ".warden-tmp-".toList.length = 12 := by decide
  rw [toList_draftName, List.length_cons, List.length_append, List.length_append]
  omega

theorem notMem_draftName {process : Nat} {name : String} {c : Char} (hc : c = '/' ∨ c = '\\') (h : c ∉ name.toList) :
    c ∉ (draftName process name).toList := by
  rw [toList_draftName, List.mem_cons, List.mem_append, List.mem_append, not_or, not_or, not_or]
  rcases hc with rfl | rfl <;> exact ⟨by decide, ⟨h, by decide⟩, ParseCache.notMem_toString (by decide) process⟩

theorem draftName_ne (process : Nat) (name : String) : draftName process name ≠ name := by
  intro heq
  have hlen := congrArg (fun text => text.toList.length) heq
  simp only [toList_draftName, List.length_cons, List.length_append] at hlen
  omega

theorem draft_eq {n : String} (hn : GoesDown n) (process : Nat) (base : Location) :
    (base ++ [n]).parent ++ [draftName process ((base ++ [n]).components.getLastD "")] =
      base.components ++ [draftName process n] := by
  have hlast : (base ++ [n]).components.getLastD "" = n := by
    simp [components, hn.1]
  rw [parent_append_name hn, hlast]

theorem settled_draft (process : Nat) (n : String) (base : Location) :
    settled (base.components ++ [draftName process n]) = base.settled ++ [draftName process n] := by
  rw [settled_append_names (by simpa using goesDown_draftName process n), settled_components]

theorem isCut_draft {base : Location} {n : String} (hcut : base.IsCut) (hs : '/' ∉ n.toList) (process : Nat) :
    Location.IsCut (base.components ++ [draftName process n]) := by
  intro p hp
  rcases List.mem_append.1 hp with hp | hp
  · exact hcut p (List.mem_of_mem_filter hp)
  · rw [List.mem_singleton.1 hp]
    exact notMem_draftName (.inl rfl) hs

/-- A file is replaced by writing a draft beside it and renaming the draft: the draft is gone behind it, the file has
its content, and all else looks as before. -/
theorem replaceFile_eq_ok {process : Nat} {base : Location} {n : String} {content : ByteArray} (hn : IsName n)
    (h : replaceFile process t (base ++ [n]) content = (.ok (), x)) :
    ∃ written, t.write (base.components ++ [draftName process n]) content = .ok written ∧
      written.rename (base.components ++ [draftName process n]) (base ++ [n]) = .ok x ∧
      t.shapeAt? (base.settled ++ [draftName process n]) ≠ some .dir ∧
      ∀ q, x.shapeAt? q = if q = base.settled ++ [draftName process n] then none else
        if q = base.settled ++ [n] then some (.file content) else t.shapeAt? q := by
  have hplace : settled (base ++ [n]) = base.settled ++ [n] := settled_append_names (by simpa using hn.goesDown) base
  unfold replaceFile at h
  simp only [draft_eq hn.goesDown] at h
  cases hw : t.write (base.components ++ [draftName process n]) content with
  | error fault => simp [hw] at h
  | ok written =>
    simp only [hw] at h
    cases hr : written.rename (base.components ++ [draftName process n]) (base ++ [n]) with
    | error fault => simp [hr] at h
    | ok moved =>
      simp only [hr, Prod.mk.injEq, true_and] at h
      subst h
      have hwrite := shapeAt?_write hw
      have hrename := shapeAt?_rename hr
      have hnodir := (write_eq_ok hw).2.2.1
      simp only [settled_draft, hplace] at hwrite hrename hnodir
      refine ⟨written, rfl, hr, hnodir, fun q => ?_⟩
      rw [hrename, hwrite, hwrite, if_pos rfl]
      split
      · rfl
      · rfl

/-- A file that is replaced gets its content, and no other file changes. -/
theorem replaceFile_ok {process : Nat} {base : Location} {n : String} {old content : ByteArray} (hcut : base.IsCut)
    (hn : IsName n) (hold : t.shapeAt? (base.settled ++ [n]) = some (.file old))
    (hnew : ∀ c, t.shapeAt? (base.settled ++ [draftName process n]) ≠ some (.file c))
    (h : replaceFile process t (base ++ [n]) content = (.ok (), x)) :
    SameFiles (· = base.settled ++ [n]) t x ∧ x.shapeAt? (base.settled ++ [n]) = some (.file content) := by
  obtain ⟨written, hw, hr, hnodir, hshape⟩ := replaceFile_eq_ok hn h
  have hne : base.settled ++ [n] ≠ base.settled ++ [draftName process n] := by
    intro heq
    exact draftName_ne process n (by simpa using heq.symm)
  refine ⟨⟨fun q c hq => ?_, fun q hq => ?_, fun ht => ?_⟩, by rw [hshape, if_neg hne, if_pos rfl]⟩
  · rw [hshape, if_neg hq]
    split
    · rename_i heq
      rw [heq]
      simp [hnew c]
    · rfl
  · rw [hshape, if_neg, if_neg, hq]
    · rintro rfl
      simp [hold] at hq
    · rintro rfl
      exact hnodir hq
  · exact (ht.write (isCut_draft hcut hn.noSlash process) hw).rename (hcut.append_name hn.noSlash) hr

/-! ## One file -/

/-- The places where files may have changed when files with some keys have been written. -/
def Touched (s : Site) (home : Home) (keys : List String) (q : List String) : Prop :=
  home.Scratch q ∨ ∃ key ∈ keys, q = (s.root.join key).settled

/-- A file that rules have been applied to, with its text before, the unit of that text and the draft behind the
rules. -/
structure Mended (s : Site) (env : Surroundings) (rules : List Rule) (t x : Listing) (key : String) (os : List Outcome)
    (text : String) (u : ParsedUnit) (last : Draft) : Prop where
  before : t.shapeAt? (s.root.join key).settled = some (.file text.toUTF8)
  inStep : Draft.InStep ⟨text, u⟩ env key
  repairs : Repairs env rules key ⟨text, u⟩ os last
  after : x.shapeAt? (s.root.join key).settled = some (.file last.source.toUTF8)

/-- What fixing one file that holds a text does: it has outcomes, and it writes the file if its text has changed. -/
structure Advanced (s : Site) (home : Home) (env : Surroundings) (f : Fixed) (key : String) (os : List Outcome)
    (written : List String) (f' : Fixed) : Prop where
  outcomes : f'.outcomes = f.outcomes ++ os
  written_eq : f'.written = f.written ++ written
  only : ∀ key' ∈ written, key' = key
  housed : Housed home f'.bench
  rules : f'.bench.registry.rules = f.bench.registry.rules
  records : ∃ rs, f'.bench.registry.ledger.records = f.bench.registry.ledger.records ++ rs ∧ List.Forall₂ Recorded os rs
  files : SameFiles (s.Touched home written) f.bench.world.files f'.bench.world.files
  mended : ∃ text u last, Mended s env f.bench.registry.rules f.bench.world.files f'.bench.world.files key os text u last ∧
    (key ∈ written ↔ last.source ≠ text)

section Place

variable {key : String} {names : List String} (hk : s.store.Spells s.root key names)

include hk

theorem join_of_spells : s.root.join key = s.root ++ names := by
  rw [hk.key_eq, Key.join_ofNames hk.ne_nil hk.isName hk.plain]

theorem settled_of_spells : (s.root.join key).settled = s.root.settled ++ names := by
  rw [join_of_spells hk, settled_append_names hk.goesDown]

theorem front_of_spells (hcut : s.root.IsCut) : ∃ front n, names = front ++ [n] ∧ IsName n ∧
    Location.IsCut (s.root ++ front) ∧ settled (s.root ++ front) = s.root.settled ++ front ∧
    s.root.join key = s.root ++ front ++ [n] := by
  obtain ⟨front, n, rfl⟩ : ∃ front n, names = front ++ [n] :=
    ⟨_, _, (List.dropLast_append_getLast hk.ne_nil).symm⟩
  have hfront : ∀ m ∈ front, IsName m := fun m hm => hk.isName m (List.mem_append_left _ hm)
  refine ⟨front, n, rfl, hk.isName n (by simp), fun p hp => ?_,
    settled_append_names (fun m hm => (hfront m hm).goesDown) s.root, ?_⟩
  · exact (List.mem_append.1 hp).elim (hcut p) fun hm => (hfront p hm).noSlash
  · rw [join_of_spells hk, List.append_assoc]

theorem eq_of_place_eq {key' : String} {names' : List String} (hk' : s.store.Spells s.root key' names')
    (h : (s.root.join key).settled = (s.root.join key').settled) : key = key' := by
  rw [settled_of_spells hk, settled_of_spells hk'] at h
  rw [hk.key_eq, hk'.key_eq, List.append_cancel_left h]

end Place

theorem readText_eq_ok {l : Location} {text : String} (h : t.readText l = .ok text) :
    t.shapeAt? l.settled = some (.file text.toUTF8) := by
  unfold readText at h
  cases hread : t.read l with
  | error fault => simp [hread] at h
  | ok bytes =>
    simp only [hread] at h
    cases htext : String.fromUTF8? bytes with
    | none => simp [htext] at h
    | some text' =>
      simp only [htext, Except.ok.injEq] at h
      subst h
      rw [Text.toUTF8_of_fromUTF8? htext]
      exact (read_eq_ok.1 hread).2

/-- Replacing a file of the project leaves the session's own files and all others. -/
theorem replaceFile_touched {key : String} {names : List String} {old content : ByteArray} (hf : s.Fitted home)
    (ho : s.Ordered home env t) (hk : s.store.Spells s.root key names)
    (hold : t.shapeAt? (s.root.join key).settled = some (.file old))
    (h : replaceFile env.process t (s.root.join key) content = (.ok (), x)) :
    SameFiles (s.Touched home [key]) t x ∧ x.shapeAt? (s.root.join key).settled = some (.file content) := by
  have hplace := settled_of_spells hk
  have henters := hk.enters
  rw [hf.filter] at henters
  obtain ⟨front, n, rfl, hn, hcut, hfront, hjoin⟩ := front_of_spells hk hf.cut
  rw [← List.append_assoc, ← hfront] at hplace
  rw [hjoin] at h
  rw [hplace] at hold ⊢
  have hnew : ∀ c, t.shapeAt? (settled (s.root ++ front) ++ [draftName env.process n]) ≠ some (.file c) := by
    rw [hfront, List.append_assoc]
    exact ho.no_draft hf henters n
  obtain ⟨hsame, hfile⟩ := replaceFile_ok hcut hn hold hnew h
  exact ⟨hsame.mono fun q hq => .inr ⟨key, List.mem_singleton_self key, hq.trans hplace.symm⟩, hfile⟩

/-- A file that is fixed has its outcomes, and is written if its text has changed; one that holds no text is passed
over. -/
theorem fixFile_spec {f f' : Fixed} {key : String} {names : List String} (hf : s.Fitted home)
    (ho : s.Ordered home env f.bench.world.files) (hh : Housed home f.bench) (hk : s.store.Spells s.root key names)
    (h : s.fixFile env f key = (.ok (), f')) : f' = f ∨ ∃ os written, Advanced s home env f key os written f' := by
  unfold fixFile at h
  simp only at h
  cases hread : f.bench.world.files.readText (s.root.join key) with
  | error fault =>
    rw [hread] at h
    exact .inl (Prod.mk.inj h).2.symm
  | ok text =>
    simp only [hread] at h
    have hfile := readText_eq_ok hread
    obtain ⟨hkey, hperused⟩ := hh.parse env key text
    generalize f.bench.host.parse env f.bench.world.files key text = parsed at h hkey hperused
    obtain ⟨hrepairs, hrules⟩ := applyRules_spec env key
      (f.bench.registry.rules.map (·.id)) ⟨text, parsed.unit⟩ _ hperused.housed
    generalize applyRules env key (f.bench.registry.rules.map (·.id)) ⟨text, parsed.unit⟩
      ⟨f.bench.registry, parsed.host, f.bench.world.withFiles parsed.files⟩ = applied at h hrepairs hrules
    obtain ⟨os, last, b⟩ := applied
    dsimp only at h
    have hworked : Worked home f.bench os b := hperused.worked.trans hrules
    have hplace := settled_of_spells hk
    have henters := hk.enters
    rw [hf.filter] at henters
    have hsame : b.world.files.shapeAt? (s.root.join key).settled = some (.file text.toUTF8) := by
      rwa [hworked.files.files _ _ (by rw [hplace]; exact hf.not_scratch henters)]
    have htouched : ∀ ks, SameFiles (s.Touched home ks) f.bench.world.files b.world.files := fun _ =>
      hworked.files.mono fun _ hq => .inl hq
    refine .inr ⟨os, if last.source = text then [] else [key], ?_⟩
    split at h
    · rename_i heq
      obtain rfl := (Prod.mk.inj h).2
      rw [if_pos heq]
      refine ⟨rfl, by simp, by simp, hworked.housed, hworked.rules, hworked.records, htouched _, text, parsed.unit, last,
        ⟨hfile, hkey, hrepairs, by rw [heq]; exact hsame⟩, by simp [heq]⟩
    · rename_i hne
      rw [if_neg hne]
      have ho' : s.Ordered home env b.world.files := ho.sameFiles hf hworked.files fun q hq => .inl hq
      cases hr : replaceFile env.process b.world.files (s.root.join key) last.source.toUTF8 with
      | mk res files =>
        rw [hr] at h
        cases res with
        | error fault => simp at h
        | ok u =>
          obtain rfl := (Prod.mk.inj h).2
          obtain ⟨hreplaced, hnew⟩ := replaceFile_touched hf ho' hk hsame hr
          refine ⟨rfl, rfl, by simp, ⟨hh.cut, hworked.housed.cache, hworked.housed.ledger, hworked.housed.named⟩,
            hworked.rules, hworked.records, (htouched _).trans hreplaced, text, parsed.unit, last,
            ⟨hfile, hkey, hrepairs, hnew⟩, by simp [hne]⟩

/-! ## One file after another -/

/-- The outcomes of attempts at a file. -/
def outcomesOf (key : String) (os : List Outcome) : List Outcome := os.filter (·.file == key)

theorem outcomesOf_append (key : String) (os os' : List Outcome) :
    outcomesOf key (os ++ os') = outcomesOf key os ++ outcomesOf key os' := List.filter_append ..

theorem outcomesOf_eq_nil {key : String} {os : List Outcome} (h : ∀ o ∈ os, o.file ≠ key) : outcomesOf key os = [] := by
  refine List.filter_eq_nil_iff.2 fun o ho => ?_
  simpa using h o ho

theorem outcomesOf_eq_self {key : String} {os : List Outcome} (h : ∀ o ∈ os, o.file = key) : outcomesOf key os = os :=
  List.filter_eq_self.2 fun o ho => by simpa using h o ho

/-- What has come of fixing files with some keys, beginning with a bench. -/
structure Fixing (s : Site) (home : Home) (env : Surroundings) (b : Bench) (keys : List String) (f : Fixed) : Prop where
  housed : Housed home f.bench
  rules : f.bench.registry.rules = b.registry.rules
  records : ∃ rs, f.bench.registry.ledger.records = b.registry.ledger.records ++ rs ∧
    List.Forall₂ Recorded f.outcomes rs
  written : ∀ key ∈ f.written, key ∈ keys
  outcomes : ∀ o ∈ f.outcomes, o.file ∈ keys
  files : SameFiles (s.Touched home f.written) b.world.files f.bench.world.files
  mended : ∀ key ∈ keys, outcomesOf key f.outcomes = [] ∧ key ∉ f.written ∨
    ∃ text u last, Mended s env b.registry.rules b.world.files f.bench.world.files key (outcomesOf key f.outcomes)
      text u last ∧ (key ∈ f.written ↔ last.source ≠ text)

section Fixing

variable {b : Bench} {keys : List String} {f f' : Fixed}

theorem Fixing.start (h : Housed home b) : Fixing s home env b [] ⟨[], [], b⟩ where
  housed := h
  rules := rfl
  records := ⟨[], by rw [List.append_nil], .nil⟩
  written key hkey := nomatch hkey
  outcomes o ho := nomatch ho
  files := .refl _ _
  mended key hkey := nomatch hkey

/-- A file with outcomes or with new content had a text at first. -/
theorem Fixing.before (h : Fixing s home env b keys f) {key : String} (hkey : key ∈ f.written) :
    ∃ c, b.world.files.shapeAt? (s.root.join key).settled = some (.file c) := by
  rcases h.mended key (h.written key hkey) with ⟨-, hnot⟩ | ⟨text, u, last, hm, -⟩
  · exact absurd hkey hnot
  · exact ⟨_, hm.before⟩

variable (hf : s.Fitted home) (ho : s.Ordered home env b.world.files)

include hf

theorem touched_iff {ks : List String} {key : String} {names : List String}
    (hspells : ∀ k ∈ ks, ∃ names, s.store.Spells s.root k names) (hk : s.store.Spells s.root key names) :
    s.Touched home ks (s.root.join key).settled ↔ key ∈ ks := by
  constructor
  · rintro (hs | ⟨k, hkey, heq⟩)
    · rw [settled_of_spells hk] at hs
      have henters := hk.enters
      rw [hf.filter] at henters
      exact absurd hs (hf.not_scratch henters)
    · obtain ⟨ns, hns⟩ := hspells k hkey
      rwa [eq_of_place_eq hk hns heq]
  · exact fun hkey => .inr ⟨key, hkey, rfl⟩

section Advanced

variable {key : String} {names : List String} {os : List Outcome} {written : List String}
  (h : Fixing s home env b keys f) (hspells : ∀ k ∈ keys, ∃ names, s.store.Spells s.root k names)
  (hk : s.store.Spells s.root key names) (hnew : key ∉ keys) (hadv : Advanced s home env f key os written f')

include h hspells hk hnew hadv

theorem Fixing.mended_earlier {k : String} (hmem : k ∈ keys) : outcomesOf k f'.outcomes = [] ∧ k ∉ f'.written ∨
    ∃ text u last, Mended s env b.registry.rules b.world.files f'.bench.world.files k (outcomesOf k f'.outcomes)
      text u last ∧ (k ∈ f'.written ↔ last.source ≠ text) := by
  obtain ⟨_, _, _, hm₀, -⟩ := hadv.mended
  obtain ⟨names', hk'⟩ := hspells k hmem
  have hne : k ≠ key := fun heq => hnew (heq ▸ hmem)
  have hout : k ∉ written := fun hw => hne (hadv.only k hw)
  have hwritten : ∀ k ∈ written, ∃ names, s.store.Spells s.root k names := fun k hw => hadv.only k hw ▸ ⟨names, hk⟩
  have hnone : outcomesOf k os = [] := outcomesOf_eq_nil fun o ho heq => hne (heq.symm.trans (hm₀.repairs.file_eq o ho))
  rw [hadv.outcomes, outcomesOf_append, hadv.written_eq, hnone, List.append_nil]
  rcases h.mended k hmem with ⟨hnil, hnot⟩ | ⟨text, u, last, hm, hiff⟩
  · exact .inl ⟨hnil, by simp [hnot, hout]⟩
  · refine .inr ⟨text, u, last, { hm with after := ?_ }, by simpa [hout] using hiff⟩
    rw [hadv.files.files _ _ fun ht => hout ((touched_iff hf hwritten hk').1 ht)]
    exact hm.after

theorem Fixing.mended_new : ∃ text u last,
    Mended s env b.registry.rules b.world.files f'.bench.world.files key (outcomesOf key f'.outcomes) text u last ∧
      (key ∈ f'.written ↔ last.source ≠ text) := by
  obtain ⟨text, u, last, hm, hiff⟩ := hadv.mended
  have hnone : outcomesOf key f.outcomes = [] := outcomesOf_eq_nil fun o ho heq => hnew (heq ▸ h.outcomes o ho)
  have hunwritten : key ∉ f.written := fun hkey => hnew (h.written key hkey)
  have huntouched : ¬ s.Touched home f.written (s.root.join key).settled := fun ht =>
    hunwritten ((touched_iff hf (fun k hw => hspells k (h.written k hw)) hk).1 ht)
  rw [hadv.outcomes, outcomesOf_append, hnone, List.nil_append, outcomesOf_eq_self hm.repairs.file_eq, hadv.written_eq]
  refine ⟨text, u, last, { hm with before := ?_, repairs := h.rules ▸ hm.repairs }, by simpa [hunwritten] using hiff⟩
  rw [← h.files.files _ _ huntouched]
  exact hm.before

theorem Fixing.advance : Fixing s home env b (keys ++ [key]) f' := by
  obtain ⟨rs, hrs, hall⟩ := h.records
  obtain ⟨rs', hrs', hall'⟩ := hadv.records
  obtain ⟨_, _, _, hm, -⟩ := hadv.mended
  have htouched : ∀ ks, (∀ k ∈ ks, k ∈ f'.written) → ∀ q, s.Touched home ks q → s.Touched home f'.written q :=
    fun ks hks q hq => hq.imp_right fun ⟨k, hmem, heq⟩ => ⟨k, hks k hmem, heq⟩
  have hsub : ∀ k ∈ f.written, k ∈ f'.written := fun k hk => by simp [hadv.written_eq, hk]
  have hsub' : ∀ k ∈ written, k ∈ f'.written := fun k hk => by simp [hadv.written_eq, hk]
  refine ⟨hadv.housed, hadv.rules.trans h.rules, ⟨rs ++ rs', ?_, ?_⟩, fun k hk => ?_, fun o ho => ?_,
    (h.files.mono (htouched _ hsub)).trans (hadv.files.mono (htouched _ hsub')), fun k hmem => ?_⟩
  · rw [hrs', hrs, List.append_assoc]
  · rw [hadv.outcomes]
    exact List.rel_append hall hall'
  · rw [hadv.written_eq] at hk
    exact List.mem_append.2 ((List.mem_append.1 hk).imp (h.written k) fun hk => List.mem_singleton.2 (hadv.only k hk))
  · rw [hadv.outcomes] at ho
    exact List.mem_append.2 ((List.mem_append.1 ho).imp (h.outcomes o) fun ho =>
      List.mem_singleton.2 (hm.repairs.file_eq o ho))
  · rcases List.mem_append.1 hmem with hmem | hmem
    · exact h.mended_earlier hf hspells hk hnew hadv hmem
    · obtain rfl := List.mem_singleton.1 hmem
      exact .inr (h.mended_new hf hspells hk hnew hadv)

end Advanced

include ho

theorem Fixing.ordered (h : Fixing s home env b keys f) (hspells : ∀ k ∈ keys, ∃ names, s.store.Spells s.root k names) :
    s.Ordered home env f.bench.world.files := by
  refine ho.sameFiles hf h.files fun q hq => hq.imp_right ?_
  rintro ⟨key, hkey, rfl⟩
  obtain ⟨names, hk⟩ := hspells key (h.written key hkey)
  obtain ⟨c, hc⟩ := h.before hkey
  have henters := hk.enters
  rw [hf.filter] at henters
  rw [settled_of_spells hk] at hc ⊢
  exact ⟨names, c, henters, rfl, hc⟩

/-- Fixing one more file. -/
theorem Fixing.step {key : String} (h : Fixing s home env b keys f)
    (hspells : ∀ k ∈ keys ++ [key], ∃ names, s.store.Spells s.root k names) (hnew : key ∉ keys)
    (hstep : s.fixFile env f key = (.ok (), f')) : Fixing s home env b (keys ++ [key]) f' := by
  have hspells' : ∀ k ∈ keys, ∃ names, s.store.Spells s.root k names := fun k hk => hspells k (List.mem_append_left _ hk)
  obtain ⟨names, hspell⟩ := hspells key (by simp)
  rcases fixFile_spec hf (h.ordered hf ho hspells') h.housed hspell hstep with rfl | ⟨os, written, hadv⟩
  · -- the file holds no text and is passed over
    refine { h with
      written := fun k hk => List.mem_append_left _ (h.written k hk)
      outcomes := fun o ho => List.mem_append_left _ (h.outcomes o ho)
      mended := fun k hk => ?_ }
    rcases List.mem_append.1 hk with hk | hk
    · exact h.mended k hk
    · rw [List.mem_singleton.1 hk]
      exact .inl ⟨outcomesOf_eq_nil fun o ho heq => hnew (heq ▸ h.outcomes o ho), fun hkey => hnew (h.written key hkey)⟩
  · exact h.advance hf hspells' hspell hnew hadv

/-- Fixing files up to the last. -/
theorem Fixing.run {rest : List String} (h : Fixing s home env b keys f)
    (hspells : ∀ k ∈ keys ++ rest, ∃ names, s.store.Spells s.root k names) (hnodup : (keys ++ rest).Nodup)
    (hrun : s.fixAll env rest f = (.ok (), f')) : Fixing s home env b (keys ++ rest) f' := by
  induction rest generalizing keys f with
  | nil =>
    rw [fixAll] at hrun
    rwa [List.append_nil, ← (Prod.mk.inj hrun).2]
  | cons key rest ih =>
    rw [fixAll] at hrun
    have hassoc : keys ++ key :: rest = keys ++ [key] ++ rest := by simp
    rw [hassoc] at hspells hnodup ⊢
    cases hstep : s.fixFile env f key with
    | mk res next =>
      rw [hstep] at hrun
      cases res with
      | error fault => simp at hrun
      | ok u =>
        refine ih (h.step hf ho (fun k hk => hspells k (List.mem_append_left _ hk)) ?_ hstep) hspells hnodup hrun
        have hfront := (List.nodup_append.1 hnodup).1
        exact fun hmem => (List.nodup_append.1 hfront).2.2 key hmem key (List.mem_singleton_self key) rfl

end Fixing

end Site

end TreeRepair
