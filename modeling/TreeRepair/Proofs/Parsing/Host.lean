import TreeRepair.Parsing.Host
import TreeRepair.Proofs.FileTree.Frames
import TreeRepair.Proofs.FileTree.Keys

/-! What parsing leaves behind. Files change in the directory of archives only, and a unit always has the
content key of the text and the file that it was asked for. -/

set_option autoImplicit false

namespace TreeRepair

open Location Listing

namespace ParseCache

variable {c : ParseCache} {env : Surroundings} {files : Listing} {directory : Location} {key : String}

/-! ## The directory of archives -/

theorem isHexDigit_ne {ch : Char} (h : Digest.isHexDigit ch = true) : ch ≠ '/' ∧ ch ≠ '.' := by
  constructor
  · rintro rfl
    exact absurd h (by decide)
  · rintro rfl
    exact absurd h (by decide)

theorem isArchiveKey_head (h : isArchiveKey key = true) :
    ∃ ch rest, key.toList = ch :: rest ∧ ∀ d ∈ ch :: rest, Digest.isHexDigit d = true := by
  simp only [isArchiveKey, Bool.and_eq_true, Bool.not_eq_true', List.all_eq_true] at h
  cases hk : key.toList with
  | nil =>
    have hempty : key = "" := String.toList_eq_nil_iff.1 hk
    simp [hempty] at h
  | cons ch rest => exact ⟨ch, rest, rfl, fun d hd => h.2 d (hk ▸ hd)⟩

theorem goesDown_archiveName (h : isArchiveKey key = true) (ending : String) : GoesDown (key ++ ending) := by
  obtain ⟨ch, rest, hk, hall⟩ := isArchiveKey_head h
  have hdot := (isHexDigit_ne (hall ch (List.mem_cons_self ..))).2
  have hne : ∀ text : String, text.toList.head?.all (· == '.') = true → key ++ ending ≠ text := by
    intro text ht heq
    rw [← heq, String.toList_append, hk] at ht
    simp [hdot] at ht
  refine ⟨?_, hne ".." (by decide)⟩
  simp only [isVoid, Bool.or_eq_false_iff, beq_eq_false_iff_ne]
  exact ⟨hne "" (by decide), hne "." (by decide)⟩

theorem noSlash_archiveName (h : isArchiveKey key = true) {ending : String} (he : '/' ∉ ending.toList) :
    '/' ∉ (key ++ ending).toList := by
  obtain ⟨ch, rest, hk, hall⟩ := isArchiveKey_head h
  rw [String.toList_append, hk, List.mem_append, not_or]
  exact ⟨fun hmem => (isHexDigit_ne (hall _ hmem)).1 rfl, he⟩

theorem notMem_toString {c : Char} (hc : c.isDigit = false) (n : Nat) : c ∉ (toString n).toList := by
  intro hmem
  rw [Nat.toString_eq_repr, Nat.toList_repr] at hmem
  simp [Nat.isDigit_of_mem_toDigits (by decide) (by decide) hmem] at hc

theorem store_kept (hdir : c.directory = some directory) (hcut : directory.IsCut) (u : ParsedUnit) :
    KeptBeyond directory.settled files (c.store env files u) := by
  unfold store
  split
  · rename_i place draft hplace hdraft
    simp only [archive?, draft?, hdir, Option.map_some] at hplace hdraft
    split at hplace
    · rename_i hkey
      rw [if_pos hkey, Option.some.injEq] at hdraft
      rw [Option.some.injEq] at hplace
      subst hplace hdraft
      have hpre : ∀ ending, directory.settled <+: settled (directory ++ [u.key ++ ending]) := by
        intro ending
        rw [settled_append_names (by simpa using goesDown_archiveName hkey ending)]
        exact List.prefix_append _ _
      have hcuts : ∀ ending : String, '/' ∉ ending.toList → (directory ++ [u.key ++ ending]).IsCut :=
        fun ending he p hp => by
          rcases List.mem_append.1 hp with hp | hp
          · exact hcut p hp
          · rw [List.mem_singleton.1 hp]
            exact noSlash_archiveName hkey he
      have hending : '/' ∉ (archiveEnding ++ ".tmp-" ++ toString env.process).toList := by
        rw [String.toList_append, List.mem_append, not_or]
        exact ⟨by decide, notMem_toString (by decide) _⟩
      have hname : u.key ++ archiveEnding ++ ".tmp-" ++ toString env.process =
          u.key ++ (archiveEnding ++ ".tmp-" ++ toString env.process) := by
        rw [String.append_assoc, String.append_assoc, String.append_assoc]
      rw [hname]
      cases hw : files.write (directory ++ [u.key ++ (archiveEnding ++ ".tmp-" ++ toString env.process)])
          (env.archives.encode u) with
      | error fault => exact .refl _ _
      | ok written =>
        have hwritten := KeptBeyond.write hw (hcuts _ hending) (hpre _)
        simp only
        split
        · exact hwritten
        · rename_i moved hmoved
          exact hwritten.trans (KeptBeyond.rename hmoved (hcuts _ (by decide)) (hpre _) (hpre _))
    · simp at hplace
  · exact .refl _ _

/-! ## The keys of units -/

/-- Each unit in memory is under its own key. -/
def Named (c : ParseCache) : Prop := ∀ e ∈ c.entries, e.2.key = e.1

theorem named_fresh (directory : Option Location) : (fresh directory).Named := by
  intro e he
  simp [fresh] at he

theorem forall_mem_remember {P : String × ParsedUnit → Prop} (h : ∀ e ∈ c.entries, P e) {u : ParsedUnit} (hu : P (key, u)) :
    ∀ e ∈ (c.remember key u).entries, P e := by
  intro e he
  rcases List.mem_cons.1 he with rfl | he
  · exact hu
  · exact h e (List.mem_of_mem_filter he)

theorem Named.remember (h : c.Named) {u : ParsedUnit} (hu : u.key = key) : (c.remember key u).Named :=
  forall_mem_remember h hu

theorem load?_key {u : ParsedUnit} (h : c.load? env files key = some u) : u.key = key := by
  unfold load? at h
  split at h
  · simp at h
  · split at h
    · simp at h
    · split at h
      · simp at h
      · split at h
        · rename_i hkey
          obtain rfl := Option.some.inj h
          exact hkey
        · simp at h

theorem get?_cases {u : ParsedUnit} {c' : ParseCache} (hg : c.get? env files key = some (u, c')) :
    c.entries.lookup key = some u ∧ c' = c ∨
      c.entries.lookup key = none ∧ c.load? env files key = some u ∧ c' = c.remember key u := by
  unfold get? at hg
  split at hg
  · rename_i found hfound
    obtain ⟨rfl, rfl⟩ := Prod.mk.inj (Option.some.inj hg)
    exact .inl ⟨hfound, rfl⟩
  · rename_i hmissing
    obtain ⟨loaded, hload, heq⟩ := Option.map_eq_some_iff.1 hg
    obtain ⟨rfl, rfl⟩ := Prod.mk.inj heq
    exact .inr ⟨hmissing, hload, rfl⟩

theorem mem_entries_of_lookup {u : ParsedUnit} (h : c.entries.lookup key = some u) : (key, u) ∈ c.entries := by
  obtain ⟨front, rest, hsplit, -⟩ := List.lookup_eq_some_iff.1 h
  simp [hsplit]

theorem get?_named (h : c.Named) {u : ParsedUnit} {c' : ParseCache} (hg : c.get? env files key = some (u, c')) :
    u.key = key ∧ c'.Named ∧ c'.directory = c.directory := by
  obtain ⟨hlook, rfl⟩ | ⟨-, hload, rfl⟩ := get?_cases hg
  · exact ⟨h (key, u) (mem_entries_of_lookup hlook), h, rfl⟩
  · have hkey := load?_key hload
    exact ⟨hkey, h.remember hkey, rfl⟩

theorem mem_keys_remember {u : ParsedUnit} {k : String} :
    k ∈ (c.remember key u).entries.map (·.1) ↔ k = key ∨ k ∈ c.entries.map (·.1) := by
  simp only [ParseCache.remember, List.map_cons, List.mem_cons, List.mem_map, List.mem_filter, bne_iff_ne]
  refine or_congr_right' fun hne => ?_
  constructor
  · rintro ⟨e, ⟨he, -⟩, rfl⟩
    exact ⟨e, he, rfl⟩
  · rintro ⟨e, he, rfl⟩
    exact ⟨e, ⟨he, hne⟩, rfl⟩

theorem nodup_keys_remember (h : (c.entries.map (·.1)).Nodup) (key : String) (u : ParsedUnit) :
    ((c.remember key u).entries.map (·.1)).Nodup := by
  refine List.nodup_cons.2 ⟨?_, h.sublist (List.filter_sublist.map _)⟩
  simp

end ParseCache

/-! ## Parsing -/

theorem parseText_key (g : Grammars) (limit : Nat) (file key text : String) :
    (parseText g limit file key text).key = key := by
  unfold parseText
  split
  · rfl
  · rfl

namespace ParserHost

variable {h : ParserHost} (env : Surroundings) (files : Listing) {directory : Location}

/-- The unit of a text has its content key, and so has every unit in memory. -/
theorem parse_named (hn : h.cache.Named) (file text : String) :
    (h.parse env files file text).unit.key = contentKey env.contentHash text.toUTF8 file ∧
      (h.parse env files file text).host.cache.Named ∧
      (h.parse env files file text).host.cache.directory = h.cache.directory := by
  unfold parse
  simp only
  split
  · rename_i u cache hget
    exact ParseCache.get?_named hn hget
  · have hkey := parseText_key env.grammars h.recoveryLimit file (contentKey env.contentHash text.toUTF8 file) text
    exact ⟨hkey, hn.remember rfl, rfl⟩

theorem parse_kept (hdir : h.cache.directory = some directory) (hcut : directory.IsCut) (file text : String) :
    KeptBeyond directory.settled files (h.parse env files file text).files := by
  unfold parse
  simp only
  split
  · exact .refl _ _
  · exact ParseCache.store_kept hdir hcut _

end ParserHost

end TreeRepair
