import TreeRepair.Home
import TreeRepair.Proofs.FileTree.Keys
import TreeRepair.Proofs.Snapshot.Copies

/-! The places of a home: each of them is one name below it. -/

set_option autoImplicit false

namespace TreeRepair.Home

open Location

variable (h : Home)

theorem cache_eq : h.cache = h.root ++ [cacheName] := join_name (by decide) _

theorem backups_eq : h.backups = h.root ++ [backupsName] := join_name (by decide) _

theorem reports_eq : h.reports = h.root ++ [reportsName] := join_name (by decide) _

theorem ledger_eq : h.ledger = h.root ++ [ledgerName] := join_name (by decide) _

theorem settled_cache : h.cache.settled = h.root.settled ++ [cacheName] := by
  rw [cache_eq, settled_append_names]
  exact fun n hn => List.mem_singleton.1 hn ▸ ⟨by decide, by decide⟩

theorem settled_backups : h.backups.settled = h.root.settled ++ [backupsName] := by
  rw [backups_eq, settled_append_names]
  exact fun n hn => List.mem_singleton.1 hn ▸ ⟨by decide, by decide⟩

theorem settled_reports : h.reports.settled = h.root.settled ++ [reportsName] := by
  rw [reports_eq, settled_append_names]
  exact fun n hn => List.mem_singleton.1 hn ▸ ⟨by decide, by decide⟩

theorem settled_ledger : h.ledger.settled = h.root.settled ++ [ledgerName] := by
  rw [ledger_eq, settled_append_names]
  exact fun n hn => List.mem_singleton.1 hn ▸ ⟨by decide, by decide⟩

/-- The places of the files that a session keeps for itself: those of the cache, and the ledger. -/
def Scratch (q : List String) : Prop := h.cache.settled <+: q ∨ h.ledger.settled <+: q

variable {h} {q : List String}

theorem exists_of_scratch (hq : h.Scratch q) : ∃ n ns, n ≠ backupsName ∧ q = h.root.settled ++ n :: ns := by
  rcases hq with ⟨ns, rfl⟩ | ⟨ns, rfl⟩
  · exact ⟨cacheName, ns, by decide, by rw [settled_cache, List.append_assoc, List.singleton_append]⟩
  · exact ⟨ledgerName, ns, by decide, by rw [settled_ledger, List.append_assoc, List.singleton_append]⟩

theorem not_scratch_of_backups (hq : h.backups.settled <+: q) : ¬ h.Scratch q := by
  intro hs
  obtain ⟨n, ns, hne, rfl⟩ := exists_of_scratch hs
  rw [settled_backups, List.prefix_append_right_inj, List.cons_prefix_cons] at hq
  exact hne hq.1.symm

theorem not_cache_of_ledger (hq : h.ledger.settled <+: q) : ¬ h.cache.settled <+: q := by
  intro hc
  rw [settled_ledger] at hq
  rw [settled_cache] at hc
  obtain ⟨ns, rfl⟩ := hc
  rw [List.append_assoc, List.prefix_append_right_inj, List.singleton_append, List.cons_prefix_cons] at hq
  exact absurd hq.1 (by decide)

theorem not_cache_of_backups (hq : h.backups.settled <+: q) : ¬ h.cache.settled <+: q :=
  fun hc => not_scratch_of_backups hq (.inl hc)

theorem not_backups_of_cache : ¬ h.backups.settled <+: h.cache.settled :=
  fun hb => not_cache_of_backups hb (List.prefix_refl _)

theorem not_scratch_of_outside (hq : ¬ h.root.settled <+: q) : ¬ h.Scratch q := by
  intro hs
  obtain ⟨n, ns, -, rfl⟩ := exists_of_scratch hs
  exact hq (List.prefix_append _ _)

/-! ## What a home holds -/

variable (h) in
/-- The places in a home. -/
def Holds (q : List String) : Prop := ∃ n ns, q = h.root.settled ++ n :: ns

theorem holds_append {names : List String} (hne : names ≠ []) : h.Holds (h.root.settled ++ names) := by
  obtain ⟨n, ns, rfl⟩ := List.exists_cons_of_ne_nil hne
  exact ⟨n, ns, rfl⟩

theorem holds_own (hq : h.cache.settled <+: q ∨ h.backups.settled <+: q ∨ h.reports.settled <+: q ∨
    h.ledger.settled <+: q) : h.Holds q := by
  rw [settled_cache, settled_backups, settled_reports, settled_ledger] at hq
  rcases hq with ⟨ns, rfl⟩ | ⟨ns, rfl⟩ | ⟨ns, rfl⟩ | ⟨ns, rfl⟩ <;>
    exact List.append_assoc .. ▸ holds_append (by simp)

theorem holds_of_scratch (hq : h.Scratch q) : h.Holds q := by
  obtain ⟨n, ns, -, rfl⟩ := exists_of_scratch hq
  exact ⟨n, ns, rfl⟩

end TreeRepair.Home
