import Mathlib.Data.List.Basic
import Mathlib.Data.List.Induction
import TreeRepair.Ledger.Ledger
import TreeRepair.Proofs.Ledger.Record

/-! The chain of a ledger. A check passes exactly if the records hold together, and then the last hash
tells all of them, whatever their number, as long as the hash function has no collision on them. -/

set_option autoImplicit false

namespace TreeRepair.ProofLedger

variable {hash : HashFunction} {rs ss : List ProofRecord} {p : String}

/-! ## Records that hold together -/

/-- Each record holds the hash of the one before it, the first one the given hash, and its own. -/
def Chained (hash : HashFunction) : String → List ProofRecord → Prop
  | _, [] => True
  | p, r :: rest => r.previousHash = p ∧ hash r.bodyBytes = r.contentHash ∧ Chained hash r.contentHash rest

/-- The hash that the next record behind these is to hold. -/
def headFrom (p : String) (rs : List ProofRecord) : String := rs.getLast?.elim p (·.contentHash)

theorem headFrom_concat (p : String) (rs : List ProofRecord) (r : ProofRecord) :
    headFrom p (rs ++ [r]) = r.contentHash := by
  simp [headFrom]

theorem chained_append : Chained hash p (rs ++ ss) ↔ Chained hash p rs ∧ Chained hash (headFrom p rs) ss := by
  induction rs generalizing p with
  | nil => simp [Chained, headFrom]
  | cons r rest ih =>
    have hhead : headFrom p (r :: rest) = headFrom r.contentHash rest := by
      cases rest <;> simp [headFrom, List.getLast?_cons]
    rw [List.cons_append, Chained, Chained, ih, hhead, and_assoc, and_assoc]

theorem chained_concat {r : ProofRecord} :
    Chained hash p (rs ++ [r]) ↔
      Chained hash p rs ∧ r.previousHash = headFrom p rs ∧ hash r.bodyBytes = r.contentHash := by
  rw [chained_append]
  simp [Chained]

/-! ## The check -/

theorem checkFrom_of_chained (h : Chained hash p rs) (i : Nat) : checkFrom hash i p rs = .ok () := by
  induction rs generalizing p i with
  | nil => rfl
  | cons r rest ih =>
    obtain ⟨hlink, hseal, hrest⟩ := h
    rw [checkFrom, if_neg (by simpa using hlink), if_neg (by simp [ProofRecord.isSealed, hseal]), ih hrest]

theorem checkFrom_of_not_chained (h : ¬ Chained hash p rs) (i : Nat) :
    ∃ j, j < rs.length ∧
      (checkFrom hash i p rs = .error (.brokenLink (i + j)) ∨ checkFrom hash i p rs = .error (.brokenContent (i + j))) := by
  induction rs generalizing p i with
  | nil => exact absurd trivial h
  | cons r rest ih =>
    rw [checkFrom]
    by_cases hlink : r.previousHash = p
    · rw [if_neg (by simpa using hlink)]
      by_cases hseal : hash r.bodyBytes = r.contentHash
      · rw [if_neg (by simp [ProofRecord.isSealed, hseal])]
        obtain ⟨j, hj, herr⟩ := ih (fun hrest => h ⟨hlink, hseal, hrest⟩) (i + 1)
        refine ⟨j + 1, by simpa using hj, ?_⟩
        rwa [← Nat.add_right_comm, Nat.add_assoc] at herr
      · exact ⟨0, by simp, .inr (by simp [ProofRecord.isSealed, hseal])⟩
    · exact ⟨0, by simp, .inl (by simp [hlink])⟩

theorem checkChain_of_chained {l : ProofLedger} (h : Chained hash genesisHash l.records) :
    l.checkChain hash = .ok l.records.length := by
  rw [checkChain, checkFrom_of_chained h]
  rfl

theorem checkChain_of_not_chained {l : ProofLedger} (h : ¬ Chained hash genesisHash l.records) :
    ∃ j, j < l.records.length ∧
      (l.checkChain hash = .error (.brokenLink j) ∨ l.checkChain hash = .error (.brokenContent j)) := by
  obtain ⟨j, hj, herr⟩ := checkFrom_of_not_chained h 0
  refine ⟨j, hj, ?_⟩
  rw [Nat.zero_add] at herr
  rcases herr with herr | herr
  · exact .inl (by rw [checkChain, herr]; rfl)
  · exact .inr (by rw [checkChain, herr]; rfl)

theorem chained_of_checkChain {l : ProofLedger} {n : Nat} (h : l.checkChain hash = .ok n) :
    Chained hash genesisHash l.records := by
  by_contra hnot
  obtain ⟨j, -, herr | herr⟩ := checkChain_of_not_chained hnot
  · rw [herr] at h
    cases h
  · rw [herr] at h
    cases h

theorem chained_push {l : ProofLedger} (h : Chained hash genesisHash l.records) (id : String) (timestamp : Nat)
    (rule context : String) (verdict : Verdict) (duration : Nat) :
    Chained hash genesisHash (l.push (l.nextRecord hash id timestamp rule context verdict duration)).records :=
  chained_concat.2 ⟨h, rfl, rfl⟩

/-! ## The last hash tells the records -/

/-- A hash function that tells the bodies of records apart, and none of whose values for them is `p`. -/
structure TellsApart (hash : HashFunction) (p : String) (rs : List ProofRecord) : Prop where
  injective : ∀ r ∈ rs, ∀ s ∈ rs, hash r.bodyBytes = hash s.bodyBytes → r.bodyBytes = s.bodyBytes
  fresh : ∀ r ∈ rs, hash r.bodyBytes ≠ p

theorem TellsApart.mono (h : TellsApart hash p rs) (hsub : ∀ r ∈ ss, r ∈ rs) : TellsApart hash p ss :=
  ⟨fun r hr s hs => h.injective r (hsub r hr) s (hsub s hs), fun r hr => h.fresh r (hsub r hr)⟩

theorem headFrom_ne_of_chained {r : ProofRecord} (ht : TellsApart hash p (rs ++ [r])) (h : Chained hash p (rs ++ [r])) :
    headFrom p (rs ++ [r]) ≠ p := by
  rw [headFrom_concat, ← (chained_concat.1 h).2.2]
  exact ht.fresh r (by simp)

/-- Backwards from the last records: equal hashes are those of equal bodies, and a body tells the hash
before it. -/
theorem eq_of_headFrom (ht : TellsApart hash p (rs ++ ss)) (hr : Chained hash p rs) (hs : Chained hash p ss)
    (hh : headFrom p rs = headFrom p ss) : rs = ss := by
  induction rs using List.reverseRecOn generalizing ss with
  | nil =>
    cases ss using List.reverseRecOn with
    | nil => rfl
    | append_singleton ss s =>
      rw [List.nil_append] at ht
      exact absurd hh.symm (headFrom_ne_of_chained ht hs)
  | append_singleton rs r ih =>
    cases ss using List.reverseRecOn with
    | nil =>
      rw [List.append_nil] at ht
      exact absurd hh (headFrom_ne_of_chained ht hr)
    | append_singleton ss s =>
      obtain ⟨hr', hlink, hseal⟩ := chained_concat.1 hr
      obtain ⟨hs', hlink', hseal'⟩ := chained_concat.1 hs
      rw [headFrom_concat, headFrom_concat] at hh
      have hbody : r.bodyBytes = s.bodyBytes := by
        refine ht.injective r (by simp) s (by simp) ?_
        rw [hseal, hseal', hh]
      obtain rfl : r = s := ProofRecord.eq_of_body hbody hh
      rw [ih (ht.mono fun t htm => ?_) hr' hs' (hlink.symm.trans hlink')]
      rw [List.mem_append] at htm ⊢
      exact htm.imp (fun h => List.mem_append_left _ h) fun h => List.mem_append_left _ h

/-- Two ledgers that hold together and end in the same hash are the same. A ledger that ends in the last
record of one that holds together, and is not the same, does not hold together. -/
theorem checkChain_binds {l m : ProofLedger} {r s : ProofRecord} {n : Nat}
    (ht : TellsApart hash genesisHash (l.records ++ m.records)) (hl : l.checkChain hash = .ok n)
    (hr : l.records.getLast? = some r) (hs : m.records.getLast? = some s) (hh : r.contentHash = s.contentHash) :
    (∀ k, m.checkChain hash = .ok k → m.records = l.records) ∧
      (m.records ≠ l.records → ∃ i, i < m.records.length ∧
        (m.checkChain hash = .error (.brokenLink i) ∨ m.checkChain hash = .error (.brokenContent i))) := by
  have heads : headFrom genesisHash l.records = headFrom genesisHash m.records := by
    rw [headFrom, headFrom, hr, hs]
    exact hh
  have hsame : Chained hash genesisHash m.records → m.records = l.records := fun hm =>
    (eq_of_headFrom ht (chained_of_checkChain hl) hm heads).symm
  exact ⟨fun k hm => hsame (chained_of_checkChain hm), fun hne => checkChain_of_not_chained fun hm => hne (hsame hm)⟩

/-- A hash function without a collision: a mark, and a character for each byte. -/
def spelledHash : HashFunction := fun bytes =>
  String.ofList ('#' :: bytes.data.toList.map fun b => Char.ofNat b.toNat)

theorem spelledHash_tellsApart (rs : List ProofRecord) : TellsApart spelledHash genesisHash rs := by
  have hchar : ∀ n, n < 256 → (Char.ofNat n).toNat = n := fun n hn => by
    rw [Char.ofNat, dif_pos (.inl (by omega))]
    rfl
  have hbyte : Function.Injective fun b : UInt8 => Char.ofNat b.toNat := by
    intro a b h
    have hn := congrArg Char.toNat h
    rw [hchar a.toNat a.toNat_lt, hchar b.toNat b.toNat_lt] at hn
    exact UInt8.toNat_inj.1 hn
  refine ⟨fun r _ s _ h => ?_, fun r _ h => ?_⟩
  · have hlists := (List.cons.inj (String.ofList_injective h)).2
    exact ByteArray.ext (Array.toList_inj.1 (hbyte.list_map hlists))
  · exact absurd (List.cons.inj (String.ofList_injective h)).1 (by decide)

/-- The record of a repair of `a.js`, the next one of a ledger. -/
def repairRecord (l : ProofLedger) (id : String) : ProofRecord :=
  l.nextRecord spelledHash id 1 "comment-stray-text" "a.js"
    ⟨.strayText, true, true, false, true, false, 1, 0, "held"⟩ 0

theorem chained_repair {l : ProofLedger} (h : Chained spelledHash genesisHash l.records) (id : String) :
    Chained spelledHash genesisHash (l.records ++ [repairRecord l id]) :=
  chained_push h id 1 _ _ _ 0

/-- The first record of a ledger. -/
def firstRepair : ProofRecord := repairRecord inMemory "one"

/-- The second record of a ledger. -/
def secondRepair : ProofRecord := repairRecord ⟨[firstRepair], none⟩ "two"

theorem secondRepair_alone :
    checkChain spelledHash ⟨[firstRepair, secondRepair], none⟩ = .ok 2 ∧
      ∃ i, i < 1 ∧ (checkChain spelledHash ⟨[secondRepair], none⟩ = .error (.brokenLink i) ∨
        checkChain spelledHash ⟨[secondRepair], none⟩ = .error (.brokenContent i)) := by
  have hone : Chained spelledHash genesisHash [firstRepair] := chained_repair (l := inMemory) trivial "one"
  have hboth : Chained spelledHash genesisHash [firstRepair, secondRepair] :=
    chained_repair (l := ⟨[firstRepair], none⟩) hone "two"
  have hok := checkChain_of_chained (l := ⟨[firstRepair, secondRepair], none⟩) hboth
  have hbinds := checkChain_binds (l := ⟨[firstRepair, secondRepair], none⟩) (m := ⟨[secondRepair], none⟩)
    (r := secondRepair) (s := secondRepair) (spelledHash_tellsApart _) hok (by simp) (by simp) rfl
  obtain ⟨i, hi, herr⟩ := hbinds.2 (by simp)
  exact ⟨hok, i, hi, herr⟩

end TreeRepair.ProofLedger
