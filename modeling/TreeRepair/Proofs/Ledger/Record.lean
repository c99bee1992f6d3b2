import TreeRepair.Ledger.Record
import TreeRepair.Proofs.Json.RoundTrip

/-! Records and their texts. A record reads back from its line, which holds no line feed. What the content
hash covers tells every field of a record but the hash itself. -/

set_option autoImplicit false

namespace TreeRepair

namespace Json

/-! ## Texts that tell where a value ends -/

theorem quote_append_inj {a b x y : List Char} : quote a ++ x = quote b ++ y ↔ a = b ∧ x = y := by
  refine ⟨fun h => ?_, fun ⟨ha, hx⟩ => by rw [ha, hx]⟩
  simp only [quote, List.cons_append, List.append_assoc, List.nil_append, List.cons.injEq, true_and] at h
  obtain ⟨us, hus, hjoin⟩ := readUnits_quoted a x
  obtain ⟨vs, hvs, hjoin'⟩ := readUnits_quoted b y
  rw [h, hvs] at hus
  obtain ⟨rfl, rfl⟩ := Prod.mk.inj (Option.some.inj hus)
  exact ⟨Option.some.inj (hjoin.symm.trans hjoin'), rfl⟩

theorem digits_append_inj {c : Char} (hc : isDigit c = false ∧ c ≠ '.' ∧ c ≠ 'e' ∧ c ≠ 'E') {n m : Nat}
    {x y : List Char} :
    Text.digits n ++ c :: x = Text.digits m ++ c :: y ↔ n = m ∧ x = y := by
  refine ⟨fun h => ?_, fun ⟨hn, hx⟩ => by rw [hn, hx]⟩
  have hends : ∀ z, EndsNumber (c :: z) := by
    rintro z d r heq
    obtain ⟨rfl, -⟩ := List.cons.inj heq
    exact hc
  have hdigits : ∀ k, ∀ d ∈ Text.digits k, isDigit d = true := fun k d hd => isDigit_of_mem_digits hd
  obtain ⟨htake, hdrop⟩ := takeWhile_digits (hdigits n) (hends x)
  obtain ⟨htake', hdrop'⟩ := takeWhile_digits (hdigits m) (hends y)
  rw [h] at htake hdrop
  refine ⟨?_, (List.cons.inj (hdrop.symm.trans hdrop')).2⟩
  rw [← ofDigits_digits n, ← ofDigits_digits m, htake.symm.trans htake']

theorem compactChars_text (s : String) : compactChars (.text s) = quote s.toList := by rw [compactChars]

theorem compactChars_nat (n : Nat) : compactChars (.nat n) = Text.digits n := by rw [compactChars]

theorem compactChars_object (members : List (String × Json)) :
    compactChars (.object members) = '\x7b' :: (compactMembers members ++ ['\x7d']) := by rw [compactChars]

theorem bool_append_inj {b c : Bool} {x y : List Char} :
    compactChars (.bool b) ++ x = compactChars (.bool c) ++ y ↔ b = c ∧ x = y := by
  cases b <;> cases c <;> simp [compactChars]

end Json

theorem Defect.name_inj {d e : Defect} : d.name = e.name ↔ d = e := by
  cases d <;> cases e <;> decide

namespace ProofRecord

/-! ## What the content hash covers -/

theorem eq_of_body {r s : ProofRecord} (hb : r.bodyBytes = s.bodyBytes) (hc : r.contentHash = s.contentHash) :
    r = s := by
  have hchars : r.body.compactChars = s.body.compactChars := by
    rw [bodyBytes, bodyBytes, String.toUTF8_eq_toByteArray, String.toUTF8_eq_toByteArray,
      String.toByteArray_inj] at hb
    rw [← String.toList_ofList (l := r.body.compactChars), ← String.toList_ofList (l := s.body.compactChars)]
    exact congrArg String.toList hb
  obtain ⟨i, d, ru, c, ⟨vd, vs, vb, va, vm, vt, ve, vf, vg⟩, p, h, t, n⟩ := r
  obtain ⟨i', d', ru', c', ⟨vd', vs', vb', va', vm', vt', ve', vf', vg'⟩, p', h', t', n'⟩ := s
  have hcomma : Json.isDigit ',' = false ∧ ',' ≠ '.' ∧ ',' ≠ 'e' ∧ ',' ≠ 'E' := by decide
  have hbrace : Json.isDigit '\x7d' = false ∧ '\x7d' ≠ '.' ∧ '\x7d' ≠ 'e' ∧ '\x7d' ≠ 'E' := by decide
  -- reading on from member to member, the two texts tell the same fields
  simp only [body, Verdict.toJson, Json.compactChars_object, Json.compactChars_text, Json.compactChars_nat,
    Json.compactMembers, List.cons_append, List.append_assoc, List.nil_append, List.cons.injEq, true_and, and_true,
    Json.quote_append_inj, Json.bool_append_inj, Json.digits_append_inj hcomma, Json.digits_append_inj hbrace,
    String.toList_inj, Defect.name_inj] at hchars
  obtain ⟨rfl, rfl, rfl, rfl, rfl, rfl, rfl, rfl, rfl, rfl, rfl, rfl, rfl, rfl, rfl, rfl⟩ := hchars
  obtain rfl : h = h' := hc
  rfl

/-! ## Lines -/

/-- A record whose numbers have 64 bits. -/
structure Storable (r : ProofRecord) : Prop where
  errorsBefore : r.verdict.errorsBefore < 2 ^ 64
  errorsAfter : r.verdict.errorsAfter < 2 ^ 64
  timestamp : r.timestamp < 2 ^ 64
  duration : r.duration < 2 ^ 64

variable {r : ProofRecord}

theorem Storable.exact (h : r.Storable) : r.toJson.Exact :=
  ⟨trivial, trivial, trivial, trivial,
    ⟨trivial, trivial, trivial, trivial, trivial, trivial, h.errorsBefore, h.errorsAfter, trivial, trivial⟩,
    trivial, trivial, h.timestamp, h.duration, trivial⟩

theorem defect_ofJson? (d : Defect) : Defect.ofJson? (.text d.name) = some d := by
  cases d <;> rfl

theorem verdict_ofJson? (v : Verdict) : Verdict.ofJson? v.toJson = some v := by
  simp [Verdict.ofJson?, Verdict.toJson, Json.fields?, defect_ofJson?, Json.bool?, Json.nat?, Json.text?]

theorem ofJson?_toJson (r : ProofRecord) : ofJson? r.toJson = some r := by
  simp [ofJson?, toJson, Json.fields?, defect_ofJson?, verdict_ofJson?, Json.nat?, Json.text?]

theorem ofLine?_line (h : r.Storable) : ofLine? r.line = some r := by
  rw [ofLine?, line, Json.parse_compact h.exact, Option.bind_some, ofJson?_toJson]

theorem Storable.notMem_line (h : r.Storable) {b : UInt8} (hb : b.toNat < 32) : b ∉ r.line.toUTF8.data.toList := by
  refine Text.notMem_toUTF8 (by omega) fun c hc hcb => ?_
  have := Json.le_of_mem_compact h.exact c hc
  omega

end ProofRecord

end TreeRepair
