import Mathlib.Algebra.Order.Ring.Nat
import Mathlib.Data.List.Basic
import TreeRepair.FileTree.Listing

/-! Trees of files seen by paths: what a lookup finds behind a place that has been given an entry or
taken out, and everywhere else. `shapeAt?` forgets what lies in a directory, so two trees with the same
shapes hold the same files at the same places. `OnlyAt` relates trees that differ at one place. -/

set_option autoImplicit false

namespace TreeRepair

/-- What stands at a place, without what lies in it. -/
inductive Shape where
  | file (content : ByteArray)
  | dir

/-- The shape of an entry. -/
def Entry.shape : Entry → Shape
  | .file content => .file content
  | .dir _ => .dir

/-- The entry at the end of a path that begins at an entry. -/
def Entry.follow? : List String → Entry → Option Entry
  | [], e => some e
  | _ :: _, .file _ => none
  | n :: ns, .dir inner => (inner.child? n).bind (follow? ns)

namespace Listing

/-! ## One directory -/

@[simp] theorem child?_cons_self (n : String) (e : Entry) (t : Listing) : (cons n e t).child? n = some e := by
  cases e <;> simp [cons, child?]

theorem child?_cons_of_ne {n m : String} (h : n ≠ m) (e : Entry) (t : Listing) :
    (cons n e t).child? m = t.child? m := by
  cases e <;> simp [cons, child?, h]

@[simp] theorem child?_put_self (n : String) (e : Entry) (t : Listing) : (t.put n e).child? n = some e := by
  induction t with
  | empty => simp [put]
  | file m c rest ih => by_cases h : m = n <;> simp [put, child?, h, ih]
  | dir m inner rest _ ih => by_cases h : m = n <;> simp [put, child?, h, ih]

theorem child?_put_of_ne {n m : String} (h : n ≠ m) (e : Entry) (t : Listing) :
    (t.put n e).child? m = t.child? m := by
  induction t with
  | empty => simp [put, child?_cons_of_ne h]
  | file k c rest ih =>
    by_cases hk : k = n
    · subst hk; simp [put, child?, child?_cons_of_ne h, h]
    · simp [put, child?, hk, ih]
  | dir k inner rest _ ih =>
    by_cases hk : k = n
    · subst hk; simp [put, child?, child?_cons_of_ne h, h]
    · simp [put, child?, hk, ih]

@[simp] theorem child?_remove_self (n : String) (t : Listing) : (t.remove n).child? n = none := by
  induction t with
  | empty => simp [remove, child?]
  | file m c rest ih => by_cases h : m = n <;> simp [remove, child?, h, ih]
  | dir m inner rest _ ih => by_cases h : m = n <;> simp [remove, child?, h, ih]

theorem child?_remove_of_ne {n m : String} (h : n ≠ m) (t : Listing) :
    (t.remove n).child? m = t.child? m := by
  induction t with
  | empty => simp [remove]
  | file k c rest ih =>
    by_cases hk : k = n
    · subst hk; simp [remove, child?, h, ih]
    · simp [remove, child?, hk, ih]
  | dir k inner rest _ ih =>
    by_cases hk : k = n
    · subst hk; simp [remove, child?, h, ih]
    · simp [remove, child?, hk, ih]

theorem put_eq_self {n : String} {e : Entry} {t : Listing} (h : t.child? n = some e) : t.put n e = t := by
  induction t with
  | empty => simp [child?] at h
  | file m c rest ih =>
    by_cases hm : m = n
    · simp only [child?, hm, if_true, Option.some.injEq] at h
      subst h; simp [put, cons, hm]
    · simp only [child?, hm, if_false] at h
      simp [put, hm, ih h]
  | dir m inner rest _ ih =>
    by_cases hm : m = n
    · simp only [child?, hm, if_true, Option.some.injEq] at h
      subst h; simp [put, cons, hm]
    · simp only [child?, hm, if_false] at h
      simp [put, hm, ih h]

@[simp] theorem put_put (n : String) (e e' : Entry) (t : Listing) : (t.put n e).put n e' = t.put n e' := by
  induction t with
  | empty => cases e <;> simp [put, cons]
  | file m c rest ih =>
    by_cases h : m = n
    · subst h; cases e <;> simp [put, cons]
    · simp [put, h, ih]
  | dir m inner rest _ ih =>
    by_cases h : m = n
    · subst h; cases e <;> simp [put, cons]
    · simp [put, h, ih]

theorem remove_put {n : String} {t : Listing} (h : t.child? n = none) (e : Entry) :
    (t.put n e).remove n = t := by
  induction t with
  | empty => cases e <;> simp [put, cons, remove]
  | file m c rest ih =>
    by_cases hm : m = n
    · simp [child?, hm] at h
    · simp only [child?, hm, if_false] at h
      simp [put, remove, hm, ih h]
  | dir m inner rest _ ih =>
    by_cases hm : m = n
    · simp [child?, hm] at h
    · simp only [child?, hm, if_false] at h
      simp [put, remove, hm, ih h]

/-! ## Paths -/

theorem find?_eq_follow? (p : List String) (t : Listing) : t.find? p = (Entry.dir t).follow? p := by
  induction p generalizing t with
  | nil => simp [find?, Entry.follow?]
  | cons n ns ih =>
    simp only [find?, Entry.follow?]
    cases h : t.child? n with
    | none => rfl
    | some e =>
      cases e with
      | file c => cases ns <;> simp [Entry.follow?]
      | dir inner => simp [ih]

@[simp] theorem find?_nil (t : Listing) : t.find? [] = some (.dir t) := by simp [find?]

theorem find?_cons (n : String) (ns : List String) (t : Listing) :
    t.find? (n :: ns) = (t.child? n).bind (Entry.follow? ns) := by
  rw [find?_eq_follow?]; rfl

theorem follow?_append (p q : List String) (e : Entry) :
    e.follow? (p ++ q) = (e.follow? p).bind (Entry.follow? q) := by
  induction p generalizing e with
  | nil => simp [Entry.follow?]
  | cons n ns ih =>
    cases e with
    | file c => simp [Entry.follow?]
    | dir inner =>
      simp only [List.cons_append, Entry.follow?, Option.bind_assoc]
      congr 1
      funext e
      exact ih e

theorem find?_append (p q : List String) (t : Listing) :
    t.find? (p ++ q) = (t.find? p).bind (Entry.follow? q) := by
  simp only [find?_eq_follow?, follow?_append]

/-- What stands at a place, without what lies in it. -/
def shapeAt? (t : Listing) (p : List String) : Option Shape := (t.find? p).map Entry.shape

@[simp] theorem shapeAt?_nil (t : Listing) : t.shapeAt? [] = some .dir := by simp [shapeAt?, Entry.shape]

theorem shapeAt?_eq_dir {t : Listing} {p : List String} :
    t.shapeAt? p = some .dir ↔ ∃ inner, t.find? p = some (.dir inner) := by
  simp only [shapeAt?, Option.map_eq_some_iff]
  constructor
  · rintro ⟨e, he, hs⟩
    cases e with
    | file c => simp [Entry.shape] at hs
    | dir inner => exact ⟨inner, he⟩
  · rintro ⟨inner, h⟩
    exact ⟨_, h, rfl⟩

theorem shapeAt?_eq_file {t : Listing} {p : List String} {c : ByteArray} :
    t.shapeAt? p = some (.file c) ↔ t.find? p = some (.file c) := by
  simp only [shapeAt?, Option.map_eq_some_iff]
  constructor
  · rintro ⟨e, he, hs⟩
    cases e with
    | file c' => simp only [Entry.shape, Shape.file.injEq] at hs; rw [he, hs]
    | dir inner => simp [Entry.shape] at hs
  · intro h
    exact ⟨_, h, rfl⟩

theorem shapeAt?_eq_none {t : Listing} {p : List String} : t.shapeAt? p = none ↔ t.find? p = none := by
  simp [shapeAt?]

theorem shapeAt?_of_append {t : Listing} {p q : List String} (h : t.shapeAt? (p ++ q) ≠ none) (hq : q ≠ []) :
    t.shapeAt? p = some .dir := by
  obtain ⟨n, ns, rfl⟩ := List.exists_cons_of_ne_nil hq
  rw [Ne, shapeAt?_eq_none, find?_append] at h
  cases hp : t.find? p with
  | none => simp [hp] at h
  | some e =>
    cases e with
    | file c => simp [hp, Entry.follow?] at h
    | dir inner => exact shapeAt?_eq_dir.2 ⟨inner, hp⟩

theorem shapeAt?_append_of_file {t : Listing} {p q : List String} {c : ByteArray}
    (h : t.shapeAt? p = some (.file c)) (hq : q ≠ []) : t.shapeAt? (p ++ q) = none := by
  by_contra hne
  simp [shapeAt?_of_append hne hq] at h

theorem shapeAt?_append_of_none {t : Listing} {p : List String} (h : t.shapeAt? p = none) (q : List String) :
    t.shapeAt? (p ++ q) = none := by
  rw [shapeAt?_eq_none] at h ⊢
  rw [find?_append, h]; rfl

theorem shapeAt?_append_of_dir {t inner : Listing} {p : List String} (h : t.find? p = some (.dir inner))
    (q : List String) : t.shapeAt? (p ++ q) = inner.shapeAt? q := by
  rw [shapeAt?, find?_append, h, Option.bind_some, ← find?_eq_follow?, shapeAt?]

/-! ## Changes at the end of a path -/

theorem putAt_cons {n : String} {ns : List String} (hns : ns ≠ []) (e : Entry) {t inner : Listing}
    (h : t.child? n = some (.dir inner)) : t.putAt (n :: ns) e = t.put n (.dir (inner.putAt ns e)) := by
  obtain ⟨m, ms, rfl⟩ := List.exists_cons_of_ne_nil hns
  simp [putAt, h]

theorem removeAt_cons {n : String} {ns : List String} (hns : ns ≠ []) {t inner : Listing}
    (h : t.child? n = some (.dir inner)) : t.removeAt (n :: ns) = t.put n (.dir (inner.removeAt ns)) := by
  obtain ⟨m, ms, rfl⟩ := List.exists_cons_of_ne_nil hns
  simp [removeAt, h]

theorem child?_of_shapeAt?_cons {t : Listing} {n : String} {ns : List String}
    (h : t.shapeAt? (n :: ns) = some .dir) : ∃ inner, t.child? n = some (.dir inner) ∧ inner.shapeAt? ns = some .dir := by
  obtain ⟨x, hx⟩ := shapeAt?_eq_dir.1 h
  rw [find?_cons] at hx
  obtain ⟨e, he, hf⟩ := Option.bind_eq_some_iff.1 hx
  cases e with
  | file c => cases ns <;> simp [Entry.follow?] at hf
  | dir inner => exact ⟨inner, he, shapeAt?_eq_dir.2 ⟨x, by rw [find?_eq_follow?]; exact hf⟩⟩

theorem find?_putAt_append {t : Listing} {above : List String} {n : String} (e : Entry)
    (h : t.shapeAt? above = some .dir) (q : List String) :
    (t.putAt (above ++ [n]) e).find? (above ++ [n] ++ q) = e.follow? q := by
  induction above generalizing t with
  | nil => simp [putAt, find?_cons]
  | cons a as ih =>
    obtain ⟨inner, ha, hinner⟩ := child?_of_shapeAt?_cons h
    rw [List.cons_append, putAt_cons (by simp) e ha, List.cons_append, find?_cons, child?_put_self,
      Option.bind_some, ← find?_eq_follow?]
    exact ih hinner

theorem find?_putAt_of_apart {t : Listing} {above : List String} {n : String} (e : Entry)
    (h : t.shapeAt? above = some .dir) {q : List String} (h1 : ¬ above ++ [n] <+: q) (h2 : ¬ q <+: above) :
    (t.putAt (above ++ [n]) e).find? q = t.find? q := by
  induction above generalizing t q with
  | nil =>
    cases q with
    | nil => simp at h2
    | cons m ms =>
      have hm : n ≠ m := by rintro rfl; exact h1 (by simp)
      simp [putAt, find?_cons, child?_put_of_ne hm]
  | cons a as ih =>
    cases q with
    | nil => simp at h2
    | cons m ms =>
      obtain ⟨inner, ha, hinner⟩ := child?_of_shapeAt?_cons h
      rw [List.cons_append, putAt_cons (by simp) e ha, find?_cons]
      by_cases hm : a = m
      · subst hm
        rw [child?_put_self, Option.bind_some, ← find?_eq_follow?,
          ih hinner (by simpa using h1) (by simpa using h2), find?_cons, ha, Option.bind_some, ← find?_eq_follow?]
      · rw [child?_put_of_ne hm, find?_cons]

/-- The shapes of a tree in which one place has been given an entry. -/
theorem shapeAt?_putAt {t : Listing} {above : List String} {n : String} (e : Entry)
    (h : t.shapeAt? above = some .dir) (q : List String) :
    (t.putAt (above ++ [n]) e).shapeAt? q =
      if above ++ [n] <+: q then (e.follow? (q.drop (above.length + 1))).map Entry.shape else t.shapeAt? q := by
  by_cases h1 : above ++ [n] <+: q
  · obtain ⟨r, rfl⟩ := h1
    have hd : (above ++ [n] ++ r).drop (above.length + 1) = r := by
      rw [List.drop_append_of_le_length (by simp), List.drop_of_length_le (by simp), List.nil_append]
    rw [if_pos (List.prefix_append _ _), hd, shapeAt?, find?_putAt_append e h]
  · rw [if_neg h1]
    by_cases h2 : q <+: above
    · obtain ⟨r, rfl⟩ := h2
      have hq : t.shapeAt? q = some .dir := by
        by_cases hr : r = []
        · simpa [hr] using h
        · exact shapeAt?_of_append (by rw [h]; simp) hr
      rw [hq]
      refine shapeAt?_of_append (q := r ++ [n]) ?_ (by simp)
      have hput := find?_putAt_append (n := n) e h []
      rw [List.append_nil, Entry.follow?] at hput
      rw [Ne, shapeAt?_eq_none, ← List.append_assoc, hput]
      simp
    · rw [shapeAt?, find?_putAt_of_apart e h h1 h2, shapeAt?]

/-- The shapes of a tree in which one place has been given a file. -/
theorem shapeAt?_putAt_file {t : Listing} {above : List String} {n : String} (c : ByteArray)
    (h : t.shapeAt? above = some .dir) (q : List String) :
    (t.putAt (above ++ [n]) (.file c)).shapeAt? q =
      if q = above ++ [n] then some (.file c) else if above ++ [n] <+: q then none else t.shapeAt? q := by
  rw [shapeAt?_putAt _ h]
  by_cases hq : q = above ++ [n]
  · subst hq
    simp [Entry.follow?, Entry.shape]
  · rw [if_neg hq]
    split
    · rename_i hp
      obtain ⟨r, rfl⟩ := hp
      obtain ⟨m, ms, rfl⟩ := List.exists_cons_of_ne_nil (l := r) (by rintro rfl; simp at hq)
      rw [List.drop_append_of_le_length (by simp), List.drop_of_length_le (by simp)]
      simp [Entry.follow?]
    · rfl

theorem putAt_putAt {t : Listing} {above : List String} {n : String} (e e' : Entry)
    (h : t.shapeAt? above = some .dir) :
    (t.putAt (above ++ [n]) e).putAt (above ++ [n]) e' = t.putAt (above ++ [n]) e' := by
  induction above generalizing t with
  | nil => simp [putAt]
  | cons a as ih =>
    obtain ⟨inner, ha, hinner⟩ := child?_of_shapeAt?_cons h
    rw [List.cons_append, putAt_cons (by simp) e ha, putAt_cons (by simp) e' (child?_put_self _ _ _),
      putAt_cons (by simp) e' ha, put_put, ih hinner]

theorem putAt_putAt_append {t : Listing} {above : List String} {n : String} (x : Listing) {q : List String}
    (hq : q ≠ []) (e : Entry) (h : t.shapeAt? above = some .dir) :
    (t.putAt (above ++ [n]) (.dir x)).putAt (above ++ [n] ++ q) e =
      t.putAt (above ++ [n]) (.dir (x.putAt q e)) := by
  induction above generalizing t with
  | nil => simp [putAt, putAt_cons hq e (child?_put_self _ _ _)]
  | cons a as ih =>
    obtain ⟨inner, ha, hinner⟩ := child?_of_shapeAt?_cons h
    rw [List.cons_append, putAt_cons (by simp) _ ha, List.cons_append,
      putAt_cons (by simp) e (child?_put_self _ _ _), putAt_cons (by simp) _ ha, put_put, ih hinner]

theorem removeAt_putAt {t : Listing} {above : List String} {n : String} (e : Entry)
    (h : t.shapeAt? above = some .dir) (hn : t.shapeAt? (above ++ [n]) = none) :
    (t.putAt (above ++ [n]) e).removeAt (above ++ [n]) = t := by
  induction above generalizing t with
  | nil =>
    rw [List.nil_append, shapeAt?_eq_none, find?_cons] at hn
    have hc : t.child? n = none := by
      cases hc : t.child? n with
      | none => rfl
      | some e => simp [hc, Entry.follow?] at hn
    simp [putAt, removeAt, remove_put hc]
  | cons a as ih =>
    obtain ⟨inner, ha, hinner⟩ := child?_of_shapeAt?_cons h
    have hc : inner.shapeAt? (as ++ [n]) = none := by
      rw [← hn, List.cons_append]
      have := shapeAt?_append_of_dir (p := [a]) (by rw [find?_cons, ha]; rfl) (as ++ [n])
      exact this.symm
    rw [List.cons_append, putAt_cons (by simp) e ha, removeAt_cons (by simp) (child?_put_self _ _ _),
      put_put, ih hinner hc, put_eq_self ha]

theorem shapeAt?_removeAt {t : Listing} {above : List String} {n : String}
    (h : t.shapeAt? above = some .dir) (q : List String) :
    (t.removeAt (above ++ [n])).shapeAt? q = if above ++ [n] <+: q then none else t.shapeAt? q := by
  induction above generalizing t q with
  | nil =>
    cases q with
    | nil => simp
    | cons m ms =>
      by_cases hm : n = m
      · subst hm; simp [removeAt, shapeAt?, find?_cons]
      · simp [removeAt, shapeAt?, find?_cons, child?_remove_of_ne hm, hm]
  | cons a as ih =>
    obtain ⟨inner, ha, hinner⟩ := child?_of_shapeAt?_cons h
    rw [List.cons_append, removeAt_cons (by simp) ha]
    cases q with
    | nil => simp
    | cons m ms =>
      by_cases hm : a = m
      · subst hm
        have h1 := ih hinner ms
        simp only [shapeAt?, find?_cons, child?_put_self, Option.bind_some, ha, ← find?_eq_follow?] at h1 ⊢
        simpa using h1
      · simp [shapeAt?, find?_cons, child?_put_of_ne hm, hm]

theorem find?_removeAt_of_apart {t : Listing} {above : List String} {n : String}
    (h : t.shapeAt? above = some .dir) {q : List String} (h1 : ¬ above ++ [n] <+: q) (h2 : ¬ q <+: above) :
    (t.removeAt (above ++ [n])).find? q = t.find? q := by
  induction above generalizing t q with
  | nil =>
    cases q with
    | nil => simp at h2
    | cons m ms =>
      have hm : n ≠ m := by rintro rfl; exact h1 (by simp)
      simp [removeAt, find?_cons, child?_remove_of_ne hm]
  | cons a as ih =>
    cases q with
    | nil => simp at h2
    | cons m ms =>
      obtain ⟨inner, ha, hinner⟩ := child?_of_shapeAt?_cons h
      rw [List.cons_append, removeAt_cons (by simp) ha, find?_cons]
      by_cases hm : a = m
      · subst hm
        rw [child?_put_self, Option.bind_some, ← find?_eq_follow?,
          ih hinner (by simpa using h1) (by simpa using h2), find?_cons, ha, Option.bind_some, ← find?_eq_follow?]
      · rw [child?_put_of_ne hm, find?_cons]

theorem putAt_eq_self {t : Listing} {above : List String} {n : String} {e : Entry}
    (h : t.find? (above ++ [n]) = some e) : t.putAt (above ++ [n]) e = t := by
  induction above generalizing t with
  | nil =>
    rw [List.nil_append, find?_cons] at h
    obtain ⟨e', he, hf⟩ := Option.bind_eq_some_iff.1 h
    simp only [Entry.follow?, Option.some.injEq] at hf
    subst hf
    simp [putAt, put_eq_self he]
  | cons a as ih =>
    rw [List.cons_append, find?_cons] at h
    obtain ⟨e', he, hf⟩ := Option.bind_eq_some_iff.1 h
    cases e' with
    | file c => cases as <;> simp [Entry.follow?] at hf
    | dir inner =>
      rw [← find?_eq_follow?] at hf
      rw [List.cons_append, putAt_cons (by simp) e he, ih hf, put_eq_self he]

/-! ## Trees that differ at one place -/

/-- The second tree is the first one, but for the entry of one place. -/
def OnlyAt (p : List String) (t t' : Listing) : Prop := t' = t ∨ ∃ e, t' = t.putAt p e

theorem OnlyAt.refl (p : List String) (t : Listing) : OnlyAt p t t := .inl rfl

/-- A further change at the place or in it. -/
theorem OnlyAt.put {t t' : Listing} {above : List String} {n : String}
    (h : OnlyAt (above ++ [n]) t t') (hd : t.shapeAt? above = some .dir) {q : List String}
    (hq : t'.shapeAt? (above ++ [n] ++ q).dropLast = some .dir) (e : Entry) :
    OnlyAt (above ++ [n]) t (t'.putAt (above ++ [n] ++ q) e) := by
  by_cases hne : q = []
  · subst hne
    rw [List.append_nil]
    rcases h with rfl | ⟨e', rfl⟩
    · exact .inr ⟨e, rfl⟩
    · exact .inr ⟨e, putAt_putAt _ _ hd⟩
  · have hdir : t'.shapeAt? (above ++ [n]) = some .dir := by
      rw [List.dropLast_append_of_ne_nil hne] at hq
      by_cases hl : q.dropLast = []
      · rwa [hl, List.append_nil] at hq
      · exact shapeAt?_of_append (by rw [hq]; simp) hl
    obtain ⟨x, hx⟩ := shapeAt?_eq_dir.1 hdir
    rcases h with rfl | ⟨e', rfl⟩
    · refine .inr ⟨.dir (x.putAt q e), ?_⟩
      rw [← putAt_putAt_append x hne e hd, putAt_eq_self hx]
    · have he := find?_putAt_append (n := n) e' hd []
      rw [List.append_nil, hx, Entry.follow?, Option.some.injEq] at he
      subst he
      exact .inr ⟨_, putAt_putAt_append x hne e hd⟩

theorem OnlyAt.shapeAt?_eq {t t' : Listing} {above : List String} {n : String} (h : OnlyAt (above ++ [n]) t t')
    (hd : t.shapeAt? above = some .dir) {q : List String} (h1 : ¬ above ++ [n] <+: q) :
    t'.shapeAt? q = t.shapeAt? q := by
  rcases h with rfl | ⟨e, rfl⟩
  · rfl
  · rw [shapeAt?_putAt e hd, if_neg h1]

/-- Taking out a place that was not there before undoes all changes at it. -/
theorem OnlyAt.removeAt_eq {t t' : Listing} {above : List String} {n : String}
    (h : OnlyAt (above ++ [n]) t t') (hd : t.shapeAt? above = some .dir)
    (hn : t.shapeAt? (above ++ [n]) = none) (he : t'.shapeAt? (above ++ [n]) ≠ none) :
    t'.removeAt (above ++ [n]) = t := by
  rcases h with rfl | ⟨e, rfl⟩
  · exact absurd hn he
  · exact removeAt_putAt e hd hn

theorem shapeAt?_cons (n : String) (ns : List String) (t : Listing) :
    t.shapeAt? (n :: ns) = ((t.child? n).bind (Entry.follow? ns)).map Entry.shape := by
  rw [shapeAt?, find?_cons]

/-! ## Numbers of bytes -/

theorem totalBytes_of_child? {t inner : Listing} {n : String} (h : t.child? n = some (.dir inner)) :
    inner.totalBytes ≤ t.totalBytes := by
  induction t with
  | empty => simp [child?] at h
  | file m c rest ih =>
    rw [child?] at h
    split at h
    · simp at h
    · have := ih h
      rw [totalBytes]
      omega
  | dir m x rest _ ih =>
    rw [child?] at h
    rw [totalBytes]
    split at h
    · simp only [Option.some.injEq, Entry.dir.injEq] at h
      subst h
      omega
    · have := ih h
      omega

theorem totalBytes_of_find? {t inner : Listing} {p : List String} (h : t.find? p = some (.dir inner)) :
    inner.totalBytes ≤ t.totalBytes := by
  induction p generalizing t with
  | nil =>
    simp only [find?_nil, Option.some.injEq, Entry.dir.injEq] at h
    subst h
    exact Nat.le_refl _
  | cons n ns ih =>
    rw [find?_cons] at h
    obtain ⟨e, he, hf⟩ := Option.bind_eq_some_iff.1 h
    cases e with
    | file c => cases ns <;> simp [Entry.follow?] at hf
    | dir x =>
      rw [← find?_eq_follow?] at hf
      exact Nat.le_trans (ih hf) (totalBytes_of_child? he)

end Listing

end TreeRepair
