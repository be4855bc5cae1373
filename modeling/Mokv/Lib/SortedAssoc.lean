import Mathlib.Data.List.Basic
import Mathlib.Order.Lattice

/-!
# Association lists sorted by key

A table is a list of key/value pairs with strictly increasing keys
(`SortedKeys`).  `List.lookup` reads it and `put` writes it; `put` keeps the
order and `SortedKeys.lookup_put` says what it does to every lookup.

A stack of tables, newest first, is read by `newest`: the first table that knows
the key answers.  `newest_cons` and `newest_append` are the rules by which a
stack is cut and put together.
-/

namespace Lib

variable {K V : Type*}

/-! ### Order -/

section Order

variable [LinearOrder K]

/-- The keys of the list are strictly increasing. -/
def SortedKeys (l : List (K × V)) : Prop := l.Pairwise fun a b => a.1 < b.1

instance (l : List (K × V)) : Decidable (SortedKeys l) :=
  inferInstanceAs (Decidable (l.Pairwise fun a b => a.1 < b.1))

theorem sortedKeys_nil : SortedKeys ([] : List (K × V)) := List.Pairwise.nil

theorem sortedKeys_cons {a : K × V} {l : List (K × V)} :
    SortedKeys (a :: l) ↔ (∀ b ∈ l, a.1 < b.1) ∧ SortedKeys l := List.pairwise_cons

theorem SortedKeys.eq_of_mem {l : List (K × V)} (hs : SortedKeys l) {k : K} {v w : V}
    (hv : (k, v) ∈ l) (hw : (k, w) ∈ l) : v = w := by
  induction l with
  | nil => simp at hv
  | cons a l ih =>
    obtain ⟨hlt, hs⟩ := sortedKeys_cons.mp hs
    rcases List.mem_cons.mp hv with hv' | hv' <;> rcases List.mem_cons.mp hw with hw' | hw'
    · exact (Prod.mk.inj (hv'.trans hw'.symm)).2
    · exact absurd (hlt _ hw') (by rw [← hv']; exact lt_irrefl k)
    · exact absurd (hlt _ hv') (by rw [← hw']; exact lt_irrefl k)
    · exact ih hs hv' hw'

/-- Insert the pair at its place, or replace the value already there. -/
def put (k : K) (v : V) : List (K × V) → List (K × V)
  | [] => [(k, v)]
  | (k', v') :: l =>
    if k' < k then (k', v') :: put k v l
    else if k' = k then (k, v) :: l
    else (k, v) :: (k', v') :: l

theorem fst_mem_put {k : K} {v : V} {l : List (K × V)} {b : K × V} (hb : b ∈ put k v l) :
    b.1 = k ∨ b ∈ l := by
  induction l with
  | nil => exact Or.inl (congrArg Prod.fst (List.mem_singleton.mp hb))
  | cons a l ih =>
    obtain ⟨k', v'⟩ := a
    rw [put] at hb
    split at hb
    · rcases List.mem_cons.mp hb with rfl | hb
      · exact Or.inr List.mem_cons_self
      · exact (ih hb).imp_right (List.mem_cons_of_mem _)
    · split at hb
      · rcases List.mem_cons.mp hb with rfl | hb
        · exact Or.inl rfl
        · exact Or.inr (List.mem_cons_of_mem _ hb)
      · rcases List.mem_cons.mp hb with rfl | hb
        · exact Or.inl rfl
        · exact Or.inr hb

theorem put_append {k : K} {l : List (K × V)} (h : ∀ a ∈ l, a.1 < k) (v : V)
    (m : List (K × V)) : put k v (l ++ m) = l ++ put k v m := by
  induction l with
  | nil => rfl
  | cons a l ih =>
    rw [List.cons_append, put, if_pos (h a List.mem_cons_self),
      ih fun b hb => h b (List.mem_cons_of_mem _ hb), List.cons_append]

theorem put_of_lt {k : K} {m : List (K × V)} (h : ∀ a ∈ m, k < a.1) (v : V) :
    put k v m = (k, v) :: m := by
  cases m with
  | nil => rfl
  | cons a m =>
    have hk := h a List.mem_cons_self
    rw [put, if_neg (not_lt_of_gt hk), if_neg (ne_of_gt hk)]

theorem put_cons_self (k : K) (v w : V) (m : List (K × V)) :
    put k v ((k, w) :: m) = (k, v) :: m := by
  rw [put, if_neg (lt_irrefl k), if_pos rfl]

theorem put_put (k : K) (v w : V) (l : List (K × V)) : put k v (put k w l) = put k v l := by
  induction l with
  | nil => exact put_cons_self k v w []
  | cons a l ih =>
    obtain ⟨k', v'⟩ := a
    rw [put, put]
    split
    · rename_i hlt
      rw [put, if_pos hlt, ih]
    · split
      · exact put_cons_self k v w l
      · exact put_cons_self k v w _

theorem put_ne_nil (k : K) (v : V) (l : List (K × V)) : put k v l ≠ [] := by
  cases l with
  | nil => simp [put]
  | cons a l => rw [put]; split <;> [skip; split] <;> simp

/-- **Writing keeps the order.** -/
theorem SortedKeys.put {l : List (K × V)} (hs : SortedKeys l) (k : K) (v : V) :
    SortedKeys (put k v l) := by
  induction l with
  | nil => exact List.pairwise_singleton _ _
  | cons a l ih =>
    obtain ⟨k', v'⟩ := a
    obtain ⟨hlt, hs'⟩ := sortedKeys_cons.mp hs
    rw [Lib.put]
    split
    · refine sortedKeys_cons.mpr ⟨?_, ih hs'⟩
      intro b hb
      rcases fst_mem_put hb with he | hb
      · rw [he]; assumption
      · exact hlt b hb
    · split
      · subst k'
        exact sortedKeys_cons.mpr ⟨hlt, hs'⟩
      · have hk : k < k' := lt_of_le_of_ne (not_lt.mp ‹_›) (Ne.symm ‹_›)
        refine sortedKeys_cons.mpr ⟨?_, hs⟩
        intro b hb
        rcases List.mem_cons.mp hb with rfl | hb
        · exact hk
        · exact lt_trans hk (hlt b hb)

end Order

/-! ### Reading -/

section Lookup

variable [BEq K] [LawfulBEq K]

theorem lookup_cons (k : K) (v : V) (l : List (K × V)) (j : K) [Decidable (j = k)] :
    ((k, v) :: l).lookup j = if j = k then some v else l.lookup j := by
  rw [List.lookup_cons]
  by_cases hj : j = k
  · rw [if_pos hj, show (j == k) = true by simpa using hj]
  · rw [if_neg hj, show (j == k) = false by simpa using hj]

theorem lookup_eq_none {k : K} {l : List (K × V)} (h : ∀ b ∈ l, b.1 ≠ k) :
    l.lookup k = none := by
  rw [List.lookup_eq_none_iff]
  intro b hb
  simpa using fun e => h b hb e.symm

/-- If the keys are different, a pair is found exactly when it is there. -/
theorem lookup_eq_some_of_nodup {l : List (K × V)} (h : (l.map Prod.fst).Nodup) {k : K} {v : V} :
    l.lookup k = some v ↔ (k, v) ∈ l := by
  classical
  induction l with
  | nil => simp
  | cons a l ih =>
    obtain ⟨k', v'⟩ := a
    rw [List.map_cons, List.nodup_cons] at h
    rw [lookup_cons, List.mem_cons, Prod.mk.injEq]
    by_cases hk : k = k'
    · subst hk
      rw [if_pos rfl, Option.some.injEq]
      constructor
      · intro hv
        exact Or.inl ⟨rfl, hv.symm⟩
      · rintro (hv | hv)
        · exact hv.2.symm
        · exact absurd (List.mem_map.mpr ⟨_, hv, rfl⟩) h.1
    · rw [if_neg hk, ih h.2]
      simp [hk]

theorem lookup_filter_ne [DecidableEq K] (k : K) (l : List (K × V)) (j : K) :
    (l.filter fun e => e.1 ≠ k).lookup j = if j = k then none else l.lookup j := by
  induction l with
  | nil => simp
  | cons a l ih =>
    obtain ⟨k', v'⟩ := a
    by_cases hk : k' = k
    · subst hk
      rw [List.filter_cons_of_neg (by simp), ih, lookup_cons]
      split <;> rfl
    · rw [List.filter_cons_of_pos (by simpa using hk), lookup_cons, ih, lookup_cons]
      by_cases hj : j = k'
      · rw [if_pos hj, if_pos hj, if_neg fun hc => hk (hj.symm.trans hc)]
      · rw [if_neg hj, if_neg hj]

theorem exists_split_of_lookup {l : List (K × V)} {i : K} {t : V} (h : l.lookup i = some t) :
    ∃ p q, l = p ++ (i, t) :: q ∧ (∀ x ∈ p, x.1 ≠ i) ∧ l.eraseP (·.1 == i) = p ++ q := by
  induction l with
  | nil => simp at h
  | cons a l ih =>
    obtain ⟨j, u⟩ := a
    classical
    rw [lookup_cons] at h
    by_cases hij : i = j
    · subst hij
      obtain rfl : u = t := by simpa using h
      exact ⟨[], l, rfl, by simp, by simp⟩
    · rw [if_neg hij] at h
      obtain ⟨p, q, rfl, hp, he⟩ := ih h
      refine ⟨(j, u) :: p, q, rfl, ?_, ?_⟩
      · intro x hx
        rcases List.mem_cons.mp hx with rfl | hx
        · exact Ne.symm hij
        · exact hp x hx
      · rw [List.eraseP_cons_of_neg (by simpa using Ne.symm hij), he]
        rfl

variable [LinearOrder K]

/-- In a sorted list a pair is found exactly when it is there. -/
theorem SortedKeys.lookup_eq_some {l : List (K × V)} (hs : SortedKeys l) {k : K} {v : V} :
    l.lookup k = some v ↔ (k, v) ∈ l := by
  induction l with
  | nil => simp
  | cons a l ih =>
    obtain ⟨k', v'⟩ := a
    obtain ⟨hlt, hs⟩ := sortedKeys_cons.mp hs
    rw [lookup_cons]
    by_cases hk : k = k'
    · subst hk
      simp only [if_true, Option.some.injEq, List.mem_cons, Prod.mk.injEq, true_and]
      constructor
      · intro h
        exact Or.inl h.symm
      · rintro (h | h)
        · exact h.symm
        · exact absurd (hlt _ h) (lt_irrefl k)
    · simp [ih hs, hk]

/-- **What writing does to every lookup.** -/
theorem SortedKeys.lookup_put {l : List (K × V)} (hs : SortedKeys l) (k : K) (v : V) (j : K)
    [Decidable (j = k)] :
    (Lib.put k v l).lookup j = if j = k then some v else l.lookup j := by
  induction l with
  | nil => rw [Lib.put, lookup_cons]
  | cons a l ih =>
    obtain ⟨k', v'⟩ := a
    obtain ⟨hlt, hs'⟩ := sortedKeys_cons.mp hs
    rw [Lib.put]
    split
    · rw [lookup_cons, lookup_cons, ih hs']
      by_cases hj : j = k'
      · subst hj
        rw [if_pos rfl, if_pos rfl, if_neg (ne_of_lt ‹j < k›)]
      · rw [if_neg hj, if_neg hj]
    · split
      · subst k'
        rw [lookup_cons, lookup_cons]
        split <;> rfl
      · rw [lookup_cons]

end Lookup

/-! ### Stacks of tables -/

section Newest

variable [BEq K]

/-- The answer of the first table that knows the key. -/
def newest (tables : List (List (K × V))) (k : K) : Option V := tables.findSome? (·.lookup k)

@[simp] theorem newest_nil (k : K) : newest ([] : List (List (K × V))) k = none := rfl

theorem newest_cons (t : List (K × V)) (ts : List (List (K × V))) (k : K) :
    newest (t :: ts) k = (t.lookup k).or (newest ts k) := by
  rw [newest, List.findSome?_cons]
  cases t.lookup k <;> rfl

theorem newest_append (ts us : List (List (K × V))) (k : K) :
    newest (ts ++ us) k = (newest ts k).or (newest us k) := by
  rw [newest, List.findSome?_append]
  rfl

theorem newest_eq_none {ts : List (List (K × V))} {k : K} (h : ∀ t ∈ ts, t.lookup k = none) :
    newest ts k = none := List.findSome?_eq_none_iff.mpr h

theorem mem_of_newest {ts : List (List (K × V))} {k : K} {v : V} (h : newest ts k = some v) :
    ∃ t ∈ ts, t.lookup k = some v := List.exists_of_findSome?_eq_some h

theorem newest_eq_some_iff {ts : List (List (K × V))} {k : K}
    (h : ∀ t ∈ ts, ∀ u ∈ ts, ∀ v w, t.lookup k = some v → u.lookup k = some w → v = w) {v : V} :
    newest ts k = some v ↔ ∃ t ∈ ts, t.lookup k = some v := by
  refine ⟨mem_of_newest, ?_⟩
  rintro ⟨t, ht, hv⟩
  cases hn : newest ts k with
  | none => exact absurd (List.findSome?_eq_none_iff.mp hn t ht) (by rw [hv]; simp)
  | some w =>
    obtain ⟨u, hu, hw⟩ := mem_of_newest hn
    rw [h u hu t ht w v hw hv]

end Newest

end Lib
