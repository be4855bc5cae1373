import Mathlib.Data.List.Induction

/-!
# Chains of pointers

`next a` is the pointer of cell `a`: `some (some b)` points to `b`, `some none` is null, and
`none` says that the cell has no such pointer.  `Links next p l` says that the pointers lead
from `p` through exactly the cells `l` to null.

A cell is put into a chain by `Links.insert` and taken out of it by `Links.remove`; both ask
only for the pointers of the cells on the chain.  `exists_split_filter` compares two chains
of which one skips cells of the other.
-/

namespace Lib

variable {α : Type*} {next next' : α → Option (Option α)}

/-- The pointers lead from `p` through `l` to null. -/
def Links (next : α → Option (Option α)) : α → List α → Prop
  | p, [] => next p = some none
  | p, q :: l => next p = some (some q) ∧ Links next q l

/-- The cells after `p`, if there are fewer than the first argument. -/
def follow (next : α → Option (Option α)) : Nat → α → Option (List α)
  | 0, _ => none
  | n + 1, p =>
    match next p with
    | none => none
    | some none => some []
    | some (some q) => (follow next n q).map (q :: ·)

theorem Links.next_eq {p : α} {l : List α} (h : Links next p l) : next p = some l.head? := by
  cases l with
  | nil => exact h
  | cons q l => exact h.1

theorem Links.follow_eq {p : α} {l : List α} (h : Links next p l) {n : Nat} (hn : l.length < n) :
    follow next n p = some l := by
  induction l generalizing p n with
  | nil =>
    obtain ⟨n, rfl⟩ := Nat.exists_eq_succ_of_ne_zero (Nat.ne_of_gt hn)
    have hp : next p = some none := h
    rw [follow, hp]
  | cons q l ih =>
    obtain ⟨n, rfl⟩ := Nat.exists_eq_succ_of_ne_zero (Nat.ne_of_gt (Nat.zero_lt_of_lt hn))
    rw [follow, h.1]
    simp only
    rw [ih h.2 (Nat.lt_of_succ_lt_succ hn), Option.map_some]

theorem Links.congr {p : α} {l : List α} (h : Links next p l)
    (he : ∀ a ∈ p :: l, next' a = next a) : Links next' p l := by
  induction l generalizing p with
  | nil => exact (he p (List.mem_singleton_self p)).trans h
  | cons q l ih =>
    refine ⟨(he p List.mem_cons_self).trans h.1, ih h.2 ?_⟩
    intro a ha
    exact he a (List.mem_cons_of_mem _ ha)

theorem Links.of_append {p : α} {l m : List α} (h : Links next p (l ++ m)) :
    Links next (l.getLastD p) m := by
  induction l generalizing p with
  | nil => exact h
  | cons q l ih =>
    rw [List.getLastD_cons]
    exact ih h.2

theorem getLastD_append (p : α) (l m : List α) :
    (l ++ m).getLastD p = m.getLastD (l.getLastD p) := by
  induction l generalizing p with
  | nil => rfl
  | cons q l ih => rw [List.cons_append, List.getLastD_cons, List.getLastD_cons, ih]

/-- **A new cell is put behind `l`.** -/
theorem Links.insert {p new : α} {l m : List α} (h : Links next p (l ++ m))
    (hnd : (p :: (l ++ m)).Nodup) (hlast : next' (l.getLastD p) = some (some new))
    (hnew : next' new = next (l.getLastD p))
    (he : ∀ a ∈ p :: (l ++ m), a ≠ l.getLastD p → next' a = next a) :
    Links next' p (l ++ new :: m) := by
  induction l generalizing p with
  | nil =>
    refine ⟨hlast, ?_⟩
    have hp : p ∉ m := (List.nodup_cons.mp hnd).1
    cases m with
    | nil => exact hnew.trans h
    | cons q m =>
      refine ⟨hnew.trans h.1, h.2.congr ?_⟩
      intro a ha
      refine he a (List.mem_cons_of_mem _ ha) ?_
      rintro rfl
      exact hp ha
  | cons q l ih =>
    rw [List.getLastD_cons] at hlast hnew he
    have hp : p ≠ l.getLastD q := by
      intro hpl
      refine (List.nodup_cons.mp hnd).1 ?_
      rw [hpl]
      exact List.mem_append_left m List.getLastD_mem_cons
    refine ⟨(he p List.mem_cons_self hp).trans h.1, ?_⟩
    exact ih h.2 (List.nodup_cons.mp hnd).2 hlast hnew fun a ha => he a (List.mem_cons_of_mem _ ha)

/-- **The cell behind `l` is taken out.** -/
theorem Links.remove {p q : α} {l m : List α} (h : Links next p (l ++ q :: m))
    (hnd : (p :: (l ++ m)).Nodup) (hlast : next' (l.getLastD p) = next q)
    (he : ∀ a ∈ p :: (l ++ m), a ≠ l.getLastD p → next' a = next a) :
    Links next' p (l ++ m) := by
  induction l generalizing p with
  | nil =>
    have hp : p ∉ m := (List.nodup_cons.mp hnd).1
    have hq : Links next q m := h.2
    cases m with
    | nil => exact hlast.trans hq
    | cons r m =>
      refine ⟨hlast.trans hq.1, hq.2.congr ?_⟩
      intro a ha
      refine he a (List.mem_cons_of_mem _ ha) ?_
      rintro rfl
      exact hp ha
  | cons r l ih =>
    rw [List.getLastD_cons] at hlast he
    have hp : p ≠ l.getLastD r := by
      intro hpl
      refine (List.nodup_cons.mp hnd).1 ?_
      rw [hpl]
      exact List.mem_append_left m List.getLastD_mem_cons
    refine ⟨(he p List.mem_cons_self hp).trans h.1, ?_⟩
    exact ih h.2 (List.nodup_cons.mp hnd).2 hlast fun a ha => he a (List.mem_cons_of_mem _ ha)

theorem exists_split_filter (p : α) (P Q : α → Bool) (l : List α)
    (h : ∀ a ∈ l, Q a = true → P a = true) :
    ∃ u v, l.filter P = u ++ v ∧ u.getLastD p = (l.filter Q).getLastD p := by
  induction l using List.reverseRecOn with
  | nil => exact ⟨[], [], rfl, rfl⟩
  | append_singleton l a ih =>
    obtain ⟨u, v, huv, hlast⟩ := ih fun b hb => h b (List.mem_append_left _ hb)
    rw [List.filter_append, List.filter_append]
    by_cases hQ : Q a = true
    · have hP := h a (List.mem_append_right _ (List.mem_singleton_self a)) hQ
      refine ⟨l.filter P ++ [a], [], ?_, ?_⟩
      · rw [List.filter_cons_of_pos hP, List.filter_nil, List.append_nil]
      · rw [List.filter_cons_of_pos hQ, List.filter_nil, List.getLastD_concat,
          List.getLastD_concat]
    · refine ⟨u, v ++ [a].filter P, ?_, ?_⟩
      · rw [huv, List.append_assoc]
      · rw [List.filter_cons_of_neg hQ, List.filter_nil, List.append_nil, hlast]

end Lib
