import Mathlib.Data.List.Perm.Basic

/-!
# A priority queue

A queue is the list of the elements it holds, and `popTop lt` takes out an
element that no other one exceeds.  What a user of the queue may rely on is
`popTop_perm` (nothing is lost or made up) and `popTop_max` (the element taken
out is a greatest one).  Which of two equivalent elements comes first is not
promised.
-/

namespace Lib

variable {α : Type*}

/-- Take a greatest element with respect to `lt` out of the queue. -/
def popTop (lt : α → α → Bool) : List α → Option (α × List α)
  | [] => none
  | a :: q =>
    match popTop lt q with
    | none => some (a, [])
    | some (b, r) => if lt a b then some (b, a :: r) else some (a, b :: r)

variable {lt : α → α → Bool}

theorem popTop_eq_none {q : List α} : popTop lt q = none ↔ q = [] := by
  cases q with
  | nil => simp [popTop]
  | cons a q =>
    rw [popTop]
    cases popTop lt q with
    | none => simp
    | some br => obtain ⟨b, r⟩ := br; dsimp only; split <;> simp

theorem popTop_perm {q r : List α} {m : α} (h : popTop lt q = some (m, r)) :
    q.Perm (m :: r) := by
  induction q generalizing m r with
  | nil => simp [popTop] at h
  | cons a q ih =>
    rw [popTop] at h
    cases hq : popTop lt q with
    | none =>
      rw [hq] at h
      obtain ⟨rfl, rfl⟩ : a = m ∧ [] = r := by simpa using h
      rw [popTop_eq_none.mp hq]
    | some bs =>
      obtain ⟨b, s⟩ := bs
      rw [hq] at h
      dsimp only at h
      split at h
      · obtain ⟨rfl, rfl⟩ : b = m ∧ a :: s = r := by simpa using h
        exact ((ih hq).cons a).trans (List.Perm.swap _ _ _)
      · obtain ⟨rfl, rfl⟩ : a = m ∧ b :: s = r := by simpa using h
        exact (ih hq).cons a

theorem popTop_max (hirr : ∀ a, lt a a = false)
    (htr : ∀ a b c, lt a b = false → lt b c = false → lt a c = false)
    (has : ∀ a b, lt a b = true → lt b a = false) {q r : List α} {m : α}
    (h : popTop lt q = some (m, r)) : ∀ x ∈ q, lt m x = false := by
  induction q generalizing m r with
  | nil => simp
  | cons a q ih =>
    intro x hx
    rw [popTop] at h
    cases hq : popTop lt q with
    | none =>
      rw [hq] at h
      obtain ⟨rfl, rfl⟩ : a = m ∧ [] = r := by simpa using h
      rw [popTop_eq_none.mp hq] at hx
      rw [List.mem_singleton.mp hx]
      exact hirr a
    | some bs =>
      obtain ⟨b, s⟩ := bs
      rw [hq] at h
      dsimp only at h
      split at h
      · obtain ⟨rfl, rfl⟩ : b = m ∧ a :: s = r := by simpa using h
        rcases List.mem_cons.mp hx with rfl | hx
        · exact has _ _ ‹_›
        · exact ih hq x hx
      · obtain ⟨rfl, rfl⟩ : a = m ∧ b :: s = r := by simpa using h
        rcases List.mem_cons.mp hx with rfl | hx
        · exact hirr x
        · exact htr _ _ _ (by simpa using ‹¬ lt a b = true›) (ih hq x hx)

theorem popTop_map {β : Type*} {lt' : β → β → Bool} {f : α → β}
    (hf : ∀ a b, lt' (f a) (f b) = lt a b) (q : List α) :
    popTop lt' (q.map f) = (popTop lt q).map fun mr => (f mr.1, mr.2.map f) := by
  induction q with
  | nil => rfl
  | cons a q ih =>
    rw [List.map_cons, popTop, ih, popTop]
    cases popTop lt q with
    | none => rfl
    | some br =>
      simp only [Option.map_some, hf]
      split <;> rfl

end Lib
