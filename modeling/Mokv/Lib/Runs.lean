import Mathlib.Data.List.Basic

/-!
# Runs of equal elements

`runLengths l` are the lengths of the maximal runs of equal elements of `l`, in order.
`runLengths_replicate_append` takes the first run off, and `exists_of_runLengths` gives it
back.
-/

namespace Lib

variable {α : Type*} [DecidableEq α]

/-- The lengths of the maximal runs. -/
def runLengths : List α → List Nat
  | [] => []
  | [_] => [1]
  | a :: b :: l =>
    match runLengths (b :: l) with
    | [] => [1]
    | r :: rs => if a = b then (r + 1) :: rs else 1 :: r :: rs

/-- The run that `a` starts is one longer than the next, or ends at once. -/
theorem runLengths_cons_cons {a b : α} {l : List α} {r : Nat} {rs : List Nat}
    (h : runLengths (b :: l) = r :: rs) :
    runLengths (a :: b :: l) = if a = b then (r + 1) :: rs else 1 :: r :: rs := by
  rw [runLengths, h]

theorem runLengths_ne_nil (a : α) (l : List α) : runLengths (a :: l) ≠ [] := by
  induction l generalizing a with
  | nil => simp [runLengths]
  | cons b l ih =>
    obtain ⟨r, rs, h⟩ := List.exists_cons_of_ne_nil (ih b)
    rw [runLengths_cons_cons h]
    split <;> simp

theorem runLengths_cons_of_ne {a : α} {l : List α} (h : l.head? ≠ some a) :
    runLengths (a :: l) = 1 :: runLengths l := by
  cases l with
  | nil => rfl
  | cons b l =>
    obtain ⟨r, rs, hr⟩ := List.exists_cons_of_ne_nil (runLengths_ne_nil b l)
    have hab : a ≠ b := fun hab => h (by rw [hab]; rfl)
    rw [runLengths_cons_cons hr, if_neg hab, hr]

theorem runLengths_replicate_append {a : α} {l : List α} (h : l.head? ≠ some a) (r : Nat) :
    runLengths (List.replicate (r + 1) a ++ l) = (r + 1) :: runLengths l := by
  induction r with
  | zero => exact runLengths_cons_of_ne h
  | succ r ih =>
    rw [List.replicate_succ, List.cons_append, List.replicate_succ, List.cons_append]
    rw [List.replicate_succ, List.cons_append] at ih
    rw [runLengths_cons_cons ih, if_pos rfl]

/-- **The list from its first run.** -/
theorem exists_of_runLengths {l : List α} {r : Nat} {rs : List Nat}
    (h : runLengths l = r :: rs) :
    ∃ a v, 1 ≤ r ∧ l = List.replicate r a ++ v ∧ v.head? ≠ some a ∧ runLengths v = rs := by
  induction l generalizing r rs with
  | nil => cases h
  | cons a l ih =>
    by_cases hl : l.head? = some a
    · obtain ⟨l, rfl⟩ : ∃ l', l = a :: l' := List.head?_eq_some_iff.mp hl
      obtain ⟨r', rs', hr⟩ := List.exists_cons_of_ne_nil (runLengths_ne_nil a l)
      rw [runLengths_cons_cons hr, if_pos rfl] at h
      obtain ⟨rfl, rfl⟩ := List.cons.inj h
      obtain ⟨b, v, hpos, heq, hv, hrs⟩ := ih hr
      obtain ⟨n, rfl⟩ : ∃ n, r' = n + 1 := ⟨r' - 1, by omega⟩
      obtain rfl : a = b := by
        rw [List.replicate_succ, List.cons_append] at heq
        exact List.head_eq_of_cons_eq heq
      exact ⟨a, v, by omega, by rw [heq, ← List.cons_append, ← List.replicate_succ], hv, hrs⟩
    · rw [runLengths_cons_of_ne hl] at h
      obtain ⟨rfl, rfl⟩ := List.cons.inj h
      exact ⟨a, l, Nat.le_refl 1, rfl, hl, rfl⟩

section Front

omit [DecidableEq α]

variable {a : α} {r : Nat} {v : List α}

theorem getElem?_run {k : Nat} (hk : k < r) : (List.replicate r a ++ v)[k]? = some a := by
  rw [List.getElem?_append_left (by rwa [List.length_replicate]),
    List.getElem?_replicate_of_lt hk]

theorem getElem?_after_run : (List.replicate r a ++ v)[r]? = v.head? := by
  rw [List.getElem?_append_right (Nat.le_of_eq List.length_replicate), List.length_replicate,
    Nat.sub_self, List.head?_eq_getElem?]

theorem length_of_drop_eq_run {l : List α} {i : Nat} (h : l.drop i = List.replicate r a ++ v)
    (hr : 1 ≤ r) : l.length = i + (r + v.length) := by
  have hlen := congrArg List.length h
  rw [List.length_drop, List.length_append, List.length_replicate] at hlen
  omega

theorem le_of_replicate_prefix {b : α} {k : Nat} (hv : v.head? ≠ some a) (hr : 1 ≤ r)
    (h : List.replicate k b <+: List.replicate r a ++ v) : k ≤ r := by
  by_contra hlt
  have hget : ∀ i, i < k → (List.replicate r a ++ v)[i]? = some b := by
    obtain ⟨u, hu⟩ := h
    intro i hi
    rw [← hu, getElem?_run hi]
  have hfirst : some a = some b := (getElem?_run hr).symm.trans (hget 0 (by omega))
  have hafter : v.head? = some b := getElem?_after_run.symm.trans (hget r (by omega))
  exact hv (hafter.trans hfirst.symm)

end Front

end Lib
