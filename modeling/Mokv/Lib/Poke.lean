import Mathlib.Data.List.Basic

/-!
# Writing into a buffer

`poke s i d` is the buffer `s` with `d` written at position `i`; there is no result when `d`
does not fit.  A buffer that is filled from the front is a part that is written and a rest:
`poke_append` and `pokes_append` move the border between them.
-/

namespace Lib

variable {α : Type}

/-- `d` written at position `i`. -/
def poke (s : List α) (i : Nat) (d : List α) : Option (List α) :=
  if i + d.length ≤ s.length then some (s.take i ++ d ++ s.drop (i + d.length)) else none

/-- Several pieces, written one after the other. -/
def pokes (s : List α) (i : Nat) : List (List α) → Option (List α)
  | [] => some s
  | d :: ds => (poke s i d).bind fun s => pokes s (i + d.length) ds

theorem poke_append {w r d : List α} {i : Nat} (hi : i = w.length) (h : d.length ≤ r.length) :
    poke (w ++ r) i d = some (w ++ d ++ r.drop d.length) := by
  subst hi
  rw [poke, if_pos (by rw [List.length_append]; omega), List.take_left]
  congr 2
  rw [List.drop_append, List.drop_eq_nil_of_le (Nat.le_add_right _ _), List.nil_append,
    Nat.add_sub_cancel_left]

/-- **Pieces written one after the other are written as one.** -/
theorem pokes_append {w r : List α} {d : List (List α)} {i : Nat} (hi : i = w.length)
    (h : d.flatten.length ≤ r.length) :
    pokes (w ++ r) i d = some (w ++ d.flatten ++ r.drop d.flatten.length) := by
  induction d generalizing w r i with
  | nil => simp [pokes]
  | cons a d ih =>
    rw [List.flatten_cons, List.length_append] at h
    rw [pokes, poke_append hi (by omega), Option.bind_some, ih]
    · rw [List.drop_drop, List.flatten_cons, List.length_append, List.append_assoc w]
    · rw [List.length_append, hi]
    · rw [List.length_drop]
      omega

theorem exists_skip (w r : List α) {n : Nat} (h : n ≤ r.length) :
    ∃ gap, gap.length = n ∧ w ++ r = w ++ gap ++ r.drop n :=
  ⟨r.take n, List.length_take_of_le h, by rw [List.append_assoc, List.take_append_drop]⟩

end Lib
