import Mathlib.Data.Nat.Basic

/-!
# Bisection

The loop

    while (l < r) { mid = (l + r) >> 1; if (p(mid)) l = mid + 1; else r = mid; }

started at `l = 0`, `r = n`.  Both the lower bound (`p i` is `a[i] < key`) and
the upper bound (`p i` is `!(a[i] > key)`) of a sorted array are this loop.

`bisectLoop` counts down `r - l` so that it runs by structural recursion, and
`bisect_spec` says what the loop finds when `p` holds on an initial segment: the
length of that segment.
-/

namespace Lib

/-- The loop, with a bound on the number of turns it has left. -/
def bisectLoop (p : Nat → Bool) : Nat → Nat → Nat → Nat
  | 0, l, _ => l
  | fuel + 1, l, r =>
    if l < r then
      if p ((l + r) / 2) then bisectLoop p fuel ((l + r) / 2 + 1) r
      else bisectLoop p fuel l ((l + r) / 2)
    else l

/-- The loop on `[0, n)`.  Each turn shortens the interval, so `n` turns are enough. -/
def bisect (p : Nat → Bool) (n : Nat) : Nat := bisectLoop p n 0 n

/-- **What the loop finds.**  If `p` holds exactly below `b`, the loop returns
`b` from any interval around it. -/
theorem bisectLoop_eq {p : Nat → Bool} {b n : Nat} (hp : ∀ i, i < n → (p i = true ↔ i < b)) :
    ∀ fuel l r, r ≤ n → l ≤ b → b ≤ r → r - l ≤ fuel → bisectLoop p fuel l r = b := by
  intro fuel
  induction fuel with
  | zero =>
    intro l r _ hlb hbr hf
    rw [bisectLoop]
    omega
  | succ fuel ih =>
    intro l r hrn hlb hbr hf
    rw [bisectLoop]
    by_cases hlr : l < r
    · rw [if_pos hlr]
      have hmid : (l + r) / 2 < n := by omega
      by_cases hm : p ((l + r) / 2) = true
      · rw [if_pos hm]
        have := (hp _ hmid).mp hm
        exact ih _ _ hrn (by omega) hbr (by omega)
      · rw [if_neg hm]
        have : ¬ (l + r) / 2 < b := fun h => hm ((hp _ hmid).mpr h)
        exact ih _ _ (by omega) hlb (by omega) (by omega)
    · rw [if_neg hlr]
      omega

theorem bisect_spec {p : Nat → Bool} {b n : Nat} (hb : b ≤ n)
    (hp : ∀ i, i < n → (p i = true ↔ i < b)) : bisect p n = b :=
  bisectLoop_eq hp n 0 n (Nat.le_refl n) (Nat.zero_le b) hb (by omega)

end Lib
