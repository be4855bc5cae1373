import Mathlib.Algebra.Order.Floor.Ring
import Mathlib.Data.Rat.Floor
import Mathlib.Tactic.FieldSimp
import Mathlib.Tactic.Linarith
import Mathlib.Tactic.Positivity

/-!
# Double precision arithmetic on positive rationals

A double is taken as the rational number it stands for, and an operation is the exact one
followed by `toDouble`: to 53 significant bits, ties to the even neighbour.  The exponents are
not bounded, so this is about values that neither overflow nor get subnormal.

`abs_toDouble_sub_le` is the usual bound on the relative error; `toDouble_le` and `le_toDouble` are
the crude bounds that estimates use.
-/

namespace Lib.Binary64

/-- The nearest integer, ties to the even one. -/
def roundHalfEven (x : ℚ) : ℤ :=
  let f := ⌊x⌋
  if x - f < 1 / 2 then f
  else if 1 / 2 < x - f then f + 1
  else if f % 2 = 0 then f
  else f + 1

/-- The exponent of the leading bit. -/
def exponent (q : ℚ) : ℤ :=
  let e : ℤ := (Nat.log2 q.num.natAbs : ℤ) - (Nat.log2 q.den : ℤ)
  if q < 2 ^ e then e - 1 else e

/-- The nearest double. -/
def toDouble (q : ℚ) : ℚ :=
  let ulp : ℚ := 2 ^ (exponent q - 52)
  roundHalfEven (q / ulp) * ulp

theorem abs_roundHalfEven_sub_le (x : ℚ) : |(roundHalfEven x : ℚ) - x| ≤ 1 / 2 := by
  have hf := Int.floor_le x
  have hf' := Int.lt_floor_add_one x
  unfold roundHalfEven
  simp only
  rw [abs_le]
  split
  · constructor <;> linarith
  · split
    · push_cast
      constructor <;> linarith
    · split
      · constructor <;> linarith
      · push_cast
        constructor <;> linarith

theorem two_zpow_exponent_le {q : ℚ} (hq : 0 < q) : (2 : ℚ) ^ exponent q ≤ q := by
  unfold exponent
  simp only
  split
  · -- the quotient of the leading bits is off by less than one place
    have hnum : q.num.natAbs ≠ 0 := by
      rw [Int.natAbs_ne_zero]
      exact (Rat.num_pos.mpr hq).ne'
    have hn : (2 : ℚ) ^ Nat.log2 q.num.natAbs ≤ q.num := by
      have h : 2 ^ Nat.log2 q.num.natAbs ≤ q.num.natAbs := Nat.log2_self_le hnum
      have habs : ((q.num.natAbs : ℤ) : ℚ) = q.num := by
        rw [Int.natAbs_of_nonneg (Rat.num_pos.mpr hq).le]
      rw [← habs]
      exact_mod_cast h
    have hd : (q.den : ℚ) ≤ 2 ^ (Nat.log2 q.den + 1) := by
      have h : q.den < 2 ^ (Nat.log2 q.den + 1) := Nat.lt_log2_self
      exact_mod_cast h.le
    have hden : (0 : ℚ) < q.den := by exact_mod_cast q.den_pos
    rw [zpow_sub₀ two_ne_zero, zpow_sub₀ two_ne_zero, zpow_natCast, zpow_natCast, zpow_one, div_div,
      ← pow_succ]
    calc (2 : ℚ) ^ Nat.log2 q.num.natAbs / 2 ^ (Nat.log2 q.den + 1)
        ≤ q.num / q.den := by gcongr
      _ = q := Rat.num_div_den q
  · exact not_lt.mp ‹_›

/-- **The relative error of a rounding is at most `2 ^ -53`.** -/
theorem abs_toDouble_sub_le {q : ℚ} (hq : 0 < q) : |toDouble q - q| ≤ q / 2 ^ 53 := by
  have hulp : (0 : ℚ) < 2 ^ (exponent q - 52) := zpow_pos two_pos _
  have hle : (2 : ℚ) ^ (exponent q - 52) * 2 ^ 52 ≤ q := by
    rw [zpow_sub₀ two_ne_zero]
    have h : (2 : ℚ) ^ (52 : ℤ) = 2 ^ 52 := rfl
    rw [h, div_mul_cancel₀ _ (pow_ne_zero 52 two_ne_zero)]
    exact two_zpow_exponent_le hq
  have hround := abs_roundHalfEven_sub_le (q / 2 ^ (exponent q - 52))
  unfold toDouble
  simp only
  generalize (2 : ℚ) ^ (exponent q - 52) = ulp at hulp hle hround
  have heq : (roundHalfEven (q / ulp) : ℚ) * ulp - q =
      ((roundHalfEven (q / ulp) : ℚ) - q / ulp) * ulp := by
    rw [sub_mul, div_mul_cancel₀ _ hulp.ne']
  rw [heq, abs_mul, abs_of_pos hulp]
  calc |(roundHalfEven (q / ulp) : ℚ) - q / ulp| * ulp ≤ 1 / 2 * ulp := by gcongr
    _ ≤ q / 2 ^ 53 := by rw [le_div_iff₀ (by positivity)]; linarith

theorem toDouble_le {q : ℚ} (hq : 0 < q) : toDouble q ≤ 2 * q := by
  have h := (abs_le.mp (abs_toDouble_sub_le hq)).2
  have hsmall : q / 2 ^ 53 ≤ q := div_le_self hq.le (by norm_num)
  linarith

theorem le_toDouble {q : ℚ} (hq : 0 < q) : q ≤ 2 * toDouble q := by
  have h := (abs_le.mp (abs_toDouble_sub_le hq)).1
  have hsmall : q / 2 ^ 53 ≤ q / 2 := by gcongr; norm_num
  linarith

theorem toDouble_pos {q : ℚ} (hq : 0 < q) : 0 < toDouble q := by
  have h := le_toDouble hq
  linarith

/-- A double, zeros of either sign taken as one. -/
inductive Double where
  | finite (value : ℚ)
  | infinity (negative : Bool)
  | nan
deriving DecidableEq

/-- The quotient of two integers that are converted to doubles, the first of them positive. -/
def Double.ofRatio (n m : Nat) : Double :=
  if m = 0 then .infinity false else .finite (toDouble (toDouble n / toDouble m))

/-- `x < y`: false when one of them is not a number. -/
def Double.lt : Double → Double → Bool
  | .finite x, .finite y => x < y
  | .finite _, .infinity negative => !negative
  | .infinity negative, .finite _ => negative
  | .infinity negative, .infinity negative' => negative && !negative'
  | _, _ => false

end Lib.Binary64
