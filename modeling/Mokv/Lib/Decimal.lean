import Mathlib.Data.List.Lex
import Mathlib.Data.Nat.Digits.Lemmas

/-!
# Decimal numerals

`decimal n` is the number `n` in ASCII digits without leading zeros, `padded w n` the same
with zeros in front up to the width `w`, and `readDigits` reads digits from the left.

* `readDigits_decimal`, `readDigits_padded`: what is written is read back.
* `padded_lt_padded`: numerals of one width are ordered as byte strings in the order of
  the numbers.
-/

namespace Lib

/-- The ASCII digit. -/
def digitByte (d : Nat) : UInt8 := UInt8.ofNat (48 + d)

/-- The number in decimal. -/
def decimal (n : Nat) : List UInt8 :=
  if n = 0 then [48] else ((Nat.digits 10 n).reverse).map digitByte

/-- The number in decimal, with zeros in front. -/
def padded (w n : Nat) : List UInt8 := List.replicate (w - (decimal n).length) 48 ++ decimal n

/-- Digits after the value read so far; another byte is an error. -/
def readDigits : Nat → List UInt8 → Option Nat
  | acc, [] => some acc
  | acc, ch :: l =>
    if 48 ≤ ch.toNat ∧ ch.toNat ≤ 57 then readDigits (10 * acc + (ch.toNat - 48)) l else none

/-! ### Reading back -/

theorem toNat_digitByte {d : Nat} (h : d < 10) : (digitByte d).toNat = 48 + d := by
  rw [digitByte, UInt8.toNat_ofNat']
  omega

theorem readDigits_cons {d : Nat} (h : d < 10) (acc : Nat) (l : List UInt8) :
    readDigits acc (digitByte d :: l) = readDigits (10 * acc + d) l := by
  rw [readDigits, toNat_digitByte h, if_pos (by omega), Nat.add_sub_cancel_left]

theorem readDigits_map {ds : List Nat} (h : ∀ d ∈ ds, d < 10) (acc : Nat) :
    readDigits acc (ds.map digitByte) = some (ds.foldl (fun a d => 10 * a + d) acc) := by
  induction ds generalizing acc with
  | nil => rfl
  | cons d ds ih =>
    rw [List.map_cons, readDigits_cons (h d List.mem_cons_self), List.foldl_cons,
      ih fun e he => h e (List.mem_cons_of_mem _ he)]

theorem readDigits_decimal (n : Nat) : readDigits 0 (decimal n) = some n := by
  unfold decimal
  split
  · subst n
    rfl
  · rw [readDigits_map, List.foldl_reverse]
    · have h := Nat.ofDigits_digits 10 n
      rw [Nat.ofDigits_eq_foldr] at h
      refine congrArg some (Eq.trans ?_ h)
      congr 1
      funext d a
      simp
      omega
    · intro d hd
      exact Nat.digits_lt_base (by decide) (List.mem_reverse.mp hd)

theorem readDigits_replicate (k : Nat) (l : List UInt8) :
    readDigits 0 (List.replicate k 48 ++ l) = readDigits 0 l := by
  induction k with
  | zero => rfl
  | succ k ih =>
    rw [List.replicate_succ, List.cons_append]
    exact ih

theorem readDigits_padded (w n : Nat) : readDigits 0 (padded w n) = some n := by
  rw [padded, readDigits_replicate, readDigits_decimal]

theorem decimal_ne_nil (n : Nat) : decimal n ≠ [] := by
  unfold decimal
  split
  · simp
  · simpa using Nat.digits_ne_nil_iff_ne_zero.mpr ‹¬ n = 0›

theorem digit_of_readDigits {acc n : Nat} {l : List UInt8} (h : readDigits acc l = some n) :
    ∀ ch ∈ l, 48 ≤ ch.toNat ∧ ch.toNat ≤ 57 := by
  induction l generalizing acc with
  | nil => simp
  | cons ch l ih =>
    rw [readDigits] at h
    split at h
    · intro b hb
      rcases List.mem_cons.mp hb with rfl | hb
      · assumption
      · exact ih h b hb
    · cases h

/-! ### Order -/

theorem readDigits_bounds {acc n : Nat} {l : List UInt8} (h : readDigits acc l = some n) :
    acc * 10 ^ l.length ≤ n ∧ n < (acc + 1) * 10 ^ l.length := by
  induction l generalizing acc with
  | nil =>
    obtain rfl := Option.some.inj h
    simp
  | cons ch l ih =>
    rw [readDigits] at h
    split at h
    · obtain ⟨hlo, hhi⟩ := ih h
      rw [List.length_cons, Nat.pow_succ']
      constructor
      · refine le_trans ?_ hlo
        rw [← Nat.mul_assoc]
        exact Nat.mul_le_mul_right _ (by omega)
      · refine lt_of_lt_of_le hhi ?_
        rw [← Nat.mul_assoc]
        exact Nat.mul_le_mul_right _ (by omega)
    · cases h

theorem lt_of_readDigits_lt {acc x y : Nat} {l m : List UInt8} (hlen : l.length = m.length)
    (hx : readDigits acc l = some x) (hy : readDigits acc m = some y) (h : x < y) : l < m := by
  induction l generalizing acc m with
  | nil =>
    obtain rfl := List.eq_nil_of_length_eq_zero hlen.symm
    exact absurd (Option.some.inj (hx.symm.trans hy)) (ne_of_lt h)
  | cons c l ih =>
    cases m with
    | nil => cases hlen
    | cons d m =>
      have hlen' : l.length = m.length := by simpa using hlen
      rw [readDigits] at hx hy
      split at hx
      · split at hy
        · rw [List.cons_lt_cons_iff]
          rcases Nat.lt_trichotomy c.toNat d.toNat with hcd | hcd | hcd
          · exact Or.inl (UInt8.lt_iff_toNat_lt.mpr hcd)
          · obtain rfl := UInt8.toNat_inj.mp hcd
            exact Or.inr ⟨rfl, ih hlen' hx hy⟩
          · -- the smaller first digit would make the smaller number
            have hyx : y < x := by
              refine lt_of_lt_of_le (readDigits_bounds hy).2 (le_trans ?_ (readDigits_bounds hx).1)
              rw [hlen']
              exact Nat.mul_le_mul_right _ (by omega)
            exact absurd h (not_lt_of_gt hyx)
        · cases hy
      · cases hx

theorem length_decimal_le {w n : Nat} (hw : 0 < w) (h : n < 10 ^ w) : (decimal n).length ≤ w := by
  unfold decimal
  split
  · exact hw
  · rw [List.length_map, List.length_reverse]
    exact (Nat.digits_length_le_iff (by decide) n).mpr h

theorem length_padded {w n : Nat} (hw : 0 < w) (h : n < 10 ^ w) : (padded w n).length = w := by
  have hle := length_decimal_le hw h
  rw [padded, List.length_append, List.length_replicate]
  omega

/-- **Numerals of one width are in the order of the numbers.** -/
theorem padded_lt_padded {w a b : Nat} (hw : 0 < w) (hb : b < 10 ^ w) (h : a < b) :
    padded w a < padded w b := by
  have hlen : (padded w a).length = (padded w b).length := by
    rw [length_padded hw (lt_trans h hb), length_padded hw hb]
  exact lt_of_readDigits_lt hlen (readDigits_padded w a) (readDigits_padded w b) h

end Lib
