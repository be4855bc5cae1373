import Mathlib.Algebra.Group.Nat.Defs
import Mathlib.Data.List.Basic

/-!
# Little-endian words

`le w n` is the number `n` in `w` bytes, least significant byte first, and `readLE w`
takes such a word from the front of a byte string.  What is read back is the number
modulo `256 ^ w` (`readLE_append`).
-/

namespace Lib

/-- The low `w` bytes of a number. -/
def le : Nat → Nat → List UInt8
  | 0, _ => []
  | w + 1, n => UInt8.ofNat n :: le w (n / 256)

/-- The number that bytes stand for. -/
def ofLE : List UInt8 → Nat
  | [] => 0
  | b :: bs => b.toNat + 256 * ofLE bs

/-- A word from the front, and the bytes after it. -/
def readLE (w : Nat) (s : List UInt8) : Option (Nat × List UInt8) :=
  if w ≤ s.length then some (ofLE (s.take w), s.drop w) else none

theorem length_le (w n : Nat) : (le w n).length = w := by
  induction w generalizing n with
  | zero => rfl
  | succ w ih => rw [le, List.length_cons, ih]

theorem ofLE_le (w n : Nat) : ofLE (le w n) = n % 256 ^ w := by
  induction w generalizing n with
  | zero => rw [Nat.pow_zero, Nat.mod_one]; rfl
  | succ w ih =>
    rw [le, ofLE, ih, Nat.pow_succ', Nat.mod_mul]
    rfl

/-- **A written word is read back, modulo its width.** -/
theorem readLE_append (w n : Nat) (rest : List UInt8) :
    readLE w (le w n ++ rest) = some (n % 256 ^ w, rest) := by
  have hlen := length_le w n
  rw [readLE, if_pos (by rw [List.length_append, hlen]; omega),
    List.take_append_of_le_length (by omega), List.take_of_length_le (by omega), ofLE_le,
    List.drop_append_of_le_length (by omega),
    List.drop_of_length_le (by omega), List.nil_append]

end Lib
