import Mathlib.Data.List.Lex
import Mathlib.Data.Int.ModEq
import Mokv.Lib.SortedAssoc

/-!
# Bytes and machine integers

Keys and values are byte strings, compared as `std::string_view` compares them:
byte by byte as unsigned numbers, a proper prefix first.

`size_t` values are natural numbers below `2 ^ 64` and signed integers are `Int`;
`toSizeT` and `toInt32` are the conversions the source performs where it assigns
one to the other.
-/

namespace Mokv

instance linearOrderUInt8 : LinearOrder UInt8 where
  le_refl := UInt8.le_refl
  le_trans _ _ _ := UInt8.le_trans
  le_antisymm _ _ := UInt8.le_antisymm
  le_total := UInt8.le_total
  lt_iff_le_not_ge _ _ :=
    ⟨fun h => ⟨UInt8.le_of_lt h, UInt8.not_le.mpr h⟩, fun h => UInt8.not_le.mp h.2⟩
  toDecidableLE := inferInstance
  toDecidableLT := inferInstance
  toDecidableEq := inferInstance

/-- A byte string. -/
abbrev Bytes := List UInt8

/-- The bytes of an ASCII literal. -/
def text (s : String) : Bytes := s.toList.map fun c => UInt8.ofNat c.toNat

/-- A key and its value. -/
abbrev Entry := Bytes × Bytes

/-- The bytes of keys and values in a list of entries. -/
def payload (l : List Entry) : Nat := (l.map fun e => e.1.length + e.2.length).sum

@[simp] theorem payload_nil : payload [] = 0 := rfl

@[simp] theorem payload_cons (e : Entry) (l : List Entry) :
    payload (e :: l) = e.1.length + e.2.length + payload l := by
  rw [payload, List.map_cons, List.sum_cons]
  rfl

theorem payload_append (l m : List Entry) : payload (l ++ m) = payload l + payload m := by
  rw [payload, List.map_append, List.sum_append]
  rfl

/-! ### Conversions -/

/-- `static_cast<size_t>` of a signed integer. -/
def toSizeT (z : Int) : Nat := (z % 2 ^ 64).toNat

/-- `static_cast<int32_t>`. -/
def toInt32 (z : Int) : Int := z.bmod (2 ^ 32)

/-- `static_cast<int64_t>`. -/
def toInt64 (z : Int) : Int := z.bmod (2 ^ 64)

theorem toSizeT_of_nonneg {z : Int} (h0 : 0 ≤ z) (h1 : z < 2 ^ 64) : toSizeT z = z.toNat := by
  rw [toSizeT, Int.emod_eq_of_lt h0 h1]

theorem toSizeT_natCast {n : Nat} (h : n < 2 ^ 64) : toSizeT n = n := by
  rw [toSizeT_of_nonneg (Int.natCast_nonneg n) (by exact_mod_cast h), Int.toNat_natCast]

theorem toSizeT_modEq (z : Int) : (toSizeT z : Int) ≡ z [ZMOD 2 ^ 64] := by
  rw [toSizeT, Int.toNat_of_nonneg (Int.emod_nonneg _ (by decide))]
  exact Int.mod_modEq z _

theorem toSizeT_lt (z : Int) : toSizeT z < 2 ^ 64 := by
  unfold toSizeT
  omega

theorem toInt32_of_nonneg {z : Int} (h0 : 0 ≤ z) (h1 : z < 2 ^ 31) : toInt32 z = z := by
  rw [toInt32, Int.bmod_def]
  omega

theorem toInt32_natCast {n : Nat} (h : n < 2 ^ 31) : toInt32 n = n :=
  toInt32_of_nonneg (Int.natCast_nonneg n) (by exact_mod_cast h)

theorem toInt64_of_nonneg {z : Int} (h0 : 0 ≤ z) (h1 : z < 2 ^ 63) : toInt64 z = z := by
  rw [toInt64, Int.bmod_def]
  omega

/-- `+` on a `size_t`. -/
def addSize (n m : Nat) : Nat := (n + m) % 2 ^ 64

/-- `-` on a `size_t`. -/
def subSize (n m : Nat) : Nat := (n + 2 ^ 64 - m) % 2 ^ 64

/-- `++` on a `size_t`. -/
def incSize (n : Nat) : Nat := addSize n 1

theorem addSize_eq {n m : Nat} (h : n + m < 2 ^ 64) : addSize n m = n + m := Nat.mod_eq_of_lt h

theorem subSize_eq {n m : Nat} (h : n + m < 2 ^ 64) : subSize (n + m) m = n := by
  have heq : n + m + 2 ^ 64 - m = n + 2 ^ 64 := by omega
  rw [subSize, heq, Nat.add_mod_right]
  exact Nat.mod_eq_of_lt (by omega)

end Mokv
