import Mokv.Lib.LittleEndian
import Mokv.Bytes

/-!
# Words in memory

Files are read and written through pointers into a mapping.  A pointer is the list of the
bytes from it to the end of the mapping, so `s + n` is `s.drop n`, and a read has no result
when it goes past the end.
-/

namespace Mokv.LSM

open Lib

/-- A `size_t` in the file. -/
def word (n : Nat) : Bytes := le 8 n

/-- `detail::ReadSize`. -/
def readSize (s : Bytes) : Option Nat := (readLE 8 s).map Prod.fst

/-- `detail::ReadUInt32`. -/
def readUInt32 (s : Bytes) : Option Nat := (readLE 4 s).map Prod.fst

/-- `n` words of 64 bits. -/
def readWords : Nat → Bytes → Option (List UInt64)
  | 0, _ => some []
  | n + 1, s => do
    let w ← readSize s
    let ws ← readWords n (s.drop 8)
    some (UInt64.ofNat w :: ws)

/-- The bytes of 64-bit words. -/
def words (ws : List UInt64) : Bytes := ws.flatMap fun w => word w.toNat

@[simp] theorem length_word (n : Nat) : (word n).length = 8 := length_le 8 n

theorem readLE_word {n : Nat} (h : n < 2 ^ 64) (rest : Bytes) :
    readLE 8 (word n ++ rest) = some (n, rest) := by
  rw [word, readLE_append, Nat.mod_eq_of_lt (by omega)]

theorem readSize_word {n : Nat} (h : n < 2 ^ 64) (rest : Bytes) :
    readSize (word n ++ rest) = some n := by
  rw [readSize, readLE_word h]
  rfl

theorem drop_word (n : Nat) (rest : Bytes) : (word n ++ rest).drop 8 = rest :=
  List.drop_left' (length_word n)

theorem readUInt32_word (n : Nat) (rest : Bytes) :
    readUInt32 (word n ++ rest) = some (n % 2 ^ 32) := by
  have hsplit : word n = le 4 n ++ le 4 (n / 256 / 256 / 256 / 256) := rfl
  rw [readUInt32, hsplit, List.append_assoc, readLE_append]
  rfl

@[simp] theorem length_words (ws : List UInt64) : (words ws).length = 8 * ws.length := by
  induction ws with
  | nil => rfl
  | cons w ws ih =>
    have hcons : words (w :: ws) = word w.toNat ++ words ws := List.flatMap_cons
    rw [hcons, List.length_append, ih, length_word, List.length_cons]
    omega

theorem readWords_words (ws : List UInt64) (rest : Bytes) :
    readWords ws.length (words ws ++ rest) = some ws := by
  induction ws with
  | nil => rfl
  | cons w ws ih =>
    have hcons : words (w :: ws) ++ rest = word w.toNat ++ (words ws ++ rest) := by
      rw [← List.append_assoc]
      rfl
    rw [List.length_cons, readWords, hcons, readSize_word w.toNat_lt, drop_word, ih]
    exact congrArg (fun v => some (v :: ws)) UInt64.ofNat_toNat

end Mokv.LSM
