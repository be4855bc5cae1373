import Mokv.Lib.Decimal
import Mokv.Lib.Text

/-!
# Signed numerals

`scanInt` reads a number at the head of a text as `strtoll` and the stream operators do: behind
blanks, with one sign or none, as many digits as there are, and it leaves what follows.
`readInt` reads a text that is a numeral as a whole, and `printInt` writes one.

* `readInt_iff_scanInt`: the whole text is a numeral when nothing is left behind it.
* `scanInt_printInt`: what is written is scanned back.
-/

namespace Lib

/-- `std::isdigit`. -/
def isDigit (ch : UInt8) : Bool := 48 ≤ ch && ch ≤ 57

/-- Whether the text begins with a minus, and the text behind its sign. -/
def readSign : List UInt8 → Bool × List UInt8
  | [] => (false, [])
  | ch :: s => if ch = 45 then (true, s) else if ch = 43 then (false, s) else (false, ch :: s)

/-- The number with its sign. -/
def signed (minus : Bool) (n : Nat) : Int := if minus then -n else n

/-- The number at the head of the text and the text behind it. -/
def scanInt (s : List UInt8) : Option (Int × List UInt8) :=
  let (minus, s) := readSign (s.dropWhile isSpace)
  let digits := s.takeWhile isDigit
  if digits = [] then none
  else (readDigits 0 digits).map fun n => (signed minus n, s.dropWhile isDigit)

/-- The number that the whole text denotes. -/
def readInt (s : List UInt8) : Option Int :=
  let (minus, digits) := readSign s
  if digits = [] then none else (readDigits 0 digits).map (signed minus)

/-- The number at the head of the text as one of `w` bits with a sign; a larger one is an error. -/
def scanSigned (w : Nat) (s : List UInt8) : Option (Int × List UInt8) :=
  (scanInt s).filter fun p => -2 ^ (w - 1) ≤ p.1 ∧ p.1 < 2 ^ (w - 1)

/-- The number at the head of the text as one of `w` bits without a sign: one with a minus
wraps around. -/
def scanUnsigned (w : Nat) (s : List UInt8) : Option (Nat × List UInt8) :=
  ((scanInt s).filter fun p => p.1.natAbs < 2 ^ w).map fun p => ((p.1 % 2 ^ w).toNat, p.2)

/-- The number in decimal. -/
def printInt (v : Int) : List UInt8 := if v < 0 then 45 :: decimal v.natAbs else decimal v.natAbs

/-! ### Digits -/

theorem isDigit_iff {ch : UInt8} : isDigit ch ↔ 48 ≤ ch.toNat ∧ ch.toNat ≤ 57 := by
  rw [isDigit, Bool.and_eq_true, decide_eq_true_eq, decide_eq_true_eq, UInt8.le_iff_toNat_le,
    UInt8.le_iff_toNat_le]
  exact Iff.rfl

theorem isSpace_of_isDigit {ch : UInt8} (h : isDigit ch) : isSpace ch = false := by
  rw [isDigit_iff] at h
  rw [isSpace, Bool.or_eq_false_iff, Bool.and_eq_false_iff, decide_eq_false_iff_not,
    decide_eq_false_iff_not, decide_eq_false_iff_not, ← UInt8.toNat_inj, UInt8.le_iff_toNat_le,
    UInt8.le_iff_toNat_le]
  simp only [UInt8.reduceToNat]
  omega

/-- The value is read exactly when there are only digits. -/
theorem isSome_readDigits_iff {acc : Nat} {l : List UInt8} :
    (readDigits acc l).isSome ↔ ∀ ch ∈ l, isDigit ch := by
  induction l generalizing acc with
  | nil => simp [readDigits]
  | cons ch l ih =>
    rw [readDigits, List.forall_mem_cons, isDigit_iff]
    split
    · rw [ih]
      tauto
    · simp_all

theorem isDigit_of_mem_decimal {n : Nat} {ch : UInt8} (h : ch ∈ decimal n) : isDigit ch :=
  isDigit_iff.mpr (digit_of_readDigits (readDigits_decimal n) ch h)

theorem head_decimal (n : Nat) : ∃ ch l, decimal n = ch :: l ∧ isDigit ch := by
  cases hn : decimal n with
  | nil => exact absurd hn (decimal_ne_nil n)
  | cons ch l => exact ⟨ch, l, rfl, isDigit_of_mem_decimal (hn ▸ List.mem_cons_self)⟩

/-! ### Signs -/

theorem readSign_of_isDigit {ch : UInt8} {l : List UInt8} (h : isDigit ch) :
    readSign (ch :: l) = (false, ch :: l) := by
  rw [readSign, if_neg, if_neg]
  · rintro rfl
    exact absurd h (by decide)
  · rintro rfl
    exact absurd h (by decide)

theorem readSign_decimal (n : Nat) : readSign (decimal n) = (false, decimal n) := by
  obtain ⟨ch, l, hn, hch⟩ := head_decimal n
  rw [hn, readSign_of_isDigit hch]

/-! ### Whole texts -/

theorem takeWhile_isDigit_eq_self_iff {l : List UInt8} :
    l.takeWhile isDigit = l ↔ l.dropWhile isDigit = [] := by
  rw [List.takeWhile_eq_self_iff, List.dropWhile_eq_nil_iff]

theorem readDigits_eq_none_iff {acc : Nat} {l : List UInt8} :
    readDigits acc l = none ↔ l.dropWhile isDigit ≠ [] := by
  rw [← Option.not_isSome_iff_eq_none, isSome_readDigits_iff, Ne, List.dropWhile_eq_nil_iff]

theorem readInt_iff_scanInt {s : List UInt8} (hs : Trimmed s) {v : Int} :
    readInt s = some v ↔ scanInt s = some (v, []) := by
  rw [readInt, scanInt, dropWhile_isSpace hs.head]
  obtain ⟨minus, digits⟩ := readSign s
  by_cases hdrop : digits.dropWhile isDigit = []
  · have hall := takeWhile_isDigit_eq_self_iff.mpr hdrop
    simp only [hall, hdrop]
    split
    · simp
    · simp [Option.map_eq_some_iff]
  · simp only [readDigits_eq_none_iff.mpr hdrop, Option.map_none, ite_self]
    constructor
    · exact nofun
    · intro h
      split at h
      · cases h
      · obtain ⟨n, -, hn⟩ := Option.map_eq_some_iff.mp h
        exact absurd (congrArg Prod.snd hn) hdrop

theorem signed_natAbs (v : Int) : signed (decide (v < 0)) v.natAbs = v := by
  rw [signed]
  by_cases hv : v < 0
  · rw [if_pos (decide_eq_true hv), Int.ofNat_natAbs_of_nonpos (by omega), Int.neg_neg]
  · rw [if_neg (by simpa using hv), Int.natAbs_of_nonneg (by omega)]

/-- **What is written is a numeral.** -/
theorem readInt_printInt (v : Int) : readInt (printInt v) = some v := by
  have hsign : readSign (printInt v) = (decide (v < 0), decimal v.natAbs) := by
    unfold printInt
    split
    · rw [readSign, if_pos rfl, decide_eq_true ‹_›]
    · rw [readSign_decimal, decide_eq_false ‹_›]
  rw [readInt, hsign]
  simp only [if_neg (decimal_ne_nil _), readDigits_decimal, Option.map_some, signed_natAbs]

theorem not_isSpace_of_mem_printInt {v : Int} {ch : UInt8} (h : ch ∈ printInt v) :
    isSpace ch = false := by
  unfold printInt at h
  split at h
  · rcases List.mem_cons.mp h with rfl | h
    · decide
    · exact isSpace_of_isDigit (isDigit_of_mem_decimal h)
  · exact isSpace_of_isDigit (isDigit_of_mem_decimal h)

theorem trimmed_printInt (v : Int) : Trimmed (printInt v) :=
  trimmed_of_forall fun _ => not_isSpace_of_mem_printInt

theorem printInt_ne_nil (v : Int) : printInt v ≠ [] := by
  unfold printInt
  split
  · exact List.cons_ne_nil _ _
  · exact decimal_ne_nil _

/-- **What is written is scanned back.** -/
theorem scanInt_printInt (v : Int) : scanInt (printInt v) = some (v, []) :=
  (readInt_iff_scanInt (trimmed_printInt v)).mp (readInt_printInt v)

/-- A number written has only its sign and digits. -/
theorem mem_printInt {v : Int} {ch : UInt8} (h : ch ∈ printInt v) : ch = 45 ∨ isDigit ch := by
  unfold printInt at h
  split at h
  · rcases List.mem_cons.mp h with rfl | h
    · exact Or.inl rfl
    · exact Or.inr (isDigit_of_mem_decimal h)
  · exact Or.inr (isDigit_of_mem_decimal h)

/-! ### Machine integers -/

theorem scanSigned_eq_some {w : Nat} {s rest : List UInt8} {v : Int} :
    scanSigned w s = some (v, rest) ↔
      scanInt s = some (v, rest) ∧ -2 ^ (w - 1) ≤ v ∧ v < 2 ^ (w - 1) := by
  rw [scanSigned, Option.filter_eq_some_iff, decide_eq_true_eq]

theorem scanUnsigned_eq_some {w : Nat} {s rest : List UInt8} {n : Nat} :
    scanUnsigned w s = some (n, rest) ↔
      ∃ v, scanInt s = some (v, rest) ∧ v.natAbs < 2 ^ w ∧ n = (v % 2 ^ w).toNat := by
  rw [scanUnsigned, Option.map_eq_some_iff]
  constructor
  · rintro ⟨⟨v, rest'⟩, hv, hn⟩
    rw [Option.filter_eq_some_iff, decide_eq_true_eq] at hv
    obtain ⟨rfl, rfl⟩ := Prod.mk.inj hn
    exact ⟨v, hv.1, hv.2, rfl⟩
  · rintro ⟨v, hv, hlt, rfl⟩
    exact ⟨(v, rest), Option.filter_eq_some_iff.mpr ⟨hv, decide_eq_true hlt⟩, rfl⟩

theorem toNat_emod_of_nonneg {w : Nat} {v : Int} (hv : 0 ≤ v) (hlt : v.natAbs < 2 ^ w) :
    ((v % 2 ^ w).toNat : Int) = v := by
  have hlt' : v < 2 ^ w := by
    rw [← Int.natAbs_of_nonneg hv]
    exact_mod_cast hlt
  rw [Int.emod_eq_of_lt hv hlt', Int.toNat_of_nonneg hv]

theorem toNat_emod_lt (w : Nat) (v : Int) : (v % 2 ^ w).toNat < 2 ^ w := by
  have hpos : (0 : Int) < 2 ^ w := by positivity
  have hlt := Int.emod_lt_of_pos v hpos
  have hnonneg := Int.emod_nonneg v (ne_of_gt hpos)
  zify
  rw [Int.toNat_of_nonneg hnonneg]
  exact hlt

end Lib
