import Mokv.Bytes
import Mokv.Lib.Poke
import Mokv.Lib.Runs

/-!
# The Snappy compressor

`SnappyCompressor` (`mokv/utils/compression.hpp`) has its own format.  The compressor writes
blocks, each with an opcode in front:

* a run of 4 to 11 equal bytes: its length less 4, and the bytes;
* a longer run: `0xFC`, and for each 64 bytes of it three bytes, which are a length less 4
  and a position less 4;
* anything else, up to 60 bytes: its length, and the bytes.

A loop that reads or writes outside of its buffers has no result.  `char` is signed.

`IsBlock` says where the blocks end.  `turn_isBlock`: from three bytes of input on, every
turn of the compressor reads inside its input and writes such a block.  On shorter inputs
`input_length - 3` is below zero and the first turn reads too far (`turn_short`).
-/

namespace Mokv.Snappy

open Lib

/-- The source of a `memcpy`. -/
def slice? (data : Bytes) (i size : Nat) : Option Bytes :=
  if i + size ≤ data.length then some ((data.drop i).take size) else none

/-! ### `snappy_compress` -/

/-- `input[i] == input[i + d]` for each `d`, up to the first that differs. -/
def allSame (input : Bytes) (i : Nat) : List Nat → Option Bool
  | [] => some true
  | d :: ds => do
    let a ← input[i]?
    let b ← input[i + d]?
    if a = b then allSame input i ds else some false

/-- `i < input_length - 3 && input[i] == input[i + d] && ...`. -/
def repeats (input : Bytes) (i : Nat) (ds : List Nat) : Option Bool :=
  if i < subSize input.length 3 then allSame input i ds else some false

/-- `while (j < input_length && input[j] == input[i]) ++j`. -/
def runEnd (input : Bytes) (i : Nat) : Nat → Nat → Option Nat
  | fuel, j =>
    if j < input.length then
      match fuel with
      | 0 => none
      | fuel + 1 => do
        let a ← input[j]?
        let b ← input[i]?
        if a = b then runEnd input i fuel (j + 1) else some j
    else some j

/-- The loop of the back references. -/
def chunks (i : Nat) : Nat → Nat → Option Bytes
  | fuel, emit =>
    if emit > 0 then
      match fuel with
      | 0 => none
      | fuel + 1 => do
        let copylen := if emit > 64 then 64 else emit
        let rest ← chunks i fuel (emit - copylen)
        some (UInt8.ofNat (subSize copylen 4) :: UInt8.ofNat (subSize i 4 % 256) ::
          UInt8.ofNat (subSize i 4 / 256 % 256) :: rest)
    else some []

/-- The loop that finds the end of a literal. -/
def literalLength (input : Bytes) (i : Nat) : Nat → Nat → Option Nat
  | fuel, literal =>
    if i + literal < input.length ∧ literal < 60 then
      match fuel with
      | 0 => none
      | fuel + 1 => do
        if ← repeats input (i + literal) [1, 2] then some literal
        else literalLength input i fuel (literal + 1)
    else some literal

/-- One turn of the loop: the block that it writes and the position after it. -/
def turn (input : Bytes) (i : Nat) : Option (Bytes × Nat) := do
  if ← repeats input i [1, 2, 3] then
    let j ← runEnd input i input.length (i + 4)
    let length := j - i
    if length < 12 then
      let bytes ← slice? input i length
      some (UInt8.ofNat (length - 4) :: bytes, i + length)
    else
      let references ← chunks i length length
      some (0xFC :: references, i + length)
  else
    let literal ← literalLength input i 60 1
    let bytes ← slice? input i literal
    some (UInt8.ofNat literal :: bytes, i + literal)

/-- `while (i < input_length)`. -/
def compressLoop (input : Bytes) : Nat → Nat → Bytes → Option Bytes
  | fuel, i, output =>
    if i < input.length then
      match fuel with
      | 0 => none
      | fuel + 1 => do
        let (block, i) ← turn input i
        compressLoop input fuel i (output ++ block)
    else some output

/-- `snappy_compress`. -/
def snappyCompress (input : Bytes) : Option Bytes := compressLoop input input.length 0 []

/-- `snappy_max_compressed_length`. -/
def snappyMaxCompressedLength (inputLength : Nat) : Nat :=
  addSize (addSize 32 inputLength) (inputLength / 6)

/-! ### `snappy_uncompress` -/

/-- The loop of a back reference, for `length` bytes from `j` on. -/
def copyBack (offset : Nat) : Nat → Nat → Bytes → Option Bytes
  | 0, _, decompressed => some decompressed
  | length + 1, j, decompressed => do
    let byte ← decompressed[subSize j (offset + 4)]?
    let decompressed ← poke decompressed j [byte]
    copyBack offset length (j + 1) decompressed

/-- One turn of the loop: the positions after it, and the output. -/
def uncompressTurn (compressed : Bytes) (i j : Nat) (decompressed : Bytes) :
    Option (Nat × Nat × Bytes) := do
  let op ← compressed[i]?
  if op < 64 then
    let bytes ← slice? compressed (i + 1) (op.toNat + 1)
    let decompressed ← poke decompressed j bytes
    some (i + 1 + (op.toNat + 1), j + (op.toNat + 1), decompressed)
  else if op < 252 then
    let length := op.toNat - 60
    let byte1 ← compressed[i + 1]?
    let byte2 ← compressed[i + 2]?
    let offset := byte1.toNat ||| (byte2.toNat <<< 8)
    let decompressed ← copyBack offset length j decompressed
    some (i + 3, j + length, decompressed)
  else if op = 252 then
    let length ← (compressed[i + 1]?).map fun byte => toSizeT ((byte.toNat : Int).bmod 256)
    let byte1 ← compressed[i + 2]?
    let byte2 ← compressed[i + 3]?
    let byte3 ← compressed[i + 4]?
    let offset := byte1.toNat ||| (byte2.toNat <<< 8) ||| (byte3.toNat <<< 16)
    let decompressed ← copyBack offset length j decompressed
    some (i + 5, j + length, decompressed)
  else if op = 253 then some (i + 4, j, decompressed)
  else some (i + 3, j, decompressed)

/-- `while (i < compressed_length)`. -/
def uncompressLoop (compressed : Bytes) : Nat → Nat → Nat → Bytes → Option Bytes
  | fuel, i, j, decompressed =>
    if i < compressed.length then
      match fuel with
      | 0 => none
      | fuel + 1 => do
        let (i, j, decompressed) ← uncompressTurn compressed i j decompressed
        uncompressLoop compressed fuel i j decompressed
    else some decompressed

/-- `snappy_uncompress`. -/
def snappyUncompress (compressed decompressed : Bytes) : Option Bytes :=
  uncompressLoop compressed compressed.length 0 0 decompressed

/-! ### `SnappyCompressor` -/

/-- `Compress`.  The buffer has `snappy_max_compressed_length` bytes. -/
def compress (data : Bytes) : Option Bytes :=
  if data.length = 0 then some []
  else do
    let output ← snappyCompress data
    if output.length ≤ snappyMaxCompressedLength data.length then some output else none

/-- `Decompress`: the buffer after the call and the result. -/
def decompress (data : Bytes) (originalSize : Nat) (output : Bytes) : Option (Bytes × Nat) :=
  if data = [] ∨ output.length < originalSize then some (output, 0)
  else (snappyUncompress data output).map fun output => (output, originalSize)

/-! ### Reading ahead -/

/-- Three equal bytes, and one more byte. -/
def Three (w : Bytes) : Prop := ∃ a b v, w = a :: a :: a :: b :: v

/-- Four equal bytes. -/
def Four (w : Bytes) : Prop := ∃ a v, w = a :: a :: a :: a :: v

theorem allSame_eq {input : Bytes} {i : Nat} {ds : List Nat} (hi : i < input.length)
    (hds : ∀ d ∈ ds, i + d < input.length) :
    allSame input i ds = some (decide (∀ d ∈ ds, input[i + d]? = input[i]?)) := by
  induction ds with
  | nil => simp [allSame]
  | cons d ds ih =>
    have hd := hds d List.mem_cons_self
    rw [allSame, List.getElem?_eq_getElem hi, List.getElem?_eq_getElem hd]
    simp only [Option.bind_eq_bind, Option.bind_some]
    by_cases hab : input[i] = input[i + d]
    · rw [if_pos hab, ih fun d' hd' => hds d' (List.mem_cons_of_mem _ hd')]
      simp [List.getElem?_eq_getElem hi, List.getElem?_eq_getElem hd, hab]
    · rw [if_neg hab]
      simp [List.getElem?_eq_getElem hd, Ne.symm hab]

theorem repeats_eq {input : Bytes} (hn : 3 ≤ input.length) (hlt : input.length < 2 ^ 64)
    (i : Nat) {ds : List Nat} (hds : ∀ d ∈ ds, d ≤ 3) :
    repeats input i ds = some (decide (3 < (input.drop i).length ∧
      ∀ d ∈ ds, (input.drop i)[d]? = (input.drop i)[0]?)) := by
  have hsub : subSize input.length 3 = input.length - 3 := by
    obtain ⟨m, hm⟩ : ∃ m, input.length = m + 3 := ⟨input.length - 3, by omega⟩
    rw [hm, subSize_eq (by omega)]
    omega
  simp only [List.getElem?_drop, Nat.add_zero, List.length_drop]
  rw [repeats, hsub]
  by_cases hi : i < input.length - 3
  · rw [if_pos hi, allSame_eq (by omega) fun d hd => by have := hds d hd; omega]
    have h3 : 3 < input.length - i := by omega
    simp [h3]
  · rw [if_neg hi]
    have h3 : ¬ 3 < input.length - i := by omega
    simp [h3]

theorem four_iff (w : Bytes) :
    (3 < w.length ∧ ∀ d ∈ [1, 2, 3], w[d]? = w[0]?) ↔ Four w := by
  rcases w with _ | ⟨a, _ | ⟨b, _ | ⟨c, _ | ⟨d, v⟩⟩⟩⟩ <;> simp [Four]

theorem three_iff (w : Bytes) :
    (3 < w.length ∧ ∀ d ∈ [1, 2], w[d]? = w[0]?) ↔ Three w := by
  rcases w with _ | ⟨a, _ | ⟨b, _ | ⟨c, _ | ⟨d, v⟩⟩⟩⟩ <;> simp [Three]

theorem Four.exists_prefix {w : Bytes} (h : Four w) : ∃ a, List.replicate 4 a <+: w := by
  obtain ⟨a, v, rfl⟩ := h
  exact ⟨a, v, rfl⟩

theorem Three.exists_prefix {w : Bytes} (h : Three w) : ∃ a, List.replicate 3 a <+: w := by
  obtain ⟨a, b, v, rfl⟩ := h
  exact ⟨a, b :: v, rfl⟩

/-! ### The loops -/

section Loops

variable {input : Bytes} {i : Nat}

theorem runEnd_eq {r : Nat} {a : UInt8} {v : Bytes}
    (hw : input.drop i = List.replicate r a ++ v) (hv : v.head? ≠ some a) (hr : 1 ≤ r) :
    ∀ fuel k, k ≤ r → input.length ≤ fuel + (i + k) →
      runEnd input i fuel (i + k) = some (i + r) := by
  have hlen := length_of_drop_eq_run hw hr
  have hget : ∀ k, k < r → input[i + k]? = some a := by
    intro k hk
    rw [← List.getElem?_drop, hw, getElem?_run hk]
  have hnext : input[i + r]? = v.head? := by
    rw [← List.getElem?_drop, hw, getElem?_after_run]
  intro fuel
  induction fuel with
  | zero =>
    intro k hk hf
    rw [runEnd, if_neg (by omega), show k = r by omega]
  | succ fuel ih =>
    intro k hk hf
    rw [runEnd]
    by_cases hj : i + k < input.length
    · have hi := hget 0 hr
      rw [Nat.add_zero] at hi
      rw [if_pos hj]
      rcases Nat.lt_or_eq_of_le hk with hk | rfl
      · simp only [hget k hk, hi, Option.bind_eq_bind, Option.bind_some, if_true]
        exact ih (k + 1) hk (by omega)
      · rw [List.getElem?_eq_getElem hj] at hnext
        have hne : input[i + k] ≠ a := fun he => hv (by rw [← hnext, he])
        simp only [List.getElem?_eq_getElem hj, hi, Option.bind_eq_bind, Option.bind_some,
          if_neg hne]
    · rw [if_neg hj, show k = r by omega]

theorem chunks_eq (i : Nat) : ∀ fuel emit, emit ≤ fuel →
    ∃ bytes, chunks i fuel emit = some bytes ∧ bytes.length = 3 * ((emit + 63) / 64) := by
  intro fuel
  induction fuel with
  | zero =>
    intro emit he
    obtain rfl : emit = 0 := by omega
    exact ⟨[], rfl, rfl⟩
  | succ fuel ih =>
    intro emit he
    rw [chunks]
    by_cases hpos : emit > 0
    · obtain ⟨bytes, hb, hlen⟩ := ih (emit - if emit > 64 then 64 else emit) (by split <;> omega)
      rw [if_pos hpos]
      simp only [hb, Option.bind_eq_bind, Option.bind_some]
      refine ⟨_, rfl, ?_⟩
      rw [List.length_cons, List.length_cons, List.length_cons, hlen]
      split <;> omega
    · rw [if_neg hpos]
      exact ⟨[], rfl, by rw [show emit = 0 by omega]; rfl⟩

/-- Where a literal from `i` on ends. -/
structure LiteralEnds (input : Bytes) (i n : Nat) : Prop where
  pos : 1 ≤ n
  le_max : n ≤ 60
  le_length : i + n ≤ input.length
  inner : ∀ q, 1 ≤ q → q < n → ¬ Three (input.drop (i + q))
  stop : n = 60 ∨ i + n = input.length ∨ Three (input.drop (i + n))

theorem literalLength_eq (hn : 3 ≤ input.length) (hlt : input.length < 2 ^ 64) :
    ∀ fuel literal, 60 ≤ fuel + literal → 1 ≤ literal → literal ≤ 60 →
      i + literal ≤ input.length →
      (∀ q, 1 ≤ q → q < literal → ¬ Three (input.drop (i + q))) →
      ∃ n, literalLength input i fuel literal = some n ∧ LiteralEnds input i n := by
  intro fuel
  induction fuel with
  | zero =>
    intro literal hf h1 h60 hle hin
    have heq : literal = 60 := by omega
    rw [literalLength, if_neg (by omega)]
    exact ⟨literal, rfl, h1, h60, hle, hin, Or.inl heq⟩
  | succ fuel ih =>
    intro literal hf h1 h60 hle hin
    rw [literalLength]
    by_cases hmore : i + literal < input.length ∧ literal < 60
    · obtain ⟨b, hb, hiff⟩ : ∃ b, repeats input (i + literal) [1, 2] = some b ∧
          (b = true ↔ Three (input.drop (i + literal))) :=
        ⟨_, repeats_eq hn hlt _ (by decide), by rw [decide_eq_true_iff, three_iff]⟩
      rw [if_pos hmore]
      simp only [hb, Option.bind_eq_bind, Option.bind_some]
      cases b with
      | true =>
        rw [if_pos rfl]
        exact ⟨literal, rfl, h1, h60, hle, hin, Or.inr (Or.inr (hiff.mp rfl))⟩
      | false =>
        rw [if_neg Bool.false_ne_true]
        refine ih (literal + 1) (by omega) (by omega) (by omega) (by omega) ?_
        intro q hq hq'
        rcases Nat.lt_succ_iff_lt_or_eq.mp hq' with hq' | rfl
        · exact hin q hq hq'
        · exact fun hthree => Bool.false_ne_true (hiff.mpr hthree)
    · rw [if_neg hmore]
      exact ⟨literal, rfl, h1, h60, hle, hin, by omega⟩

end Loops

/-! ### Blocks -/

/-- The block that a turn at `i` writes, and where it goes on. -/
inductive IsBlock (input : Bytes) (i : Nat) : Bytes → Nat → Prop
  | short (a : UInt8) (r : Nat) (v : Bytes) (hw : input.drop i = List.replicate r a ++ v)
      (hv : v.head? ≠ some a) (h4 : 4 ≤ r) (h12 : r < 12) :
      IsBlock input i (UInt8.ofNat (r - 4) :: List.replicate r a) (i + r)
  | long (a : UInt8) (r : Nat) (v references : Bytes)
      (hw : input.drop i = List.replicate r a ++ v) (hv : v.head? ≠ some a) (h12 : 12 ≤ r)
      (href : chunks i r r = some references) :
      IsBlock input i (0xFC :: references) (i + r)
  | literal (n : Nat) (hfour : ¬ Four (input.drop i)) (hends : LiteralEnds input i n) :
      IsBlock input i (UInt8.ofNat n :: (input.drop i).take n) (i + n)

/-- **A turn writes a block**, from three bytes of input on. -/
theorem turn_isBlock {input : Bytes} (hn : 3 ≤ input.length) (hlt : input.length < 2 ^ 64)
    {i : Nat} (hi : i < input.length) :
    ∃ block i', turn input i = some (block, i') ∧ IsBlock input i block i' := by
  obtain ⟨b, hb, hiff⟩ : ∃ b, repeats input i [1, 2, 3] = some b ∧
      (b = true ↔ Four (input.drop i)) :=
    ⟨_, repeats_eq hn hlt i (by decide), by rw [decide_eq_true_iff, four_iff]⟩
  rw [turn, hb]
  simp only [Option.bind_eq_bind, Option.bind_some]
  cases b with
  | true =>
    have hfour := hiff.mp rfl
    obtain ⟨c, u, hcu⟩ := List.exists_cons_of_ne_nil (List.drop_eq_nil_iff.not.mpr (not_le.mpr hi))
    obtain ⟨r, rs, hrs⟩ := List.exists_cons_of_ne_nil (runLengths_ne_nil c u)
    obtain ⟨a, v, hr, hw, hv, -⟩ := exists_of_runLengths hrs
    rw [← hcu] at hw
    obtain ⟨b, hprefix⟩ := hfour.exists_prefix
    have h4 : 4 ≤ r := le_of_replicate_prefix hv hr (hw ▸ hprefix)
    have hlen := length_of_drop_eq_run hw hr
    rw [if_pos rfl, runEnd_eq hw hv hr _ 4 h4 (by omega)]
    simp only [Option.bind_some, Nat.add_sub_cancel_left]
    by_cases h12 : r < 12
    · rw [if_pos h12, slice?, if_pos (by omega), hw,
        List.take_left' (List.length_replicate ..)]
      exact ⟨_, _, rfl, .short a r v hw hv h4 h12⟩
    · obtain ⟨references, href, -⟩ := chunks_eq i r r (Nat.le_refl r)
      rw [if_neg h12, href]
      exact ⟨_, _, rfl, .long a r v references hw hv (by omega) href⟩
  | false =>
    obtain ⟨n, hlit, hends⟩ := literalLength_eq (i := i) hn hlt 60 1 (by omega) (by omega)
      (by omega) (by omega) (by omega)
    rw [if_neg Bool.false_ne_true, hlit]
    simp only [Option.bind_some]
    rw [slice?, if_pos hends.le_length]
    exact ⟨_, _, rfl, .literal n (fun hfour => Bool.false_ne_true (hiff.mpr hfour)) hends⟩

/-- **Below three bytes** the first turn reads outside of the input. -/
theorem turn_short {input : Bytes} (h1 : 1 ≤ input.length) (h2 : input.length < 3) :
    turn input 0 = none := by
  rcases input with _ | ⟨a, _ | ⟨b, _ | ⟨c, v⟩⟩⟩
  · simp at h1
  · simp [turn, repeats, subSize, allSame]
  · by_cases hab : a = b
    · simp [turn, repeats, subSize, allSame, hab]
    · simp [turn, repeats, subSize, allSame, hab, literalLength]
  · simp only [List.length_cons] at h2
    omega

end Mokv.Snappy
