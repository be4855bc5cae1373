import Mokv.Compression.Snappy

/-!
# The size of a Snappy output

How many bytes `snappy_compress` (`mokv/utils/compression.hpp`) writes depends on the lengths
of the runs of equal bytes of its input alone (`compressedSize`): a literal costs one byte
for each begun 60 of its bytes, and a run of at least four bytes is a block of its own.  A run
of exactly three bytes ends the literal before it and begins a new one, unless it ends the
input.

`compressLoop_size`: the compressor writes that many bytes.  `snappy_in_bounds_iff`: **it stays
inside of its buffers exactly when the input has at least three bytes and that number is at
most `snappy_max_compressed_length`.**  An input of alternating runs of three bytes exceeds it.
-/

namespace Mokv.Snappy

open Lib

/-! ### The size from the runs -/

/-- The blocks of a literal of `m` bytes. -/
def literalSize (m : Nat) : Nat := m + (m + 59) / 60

/-- The block of a run of at least four bytes. -/
def runSize (r : Nat) : Nat := if r < 12 then 1 + r else 1 + 3 * ((r + 63) / 64)

/-- The size of the output for the runs that are left, with a literal of `m` bytes open. -/
def sizeFrom : Nat → List Nat → Nat
  | m, [] => literalSize m
  | m, r :: rs =>
    if r < 3 ∨ (r = 3 ∧ rs = []) then sizeFrom (m + r) rs
    else if r = 3 then literalSize m + sizeFrom 3 rs
    else literalSize m + (runSize r + sizeFrom 0 rs)

/-- The size of the output for an input with these runs. -/
def compressedSize (runs : List Nat) : Nat := sizeFrom 0 runs

theorem literalSize_zero : literalSize 0 = 0 := rfl

theorem literalSize_eq {m : Nat} (h1 : 1 ≤ m) (h2 : m ≤ 60) : literalSize m = m + 1 := by
  rw [literalSize]
  omega

theorem literalSize_add_sixty (m : Nat) : literalSize (m + 60) = 61 + literalSize m := by
  rw [literalSize, literalSize]
  omega

theorem sizeFrom_add_sixty (m : Nat) (rs : List Nat) :
    sizeFrom (m + 60) rs = 61 + sizeFrom m rs := by
  induction rs generalizing m with
  | nil => exact literalSize_add_sixty m
  | cons r rs ih =>
    rw [sizeFrom, sizeFrom]
    split
    · rw [show m + 60 + r = m + r + 60 by omega, ih]
    · rw [literalSize_add_sixty]
      split <;> omega

/-- A run that ends the literal: at least three bytes, and not three at the end of the input. -/
def Closes : List Nat → Prop
  | [] => True
  | r :: rs => ¬ (r < 3 ∨ (r = 3 ∧ rs = []))

theorem sizeFrom_of_closes (m : Nat) {rs : List Nat} (h : Closes rs) :
    sizeFrom m rs = literalSize m + sizeFrom 0 rs := by
  cases rs with
  | nil => rfl
  | cons r rs =>
    rw [sizeFrom, sizeFrom, if_neg h, if_neg h, literalSize_zero]
    split <;> omega

/-! ### One byte of a literal -/

theorem run_of_not_three {w : Bytes} {r : Nat} {rs : List Nat} (hrs : runLengths w = r :: rs)
    (h : ¬ Three w) : r < 3 ∨ (r = 3 ∧ rs = []) := by
  obtain ⟨a, v, -, rfl, hv, rfl⟩ := exists_of_runLengths hrs
  by_contra hno
  rw [not_or, not_and] at hno
  obtain ⟨k, rfl⟩ : ∃ k, r = k + 3 := ⟨r - 3, by omega⟩
  apply h
  cases k with
  | zero =>
    cases v with
    | nil => exact absurd rfl (hno.2 rfl)
    | cons b v => exact ⟨a, b, v, rfl⟩
  | succ k => exact ⟨a, a, List.replicate k a ++ v, rfl⟩

theorem closes_of_three {w : Bytes} (h : Three w) : Closes (runLengths w) := by
  have hlen : 3 < w.length := ((three_iff w).mpr h).1
  obtain ⟨c, hprefix⟩ := h.exists_prefix
  cases hrs : runLengths w with
  | nil => trivial
  | cons r rs =>
    obtain ⟨a, v, hr, rfl, hv, rfl⟩ := exists_of_runLengths hrs
    have h3 := le_of_replicate_prefix hv hr hprefix
    rintro (hlt | ⟨rfl, hnil⟩)
    · omega
    · cases v with
      | nil => simp at hlen
      | cons b v => exact runLengths_ne_nil b v hnil

/-- A run of at most three bytes is at the front when there are no four equal bytes. -/
theorem run_of_not_four {w : Bytes} {r : Nat} {rs : List Nat} (hrs : runLengths w = r :: rs)
    (h : ¬ Four w) : r ≤ 3 := by
  obtain ⟨a, v, -, rfl, -, -⟩ := exists_of_runLengths hrs
  by_contra hlt
  obtain ⟨k, rfl⟩ : ∃ k, r = k + 4 := ⟨r - 4, by omega⟩
  exact h ⟨a, List.replicate k a ++ v, rfl⟩

/-- **One byte more in the literal.** -/
theorem sizeFrom_cons {a : UInt8} {w : Bytes} {r m : Nat} {rs : List Nat}
    (hrs : runLengths (a :: w) = r :: rs) (h : r < 3 ∨ (r = 3 ∧ (rs = [] ∨ m = 0))) :
    sizeFrom m (runLengths (a :: w)) = sizeFrom (m + 1) (runLengths w) := by
  obtain ⟨b, v, hr, hw, hv, rfl⟩ := exists_of_runLengths hrs
  obtain ⟨k, rfl⟩ : ∃ k, r = k + 1 := ⟨r - 1, by omega⟩
  obtain rfl : w = List.replicate k b ++ v := by
    rw [List.replicate_succ, List.cons_append] at hw
    exact (List.cons.inj hw).2
  rw [hrs]
  obtain rfl | rfl | rfl : k = 0 ∨ k = 1 ∨ k = 2 := by omega
  · rw [sizeFrom, if_pos (by omega)]
    rfl
  · rw [runLengths_replicate_append hv, sizeFrom, if_pos (by omega), sizeFrom, if_pos (by omega)]
  · rw [runLengths_replicate_append hv, sizeFrom, sizeFrom, if_pos (by omega : 1 + 1 < 3 ∨ _)]
    rcases h.resolve_left (by omega) with ⟨-, hnil | rfl⟩
    · rw [if_pos (Or.inr ⟨rfl, hnil⟩)]
    · split
      · rfl
      · rw [if_pos rfl, literalSize_zero, Nat.zero_add]

/-! ### Blocks -/

section Blocks

variable {input : Bytes} {i : Nat}

theorem sizeFrom_literal {n : Nat} (hfour : ¬ Four (input.drop i)) (h : LiteralEnds input i n) :
    ∀ k, 1 ≤ k → k ≤ n → sizeFrom 0 (runLengths (input.drop i)) =
      sizeFrom k (runLengths (input.drop (i + k))) := by
  have hlen := h.le_length
  intro k
  induction k with
  | zero => omega
  | succ k ih =>
    intro _ hk
    have hlt : i + k < input.length := by omega
    obtain ⟨r, rs, hrs⟩ := List.exists_cons_of_ne_nil
      (runLengths_ne_nil input[i + k] (input.drop (i + k + 1)))
    have hcons := List.drop_eq_getElem_cons hlt
    rcases Nat.eq_zero_or_pos k with rfl | hpos
    · -- the first byte may be in a run of three
      have h3 : r ≤ 3 := run_of_not_four hrs (by rw [← hcons]; exact hfour)
      have hcons' : input.drop i = input[i + 0] :: input.drop (i + 0 + 1) := hcons
      rw [hcons']
      exact sizeFrom_cons hrs (by omega)
    · have hshort := run_of_not_three hrs (by rw [← hcons]; exact h.inner k hpos (by omega))
      rw [ih hpos (by omega), hcons]
      refine sizeFrom_cons hrs ?_
      rcases hshort with hlt | ⟨h3, hnil⟩
      · exact Or.inl hlt
      · exact Or.inr ⟨h3, Or.inl hnil⟩

theorem sizeFrom_run {a : UInt8} {r : Nat} {v : Bytes}
    (hw : input.drop i = List.replicate r a ++ v) (hv : v.head? ≠ some a) (h4 : 4 ≤ r) :
    sizeFrom 0 (runLengths (input.drop i)) =
        runSize r + sizeFrom 0 (runLengths (input.drop (i + r))) ∧
      i < i + r ∧ i + r ≤ input.length := by
  have hlen := length_of_drop_eq_run hw (by omega)
  obtain ⟨k, rfl⟩ : ∃ k, r = k + 1 := ⟨r - 1, by omega⟩
  refine ⟨?_, by omega, by omega⟩
  rw [← List.drop_drop, hw, List.drop_left' List.length_replicate,
    runLengths_replicate_append hv, sizeFrom, if_neg (by omega), if_neg (by omega),
    literalSize_zero, Nat.zero_add]

/-- **A block has its share of the size.** -/
theorem IsBlock.size {block : Bytes} {i' : Nat} (h : IsBlock input i block i') :
    compressedSize (runLengths (input.drop i)) =
        block.length + compressedSize (runLengths (input.drop i')) ∧
      i < i' ∧ i' ≤ input.length := by
  rw [compressedSize, compressedSize]
  cases h with
  | short a r v hw hv h4 h12 =>
    obtain ⟨hsize, hlt, hle⟩ := sizeFrom_run hw hv h4
    rw [runSize, if_pos h12] at hsize
    refine ⟨?_, hlt, hle⟩
    rw [hsize, List.length_cons, List.length_replicate]
    omega
  | long a r v references hw hv h12 href =>
    obtain ⟨hsize, hlt, hle⟩ := sizeFrom_run hw hv (by omega)
    obtain ⟨bytes, hbytes, hlen⟩ := chunks_eq i r r (Nat.le_refl r)
    obtain rfl : references = bytes := Option.some.inj (href.symm.trans hbytes)
    rw [runSize, if_neg (by omega)] at hsize
    refine ⟨?_, hlt, hle⟩
    rw [hsize, List.length_cons, hlen]
    omega
  | literal n hfour hends =>
    have hpos := hends.pos
    have hle := hends.le_length
    refine ⟨?_, by omega, hle⟩
    rw [sizeFrom_literal hfour hends n hpos (Nat.le_refl n), List.length_cons,
      List.length_take_of_le (by rw [List.length_drop]; omega),
      ← literalSize_eq hpos hends.le_max]
    rcases hends.stop with rfl | hend | hthree
    · exact sizeFrom_add_sixty 0 _
    · rw [hend, List.drop_length]
      exact sizeFrom_of_closes n trivial
    · exact sizeFrom_of_closes n (closes_of_three hthree)

end Blocks

/-! ### The whole output -/

/-- **The loop writes as many bytes as the runs say.** -/
theorem compressLoop_size {input : Bytes} (hn : 3 ≤ input.length) (hlt : input.length < 2 ^ 64) :
    ∀ fuel i output, input.length ≤ fuel + i → i ≤ input.length →
      ∃ result, compressLoop input fuel i output = some result ∧
        result.length = output.length + compressedSize (runLengths (input.drop i)) := by
  intro fuel
  induction fuel with
  | zero =>
    intro i output hf hi
    obtain rfl : i = input.length := by omega
    refine ⟨output, ?_, ?_⟩
    · rw [compressLoop, if_neg (Nat.lt_irrefl _)]
    · rw [List.drop_length]
      rfl
  | succ fuel ih =>
    intro i output hf hi
    rw [compressLoop]
    by_cases hmore : i < input.length
    · obtain ⟨block, i', hturn, hblock⟩ := turn_isBlock hn hlt hmore
      obtain ⟨hsize, hlt', hle⟩ := hblock.size
      obtain ⟨result, hresult, hlen⟩ := ih i' (output ++ block) (by omega) hle
      rw [if_pos hmore, hturn]
      refine ⟨result, hresult, ?_⟩
      rw [hlen, hsize, List.length_append]
      omega
    · obtain rfl : i = input.length := by omega
      refine ⟨output, by rw [if_neg hmore], ?_⟩
      rw [List.drop_length]
      rfl

/-- **Below three bytes** nothing is written: the first turn reads too far. -/
theorem snappyCompress_short {input : Bytes} (h1 : 1 ≤ input.length) (h2 : input.length < 3) :
    snappyCompress input = none := by
  obtain ⟨m, hm⟩ : ∃ m, input.length = m + 1 := ⟨input.length - 1, by omega⟩
  rw [snappyCompress, hm, compressLoop, if_pos (by omega), turn_short h1 h2]
  rfl

/-- **The compressor stays inside of its buffers exactly when** the input has three bytes or
more and its runs do not cost more than the output buffer has. -/
theorem snappy_in_bounds_iff (input : Bytes) (h1 : 1 ≤ input.length)
    (hlt : input.length < 2 ^ 64) :
    (∃ output, snappyCompress input = some output ∧
        output.length ≤ snappyMaxCompressedLength input.length) ↔
      3 ≤ input.length ∧
        compressedSize (runLengths input) ≤ snappyMaxCompressedLength input.length := by
  by_cases hn : 3 ≤ input.length
  · obtain ⟨result, hresult, hlen⟩ :=
      compressLoop_size hn hlt input.length 0 [] (by omega) (Nat.zero_le _)
    rw [List.drop_zero, List.length_nil, Nat.zero_add] at hlen
    rw [snappyCompress, hresult, ← hlen]
    simp [hn]
  · rw [snappyCompress_short h1 (by omega)]
    simp [hn]

theorem snappy_in_bounds_threeBytes :
    ∃ output, snappyCompress [1, 2, 3] = some output ∧
      output.length ≤ snappyMaxCompressedLength 3 :=
  (snappy_in_bounds_iff [1, 2, 3] (by decide) (by decide)).mpr (by decide)

/-- Runs of three bytes, 204 bytes in all. -/
def triples : Bytes := (List.replicate 34 [97, 97, 97, 98, 98, 98]).flatten

/-- **Out of bounds**: one byte of input reads a second one, and alternating runs of three
bytes write more than the output buffer has. -/
theorem snappy_out_of_bounds :
    (¬ ∃ output, snappyCompress [97] = some output ∧
        output.length ≤ snappyMaxCompressedLength [(97 : UInt8)].length) ∧
      ¬ ∃ output, snappyCompress triples = some output ∧
        output.length ≤ snappyMaxCompressedLength triples.length := by
  refine ⟨?_, ?_⟩
  · rintro ⟨output, houtput, -⟩
    rw [snappyCompress_short (by decide) (by decide)] at houtput
    cases houtput
  · rintro ⟨output, houtput, hle⟩
    have hlength : triples.length = 204 := by decide +kernel
    have hn : 3 ≤ triples.length := by omega
    have hlt : triples.length < 2 ^ 64 := by omega
    obtain ⟨result, hresult, hlen⟩ :=
      compressLoop_size hn hlt triples.length 0 [] (Nat.le_refl _) (Nat.zero_le _)
    obtain rfl : output = result := Option.some.inj (houtput.symm.trans hresult)
    have hsize : snappyMaxCompressedLength triples.length <
        ([] : Bytes).length + compressedSize (runLengths (triples.drop 0)) := by decide +kernel
    omega

end Mokv.Snappy
