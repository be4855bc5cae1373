import Mokv.LSM.SSTRoundTrip
import Mokv.Lib.StreamDecoder

/-!
# The LZ4 compressor

`LZ4Compressor` (`mokv/utils/compression.hpp`) over the frame functions of liblz4, which are a
parameter (`LZ4F`).  `Compress` makes one frame of its input.  `Decompress` calls
`LZ4F_decompress` in a loop, as long as there is input and room, until it says that the frame
is complete; whatever goes wrong, the answer is 0.

With frame functions that do what is documented (`LZ4F.Documented`), `Decompress` accepts a
frame as a whole and no part of it (`lz4_lossless`).  So the compressor is one that tables can
be written with (`Compressor.Lossless`).
-/

namespace Mokv

open Lib LSM

/-- `LZ4F_preferences_t`, as far as it is set. -/
structure LZ4FPreferences where
  blockIndependent : Bool
  contentSize : Nat
deriving DecidableEq

/-- The functions of liblz4, with decompression contexts `σ`.  An error is nothing. -/
structure LZ4F (σ : Type) where
  compressFrameBound : Nat → LZ4FPreferences → Nat
  /-- capacity, input and preferences -/
  compressFrame : Nat → Bytes → LZ4FPreferences → Option Bytes
  createDecompressionContext : Option σ
  decompress : StreamDecoder σ UInt8 UInt8

namespace LZ4Compressor

variable {σ : Type} (lib : LZ4F σ)

/-- `MakePreferences`. -/
def makePreferences (size : Nat) : LZ4FPreferences := ⟨true, size⟩

/-- `MaxCompressedSize`. -/
def maxCompressedSize (originalSize : Nat) : Nat :=
  lib.compressFrameBound originalSize (makePreferences originalSize)

/-- `Compress`.  The empty result is also the answer to an error. -/
def compress (data : Bytes) : Bytes :=
  if data = [] then []
  else
    let preferences := makePreferences data.length
    let maxOutput := lib.compressFrameBound data.length preferences
    (lib.compressFrame maxOutput data preferences).getD []

/-- `Decompress`, with what it has written when it does not answer 0. -/
def decompress (compressedData : Bytes) (originalSize outputSize : Nat) : Bytes :=
  if compressedData = [] then []
  else if outputSize < originalSize then []
  else
    match lib.createDecompressionContext with
    | none => []
    | some ctx =>
      match lib.decompress.drain (compressedData.length + outputSize) ctx compressedData
          outputSize [] with
      | none => []
      | some output => if output.length ≠ originalSize then [] else output

end LZ4Compressor

/-- The compressor that `CompressionFactory` makes.  `LoadEncodedBlock` gives it a buffer of the
original size. -/
def lz4Compressor {σ : Type} (lib : LZ4F σ) : Compressor where
  compress := LZ4Compressor.compress lib
  decompress data size := LZ4Compressor.decompress lib data size size

/-- What liblz4 documents: a size is a `size_t`, there are contexts, and a new one decodes what
`LZ4F_compressFrame` has made. -/
structure LZ4F.Documented {σ : Type} (lib : LZ4F σ) : Prop where
  size : ∀ {capacity data preferences frame},
    lib.compressFrame capacity data preferences = some frame → data.length < 2 ^ 64
  decodes : ∃ ctx R, lib.createDecompressionContext = some ctx ∧ lib.decompress.Follows R ∧
    ∀ {capacity data preferences frame},
      lib.compressFrame capacity data preferences = some frame → R ctx frame data

section

variable {σ : Type} {lib : LZ4F σ} {data : Bytes}

theorem LZ4Compressor.exists_frame (h : compress lib data ≠ []) :
    data ≠ [] ∧ ∃ capacity preferences,
      lib.compressFrame capacity data preferences = some (compress lib data) := by
  rw [compress] at h ⊢
  by_cases hd : data = []
  · rw [if_pos hd] at h
    exact absurd rfl h
  · rw [if_neg hd] at h ⊢
    refine ⟨hd, lib.compressFrameBound data.length (makePreferences data.length),
      makePreferences data.length, ?_⟩
    dsimp only at h ⊢
    cases hf : lib.compressFrame _ data _ with
    | none =>
      rw [hf] at h
      exact absurd rfl h
    | some frame => rfl

theorem LZ4Compressor.decompress_compress (h : lib.Documented) (hc : compress lib data ≠ [])
    {outputSize : Nat} (hle : data.length ≤ outputSize) :
    decompress lib (compress lib data) data.length outputSize = data := by
  obtain ⟨hd, capacity, preferences, hframe⟩ := exists_frame hc
  obtain ⟨ctx, R, hctx, hfollows, hR⟩ := h.decodes
  have hroom : 0 < outputSize := lt_of_lt_of_le (List.length_pos_iff.mpr hd) hle
  rw [decompress, if_neg hc, if_neg (by omega), hctx]
  dsimp only
  rw [hfollows.drain_whole (hR hframe) hc hroom hle (le_refl _)]
  simp

theorem LZ4Compressor.decompress_part (h : lib.Documented) (hc : compress lib data ≠ [])
    {part : Bytes} (hpart : part <+: compress lib data) (hne : part ≠ compress lib data)
    (originalSize outputSize : Nat) : decompress lib part originalSize outputSize = [] := by
  obtain ⟨hd, capacity, preferences, hframe⟩ := exists_frame hc
  obtain ⟨ctx, R, hctx, hfollows, hR⟩ := h.decodes
  rw [decompress, hctx]
  dsimp only
  rw [hfollows.drain_part (hR hframe) hpart hne]
  simp

end

/-- **`LZ4Compressor` is lossless**, and it accepts a frame only as a whole. -/
theorem lz4_lossless {σ : Type} (lib : LZ4F σ) (h : lib.Documented) :
    (lz4Compressor lib).Lossless ∧ ∀ data, (lz4Compressor lib).compress data ≠ [] →
      (∀ outputSize, data.length ≤ outputSize →
        LZ4Compressor.decompress lib ((lz4Compressor lib).compress data) data.length outputSize =
          data) ∧
      ∀ part, part <+: (lz4Compressor lib).compress data →
        part ≠ (lz4Compressor lib).compress data → ∀ originalSize outputSize,
          LZ4Compressor.decompress lib part originalSize outputSize = [] := by
  refine ⟨⟨?_, ?_⟩, ?_⟩
  · intro data hc
    obtain ⟨-, capacity, preferences, hframe⟩ := LZ4Compressor.exists_frame hc
    exact h.size hframe
  · exact fun data hc => LZ4Compressor.decompress_compress h hc (le_refl _)
  · exact fun data hc => ⟨fun _ hle => LZ4Compressor.decompress_compress h hc hle,
      fun _ hpart hne => LZ4Compressor.decompress_part h hc hpart hne⟩

/-! ### One frame -/

section

variable (frame data : Bytes) (blockEnd : Nat)

/-- A decoder of a frame with one block, which gives the data when it has read the block, and
reads the end mark when it has given them.  A state is what it has read and given. -/
def oneBlock (hend : blockEnd < frame.length) : StreamDecoder (Nat × Nat) UInt8 UInt8 where
  call s room src :=
    let read := min (s.1 + src.length) frame.length
    let ready := if blockEnd ≤ read then data.drop s.2 else []
    let consumed := if ready.length ≤ room then read - s.1 else blockEnd - s.1
    ⟨(s.1 + consumed, s.2 + (ready.take room).length),
      if s.1 + consumed = frame.length then .done else .more, consumed, ready.take room⟩
  consumed_le s room src := by
    dsimp only
    split
    · split <;> omega
    · rw [List.length_nil, if_pos (Nat.zero_le room)]
      omega
  produced_le s room src := by
    dsimp only
    rw [List.length_take]
    exact Nat.min_le_left _ _

/-- The end mark is read behind the data. -/
def OneBlockAt (s : Nat × Nat) (code text : Bytes) : Prop :=
  code = frame.drop s.1 ∧ text = data.drop s.2 ∧ s.1 ≤ frame.length ∧ s.2 ≤ data.length ∧
    (blockEnd < s.1 → s.2 = data.length)

variable {frame data blockEnd}

theorem follows_oneBlock (hend : blockEnd < frame.length) :
    (oneBlock frame data blockEnd hend).Follows (OneBlockAt frame data blockEnd) := by
  constructor
  · rintro ⟨s, p⟩ code text room src ⟨rfl, rfl, hs, hp, hmark⟩ hsrc hne hroom
    have hlen := hsrc.length_le
    have hpos := List.length_pos_iff.mpr hne
    dsimp only at hs hp hmark hlen
    rw [List.length_drop] at hlen
    have hread : min (s + src.length) frame.length = s + src.length := by omega
    simp only [oneBlock, hread, OneBlockAt, List.drop_drop, List.length_drop]
    by_cases hblock : blockEnd ≤ s + src.length
    · simp only [if_pos hblock, List.length_drop, List.length_take]
      by_cases hflush : data.length - p ≤ room
      · have htake : (data.drop p).take room = data.drop p :=
          List.take_of_length_le (by rw [List.length_drop]; exact hflush)
        simp only [if_pos hflush, htake, Nat.add_sub_cancel_left]
        by_cases hall : s + src.length = frame.length
        · exact Or.inl ⟨if_pos hall, by omega, trivial⟩
        · refine Or.inr ⟨if_neg hall, fun h => by omega, List.prefix_rfl, ?_⟩
          exact ⟨trivial, trivial, by omega, by omega, by omega⟩
      · have hle : s ≤ blockEnd := by
          by_contra hgt
          exact hflush (by rw [hmark (by omega)]; omega)
        simp only [if_neg hflush, Nat.add_sub_cancel' hle]
        refine Or.inr ⟨if_neg (by omega), ?_, List.take_prefix _ _, ?_⟩
        · rintro ⟨-, h⟩
          have hnil := congrArg List.length h
          rw [List.length_take, List.length_drop, List.length_nil] at hnil
          omega
        · exact ⟨trivial, trivial, by omega, by omega, by omega⟩
    · simp only [if_neg hblock, List.length_nil, List.take_nil, Nat.zero_le, if_true,
        Nat.add_sub_cancel_left, Nat.add_zero]
      refine Or.inr ⟨if_neg (by omega), fun h => by omega, List.nil_prefix, ?_⟩
      exact ⟨trivial, trivial, by omega, by omega, by omega⟩
  · rintro ⟨s, p⟩ code text room ⟨rfl, rfl, hs, hp, hmark⟩ hne hroom htext
    dsimp only at hs
    have hread : min (s + (frame.length - s)) frame.length = frame.length := by omega
    rw [List.length_drop] at htext
    simp only [oneBlock, List.length_drop, hread, if_pos hend.le]
    intro hmore
    rw [if_pos htext, if_pos (by omega)] at hmore
    cases hmore

end

/-- liblz4, as far as it is asked for the frame of `longValue`. -/
def longValueLZ4F : LZ4F (Nat × Nat) where
  compressFrameBound size _ := size + 64
  compressFrame capacity data preferences :=
    if data = word 1 ++ records longValue ∧ preferences = ⟨true, data.length⟩ ∧
      longValueFrame.length ≤ capacity then some longValueFrame else none
  createDecompressionContext := some (0, 0)
  decompress := oneBlock longValueFrame (word 1 ++ records longValue) 44 (by decide)

theorem documented_longValueLZ4F : longValueLZ4F.Documented := by
  have hframe : ∀ {capacity data preferences frame},
      longValueLZ4F.compressFrame capacity data preferences = some frame →
        data = word 1 ++ records longValue ∧ frame = longValueFrame := by
    intro capacity data preferences frame h
    simp only [longValueLZ4F] at h
    split at h
    · rename_i hd
      exact ⟨hd.1, (Option.some.inj h).symm⟩
    · cases h
  refine ⟨?_, (0, 0), _, rfl, follows_oneBlock (by decide), ?_⟩
  · intro capacity data preferences frame h
    rw [(hframe h).1]
    decide +kernel
  · intro capacity data preferences frame h
    obtain ⟨rfl, rfl⟩ := hframe h
    exact ⟨rfl, rfl, Nat.zero_le _, Nat.zero_le _, fun h => by cases h⟩

/-- The frame of `longValue` comes back; without the last byte of its end mark it is refused. -/
theorem lz4_lossless_longValue :
    (lz4Compressor longValueLZ4F).compress (word 1 ++ records longValue) = longValueFrame ∧
      (lz4Compressor longValueLZ4F).decompress longValueFrame 125 = word 1 ++ records longValue ∧
      LZ4Compressor.decompress longValueLZ4F (longValueFrame.take 47) 125 200 = [] := by
  have hc : (lz4Compressor longValueLZ4F).compress (word 1 ++ records longValue) =
      longValueFrame := by decide +kernel
  have hne : (lz4Compressor longValueLZ4F).compress (word 1 ++ records longValue) ≠ [] := by
    rw [hc]
    decide
  obtain ⟨hlossless, hwhole⟩ := lz4_lossless longValueLZ4F documented_longValueLZ4F
  have hback := hlossless.decompress_compress _ hne
  have hpart := (hwhole _ hne).2 (longValueFrame.take 47)
  rw [hc] at hback hpart
  exact ⟨hc, hback, hpart (List.take_prefix _ _) (by decide) 125 200⟩

end Mokv
