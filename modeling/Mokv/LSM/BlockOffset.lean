import Mokv.Lib.Decimal
import Mokv.LSM.SSTRoundTrip

/-!
# The offset of the data block

A constructor of `SST` (`mokv/lsm/sst.hpp`) puts the data block behind the index block, which
grows by 16 bytes with every key, and stores its offset in 64 bits.  `DataBlockIndexIndex::Load`
reads the 64 bits and hands them on as an `int32_t`, of which `-1` means no offset.

`load_eq_loadAt`: `DataBlockIndex::Load` reads the block at `place` of what it is handed, and
the offset does nothing else.  `place_toInt32_iff`: that is the stored offset exactly if it
survives the conversion and is not taken for `-1`.  `block_offset_iff` is the result for the
four constructors.
-/

namespace Mokv.LSM

open Lib

/-! ### Where a block is read -/

namespace DataBlockIndex

/-- `offset_` when `Load` begins to read. -/
def place (offset : Int) : Nat := if offset ≠ -1 then toSizeT offset else 0

/-- `Load` of the block at a place. -/
def loadAt (f : CompressionFactory) (s : Bytes) (place : Nat) : Option DataBlockIndex :=
  (load f (s.drop place) 0).map fun d => { d with offset := place }

end DataBlockIndex

/-- Where `DataBlockIndexIndex::Load` lets the block of its entry be read. -/
def DataBlockIndexIndex.blockPlace (s : Bytes) : Option Nat :=
  (readSize s).map fun offset => DataBlockIndex.place (toInt32 offset)

/-- `index_block_size` of a constructor. -/
def Construction.indexBlockSize (c : Construction) : Nat :=
  16 * (c.list.length + 1) + ((c.list.head?).map fun e => e.1.length).getD 0

/-- An offset that is the same after the conversions to `int32_t` and back.  The second range is
that of the negative numbers, and no file is so large. -/
def OffsetFits (offset : Nat) : Prop :=
  offset < 2 ^ 31 ∨ 2 ^ 64 - 2 ^ 31 ≤ offset ∧ offset < 2 ^ 64 - 1

instance (offset : Nat) : Decidable (OffsetFits offset) := inferInstanceAs (Decidable (_ ∨ _))

theorem loadEncodedBlock_offset (f : CompressionFactory) (offset : Nat) (payload : Bytes)
    (payloadSize : Nat) :
    loadEncodedBlock f offset payload payloadSize =
      (loadEncodedBlock f 0 payload payloadSize).map fun d => { d with offset := offset } := by
  unfold loadEncodedBlock
  -- the offset is a field of every result and no test reads it, so the branches agree one by one
  cases payload[4]? with
  | none => rfl
  | some version =>
    by_cases hversion : version ≠ kEncodedBlockVersion
    · rw [Option.bind_eq_bind, Option.bind_some, if_pos hversion, Option.bind_eq_bind,
        Option.bind_some, if_pos hversion]
      rfl
    · rw [Option.bind_eq_bind, Option.bind_some, if_neg hversion, Option.bind_eq_bind,
        Option.bind_some, if_neg hversion]
      cases payload[4 + 1]? with
      | none => rfl
      | some flags =>
        cases payload[4 + 2 * 1]? with
        | none => rfl
        | some compressionType =>
          cases readSize (payload.drop (4 + 4 * 1)) with
          | none => rfl
          | some entriesSize =>
            cases BloomFilter.load (payload.drop kEncodedBlockHeaderSize) with
            | none => rfl
            | some bloom =>
              simp only [Option.bind_eq_bind, Option.bind_some]
              split
              · rfl
              · split
                · cases parseEntries (payload.drop (kEncodedBlockHeaderSize + bloom.2))
                    (payloadSize - (kEncodedBlockHeaderSize + bloom.2)) <;> rfl
                · split
                  · rfl
                  · split
                    · rfl
                    · split
                      · rfl
                      · rw [Option.map_bind]
                        rfl

/-- **`Load` reads at `place`**, and the offset does nothing else. -/
theorem DataBlockIndex.load_eq_loadAt (f : CompressionFactory) (s : Bytes) (offset : Int) :
    load f s offset = loadAt f s (place offset) := by
  have hplace : (if offset ≠ -1 then toSizeT offset else 0) = place offset := rfl
  have hzero : (if (0 : Int) ≠ -1 then toSizeT 0 else 0) = 0 := by
    rw [if_pos (by decide), toSizeT_of_nonneg (le_refl 0) (by decide), Int.toNat_zero]
  unfold loadAt load
  simp only
  rw [hplace, hzero, List.drop_zero]
  generalize s.drop (place offset) = block
  cases readSize block with
  | none => rfl
  | some binarySize =>
    cases isEncoded block with
    | none => rfl
    | some encoded =>
      simp only [Option.bind_eq_bind, Option.bind_some]
      split
      · exact loadEncodedBlock_offset f (place offset) _ _
      · cases BloomFilter.load (block.drop 8) with
        | none => rfl
        | some bloom =>
          obtain ⟨bloomFilter, saved⟩ := bloom
          rw [Option.bind_some, Option.bind_some]
          dsimp only
          rw [Option.map_bind]
          exact congrArg _ (funext fun dataIndex => rfl)

/-! ### The conversions -/

theorem DataBlockIndex.place_toInt32_iff {offset : Nat} (h : offset < 2 ^ 64) :
    place (toInt32 offset) = offset ↔ OffsetFits offset := by
  unfold place toInt32 toSizeT OffsetFits
  rw [Int.bmod_def]
  split <;> split <;> omega

/-- From `2 ^ 31` on an offset is negative on its way, and `Load` reads far behind the file. -/
theorem DataBlockIndex.place_of_negative {offset : Nat} (h : 2 ^ 31 ≤ offset)
    (hlt : offset < 2 ^ 32 - 1) : place (toInt32 offset) = offset + (2 ^ 64 - 2 ^ 32) := by
  unfold place toInt32 toSizeT
  rw [Int.bmod_def]
  split <;> split <;> omega

/-! ### The constructors -/

/-- **The file of a constructor**: an index block of `index_block_size` bytes and a data block. -/
theorem Construction.exists_write (f : CompressionFactory) (rand : Nat → UInt64) (c : Construction)
    {first : Entry} (hfirst : c.list.head? = some first) (old : Bytes) :
    ∃ gap block, (indexBlock c.indexBlockSize first.1 gap).length = c.indexBlockSize ∧
      c.write f rand old = some (indexBlock c.indexBlockSize first.1 gap ++ block) := by
  have hsize : c.indexBlockSize = 2 * 8 * (c.list.length + 1) + first.1.length := by
    rw [indexBlockSize, hfirst]
    rfl
  rw [hsize]
  cases c with
  | entries l =>
    obtain ⟨gap, pad, -, hindex, hwrite⟩ := writePlain_eq rand hfirst old
    exact ⟨gap, _, hindex, hwrite⟩
  | memTable m =>
    obtain ⟨gap, pad, -, hindex, hwrite⟩ := writePlain_eq rand hfirst old
    rw [write, m.size_eq]
    exact ⟨gap, _, hindex, hwrite⟩
  | entriesWith config l =>
    obtain ⟨gap, compressed, pad, body, -, -, hindex, hwrite⟩ :=
      exists_writeEncoded f rand config hfirst old
    exact ⟨gap, _, hindex, hwrite⟩
  | memTableWith config m =>
    obtain ⟨gap, compressed, pad, body, -, -, hindex, hwrite⟩ :=
      exists_writeEncoded f rand config hfirst old
    rw [write, m.size_eq]
    exact ⟨gap, _, hindex, hwrite⟩

theorem load_written (f : CompressionFactory) {indexBlockSize : Nat} {key gap : Bytes}
    (hlen : (indexBlock indexBlockSize key gap).length = indexBlockSize)
    (hsize : indexBlockSize < 2 ^ 64) (block : Bytes) :
    readSize ((indexBlock indexBlockSize key gap ++ block).drop (2 * 8)) = some indexBlockSize ∧
      DataBlockIndexIndex.blockPlace ((indexBlock indexBlockSize key gap ++ block).drop (2 * 8)) =
        some (DataBlockIndex.place (toInt32 indexBlockSize)) ∧
      IndexBlockIndex.load f (indexBlock indexBlockSize key gap ++ block) =
        (DataBlockIndex.loadAt f (indexBlock indexBlockSize key gap ++ block)
          (DataBlockIndex.place (toInt32 indexBlockSize))).map
            fun d => ⟨indexBlockSize, 1, [⟨indexBlockSize, key, d⟩]⟩ := by
  have hread : readSize ((indexBlock indexBlockSize key gap ++ block).drop (2 * 8)) =
      some indexBlockSize := by
    rw [drop_indexBlock, readSize_word hsize]
  rw [length_indexBlock] at hlen
  refine ⟨hread, ?_, ?_⟩
  · rw [DataBlockIndexIndex.blockPlace, hread]
    rfl
  · rw [load_indexBlock_eq f hsize (by omega), DataBlockIndex.load_eq_loadAt]

/-- **The offset of the data block.**  Whatever the entries, the constructor stores
`index_block_size` as the offset of the block, and loading the file is loading the block at
`blockPlace`, which is that offset exactly if it fits. -/
theorem block_offset_iff (f : CompressionFactory) (rand : Nat → UInt64) (c : Construction)
    (hl : c.list ≠ []) (hsize : c.indexBlockSize < 2 ^ 64) (old : Bytes) :
    ∃ file key, c.write f rand old = some file ∧
      readSize (file.drop (2 * 8)) = some c.indexBlockSize ∧
      IndexBlockIndex.load f file =
        ((DataBlockIndexIndex.blockPlace (file.drop (2 * 8))).bind
          (DataBlockIndex.loadAt f file)).map
            (fun d => ⟨c.indexBlockSize, 1, [⟨c.indexBlockSize, key, d⟩]⟩) ∧
      (DataBlockIndexIndex.blockPlace (file.drop (2 * 8)) = some c.indexBlockSize ↔
        OffsetFits c.indexBlockSize) := by
  obtain ⟨first, hfirst⟩ : ∃ first, c.list.head? = some first := ⟨_, List.head?_eq_some_head hl⟩
  obtain ⟨gap, block, hlen, hwrite⟩ := c.exists_write f rand hfirst old
  obtain ⟨hread, hplace, hload⟩ := load_written f hlen hsize block
  refine ⟨_, first.1, hwrite, hread, ?_, ?_⟩
  · rw [hplace, Option.bind_some]
    exact hload
  · rw [hplace, Option.some_inj]
    exact DataBlockIndex.place_toInt32_iff hsize

/-- A table of one key. -/
theorem block_offset_iff_longValue :
    ∃ file key, (Construction.entries longValue).write ⟨longValueCompressor, longValueCompressor⟩
        (fun _ => 7) [] = some file ∧
      readSize (file.drop (2 * 8)) = some (Construction.entries longValue).indexBlockSize ∧
      IndexBlockIndex.load ⟨longValueCompressor, longValueCompressor⟩ file =
        ((DataBlockIndexIndex.blockPlace (file.drop (2 * 8))).bind
          (DataBlockIndex.loadAt ⟨longValueCompressor, longValueCompressor⟩ file)).map
            (fun d => ⟨(Construction.entries longValue).indexBlockSize, 1,
              [⟨(Construction.entries longValue).indexBlockSize, key, d⟩]⟩) ∧
      (DataBlockIndexIndex.blockPlace (file.drop (2 * 8)) =
          some (Construction.entries longValue).indexBlockSize ↔
        OffsetFits (Construction.entries longValue).indexBlockSize) :=
  block_offset_iff _ (fun _ => 7) (.entries longValue) (List.cons_ne_nil _ _) (by decide) []

/-- A table of `n` keys in order, with empty values. -/
def numbered (n : Nat) : List Entry := (List.range n).map fun i => (padded 10 i, [])

theorem sortedKeys_numbered {n : Nat} (hn : n ≤ 10 ^ 10) : SortedKeys (numbered n) := by
  rw [numbered, SortedKeys, List.pairwise_map]
  refine List.pairwise_lt_range.imp_of_mem ?_
  intro a b ha hb hlt
  exact padded_lt_padded (by decide) (lt_of_lt_of_le (List.mem_range.mp hb) hn) hlt

theorem head?_numbered {n : Nat} (hn : n ≠ 0) : (numbered n).head? = some (padded 10 0, []) := by
  rw [numbered, List.head?_map, List.head?_range, if_neg hn]
  rfl

theorem indexBlockSize_numbered {n : Nat} (hn : n ≠ 0) :
    (Construction.entries (numbered n)).indexBlockSize = 16 * (n + 1) + 10 := by
  rw [Construction.indexBlockSize, Construction.list, head?_numbered hn, Option.map_some,
    Option.getD_some, length_padded (by decide) (by decide), numbered, List.length_map,
    List.length_range]

theorem numbered_misplaced (f : CompressionFactory) (rand : Nat → UInt64) {n : Nat}
    (hn : 2 ^ 31 ≤ 16 * (n + 1) + 10) (hlt : 16 * (n + 1) + 10 < 2 ^ 32 - 1) (old : Bytes) :
    ∃ file, (Construction.entries (numbered n)).write f rand old = some file ∧
      readSize (file.drop (2 * 8)) = some (16 * (n + 1) + 10) ∧
      DataBlockIndexIndex.blockPlace (file.drop (2 * 8)) =
        some (16 * (n + 1) + 10 + (2 ^ 64 - 2 ^ 32)) := by
  have hne : n ≠ 0 := by omega
  obtain ⟨gap, block, hlen, hwrite⟩ := (Construction.entries (numbered n)).exists_write f rand
    (head?_numbered hne) old
  rw [indexBlockSize_numbered hne] at hlen hwrite
  obtain ⟨hread, hplace, -⟩ := load_written f hlen (by omega) block
  refine ⟨_, hwrite, hread, ?_⟩
  rw [hplace, DataBlockIndex.place_of_negative hn hlt]

/-- The index block of 2^27 keys ends behind `2 ^ 31`, and its data block is looked for near the
end of the address space. -/
theorem many_keys_misplaced :
    SortedKeys (numbered (2 ^ 27)) ∧
      (Construction.entries (numbered (2 ^ 27))).indexBlockSize = 2147483674 ∧ ∃ file,
      (Construction.entries (numbered (2 ^ 27))).write ⟨longValueCompressor, longValueCompressor⟩
        (fun _ => 7) [] = some file ∧
      readSize (file.drop (2 * 8)) = some 2147483674 ∧
      DataBlockIndexIndex.blockPlace (file.drop (2 * 8)) = some 18446744071562067994 :=
  ⟨sortedKeys_numbered (by decide), indexBlockSize_numbered (by decide),
    numbered_misplaced _ (fun _ => 7) (by decide) (by decide) []⟩

end Mokv.LSM
