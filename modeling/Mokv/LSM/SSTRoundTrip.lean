import Mokv.LSM.SSTFile

/-!
# What is written is read

The constructors and `IndexBlockIndex::Load` compute the places of the parts of a file by
different sums.  The file is described once, as the concatenation of its parts: the
constructors write that (`writePlain_eq`, `exists_writeEncoded`), whatever bytes were there, and
reading it gives back the entries.

`sst_round_trip` is the result for the four constructors.
-/

namespace Mokv.LSM

open Lib

/-! ### Records -/

/-- The bytes of an entry. -/
def record (e : Entry) : Bytes := word e.1.length ++ (word e.2.length ++ (e.1 ++ e.2))

/-- The bytes of the entries of a block. -/
def records (l : List Entry) : Bytes := l.flatMap record

/-- Where the entries of a block are, from place `i` on. -/
def positions : Nat → List Entry → List EntryIndex
  | _, [] => []
  | i, e :: l =>
    ⟨⟨i + 2 * 8, e.1.length⟩, ⟨i + 2 * 8 + e.1.length, e.2.length⟩, i⟩ ::
      positions (i + (record e).length) l

theorem records_cons (e : Entry) (l : List Entry) : records (e :: l) = record e ++ records l :=
  List.flatMap_cons

theorem length_record (e : Entry) : (record e).length = 16 + (e.1.length + e.2.length) := by
  simp only [record, List.length_append, length_word]
  omega

theorem length_records (l : List Entry) : (records l).length = payload l + l.length * 2 * 8 := by
  induction l with
  | nil => rfl
  | cons e l ih =>
    rw [records_cons, List.length_append, length_record, ih, payload_cons, List.length_cons]
    omega

theorem map_read_positions (pre rest : Bytes) (l : List Entry) :
    (positions pre.length l).map (·.read (pre ++ (records l ++ rest))) = l := by
  induction l generalizing pre with
  | nil => rfl
  | cons e l ih =>
    have htail : pre ++ (records (e :: l) ++ rest) = (pre ++ record e) ++ (records l ++ rest) := by
      rw [records_cons]
      simp only [List.append_assoc]
    have hkey : (pre ++ (records (e :: l) ++ rest)).drop (pre.length + 2 * 8) =
        e.1 ++ (e.2 ++ (records l ++ rest)) := by
      have hassoc : pre ++ (records (e :: l) ++ rest) =
          (pre ++ (word e.1.length ++ word e.2.length)) ++
            (e.1 ++ (e.2 ++ (records l ++ rest))) := by
        rw [htail, record]
        simp only [List.append_assoc]
      rw [hassoc]
      exact List.drop_left' (by simp)
    have hvalue : (pre ++ (records (e :: l) ++ rest)).drop (pre.length + 2 * 8 + e.1.length) =
        e.2 ++ (records l ++ rest) := by
      rw [← List.drop_drop, hkey, List.drop_left]
    rw [positions, List.map_cons, EntryIndex.read, View.read, View.read, hkey, hvalue,
      List.take_left,
      List.take_left, htail, ← List.length_append, ih]

/-- **The loop finds the records**, as long as their size fits a `size_t`. -/
theorem parseLoop_records (pre : Bytes) {rest : Bytes} {l : List Entry} {entriesSize : Nat}
    (hsize : entriesSize = pre.length + (records l).length) (hlt : entriesSize < 2 ^ 64)
    (dataIndex : List EntryIndex) :
    parseLoop (pre ++ (records l ++ rest)) entriesSize l.length pre.length dataIndex =
      some (dataIndex ++ positions pre.length l) := by
  induction l generalizing pre dataIndex with
  | nil => simp [parseLoop, positions]
  | cons e l ih =>
    have htail : pre ++ (records (e :: l) ++ rest) = (pre ++ record e) ++ (records l ++ rest) := by
      rw [records_cons]
      simp only [List.append_assoc]
    have hrec := length_record e
    rw [records_cons, List.length_append] at hsize
    have hkey : readSize ((pre ++ (records (e :: l) ++ rest)).drop pre.length) =
        some e.1.length := by
      rw [List.drop_left, records_cons, record]
      simp only [List.append_assoc]
      exact readSize_word (by omega) _
    have hvalue : readSize ((pre ++ (records (e :: l) ++ rest)).drop (pre.length + 8)) =
        some e.2.length := by
      rw [← List.drop_drop, List.drop_left, records_cons, record]
      simp only [List.append_assoc]
      rw [drop_word]
      exact readSize_word (by omega) _
    have hnext : (pre.length + (2 * 8 + e.1.length + e.2.length) % 2 ^ 64) % 2 ^ 64 =
        (pre ++ record e).length := by
      rw [List.length_append]
      omega
    rw [List.length_cons, parseLoop, if_neg (by omega), hkey, hvalue]
    simp only [Option.bind_eq_bind, Option.bind_some]
    rw [if_neg (by omega), hnext, htail, ih _ (by rw [List.length_append]; omega), positions,
      ← List.length_append, List.append_assoc]
    rfl

/-- **Count and records are read back.** -/
theorem parseEntries_records (l : List Entry) (rest : Bytes)
    (hlt : 8 + (records l).length < 2 ^ 64) :
    parseEntries (word l.length ++ (records l ++ rest)) (8 + (records l).length) =
      some (positions 8 l) := by
  have hlen := length_records l
  rw [parseEntries, if_neg (by omega), readSize_word (by omega)]
  exact parseLoop_records (word l.length) (by rw [length_word]) hlt []

/-! ### Blocks -/

/-- A block that shows `l`.  Its views point into the file `s`, unless the block is compressed. -/
structure DataBlockIndex.Holds (d : DataBlockIndex) (s : Bytes) (l : List Entry) : Prop where
  dataIndex : d.dataIndex = positions 8 l
  entries : d.entries = l
  mapped : d.compressed = false → ∃ pre, s = pre ++ d.memory

theorem DataBlockIndex.Holds.of_drop {d : DataBlockIndex} {s : Bytes} {l : List Entry} {n : Nat}
    (h : d.Holds (s.drop n) l) : d.Holds s l := by
  refine ⟨h.dataIndex, h.entries, ?_⟩
  intro hd
  obtain ⟨pre, hpre⟩ := h.mapped hd
  exact ⟨s.take n ++ pre, by rw [List.append_assoc, ← hpre, List.take_append_drop]⟩

/-- What reading a block gives: whether it is taken for an encoded one, the filter and the
entries. -/
structure Reads (f : CompressionFactory) (block : Bytes) (encoded : Bool) (b : BloomFilter)
    (l : List Entry) : Prop where
  isEncoded : DataBlockIndex.isEncoded block = some encoded
  load : ∀ (s : Bytes) (offset : Nat), offset < 2 ^ 31 → s.drop offset = block →
    ∃ d, DataBlockIndex.load f s (toInt32 offset) = some d ∧ d.Holds s l ∧ d.bloomFilter = b

theorem offset_eq {offset : Nat} (h : offset < 2 ^ 31) :
    (if toInt32 offset ≠ -1 then toSizeT (toInt32 offset) else 0) = offset := by
  rw [toInt32_natCast h, if_pos (by omega), toSizeT_natCast (by omega)]

theorem DataBlockIndex.load_eq (f : CompressionFactory) {s block : Bytes} {offset binarySize : Nat}
    {encoded : Bool} (hoff : offset < 2 ^ 31) (hs : s.drop offset = block)
    (hsize : readSize block = some binarySize) (henc : isEncoded block = some encoded) :
    load f s (toInt32 offset) =
      if encoded then loadEncodedBlock f offset (block.drop 8) (payloadSize binarySize)
      else
        (BloomFilter.load (block.drop 8)).bind fun loaded =>
          (parseEntries (block.drop (8 + loaded.2))
            ((binarySize + 2 ^ 64 - (8 + loaded.2)) % 2 ^ 64)).bind fun dataIndex =>
              some ⟨offset, block.drop (8 + loaded.2), dataIndex, loaded.1, false,
                CompressionType.none.code⟩ := by
  unfold load
  simp only
  rw [offset_eq hoff, hs, hsize]
  simp only [Option.bind_eq_bind, Option.bind_some, henc]

/-- The data block of a plain table. -/
def plainBlock (b : BloomFilter) (pad : Bytes) (l : List Entry) : Bytes :=
  word (8 + payload l + l.length * 2 * 8 + b.binarySize + 8) ++
    (b.image pad ++ (word l.length ++ records l))

theorem length_plainBlock (b : BloomFilter) {pad : Bytes} (hp : pad.length = 8) (l : List Entry) :
    (plainBlock b pad l).length = 8 + payload l + l.length * 2 * 8 + b.binarySize + 8 := by
  simp only [plainBlock, List.length_append, length_word, b.length_image hp, length_records]
  omega

theorem isEncoded_plainBlock {b : BloomFilter} (hn : b.hashNum ≤ 100000) {pad : Bytes}
    (hp : pad.length = 8) {l : List Entry} (hlt : (plainBlock b pad l).length < 2 ^ 64) :
    DataBlockIndex.isEncoded (plainBlock b pad l) = some false := by
  rw [length_plainBlock b hp] at hlt
  have hmagic : readUInt32 (b.image pad ++ (word l.length ++ records l)) = some b.hashNum := by
    rw [BloomFilter.image, List.append_assoc, readUInt32_word, Nat.mod_eq_of_lt (by omega)]
  rw [DataBlockIndex.isEncoded, plainBlock, readSize_word hlt, drop_word]
  simp only [Option.bind_eq_bind, Option.bind_some]
  rw [isEncodedBlock, hmagic]
  split
  · rfl
  · rw [Option.map_some, kEncodedBlockMagic, decide_eq_false (by omega)]

theorem load_plainBlock (f : CompressionFactory) {b : BloomFilter} (hb : b.Shape)
    (hn : b.hashNum ≤ 100000) (hl : b.length < 2 ^ 64) {pad : Bytes} (hp : pad.length = 8)
    {l : List Entry} (hlt : (plainBlock b pad l).length < 2 ^ 64) {s : Bytes} {offset : Nat}
    (hoff : offset < 2 ^ 31) (hs : s.drop offset = plainBlock b pad l) :
    ∃ d, DataBlockIndex.load f s (toInt32 offset) = some d ∧ d.Holds s l ∧ d.bloomFilter = b := by
  have henc := isEncoded_plainBlock hn hp hlt
  rw [length_plainBlock b hp] at hlt
  have hlen := length_records l
  have hsize : readSize (plainBlock b pad l) =
      some (8 + payload l + l.length * 2 * 8 + b.binarySize + 8) := readSize_word hlt _
  have hdrop : (plainBlock b pad l).drop 8 = b.image pad ++ (word l.length ++ records l) :=
    drop_word _ _
  have hload := hb.load_image (by omega) hl hp (word l.length ++ records l)
  have hentries : (plainBlock b pad l).drop (8 + b.binarySize) =
      word l.length ++ (records l ++ []) := by
    rw [← List.drop_drop, hdrop, List.drop_left' (b.length_image hp), List.append_nil]
  have hparse := parseEntries_records l [] (by omega)
  have hrest : (8 + payload l + l.length * 2 * 8 + b.binarySize + 8 + 2 ^ 64 - (8 + b.binarySize)) %
      2 ^ 64 = 8 + (records l).length := by omega
  refine ⟨⟨offset, word l.length ++ (records l ++ []), positions 8 l, b, false,
    CompressionType.none.code⟩, ?_, ?_, rfl⟩
  · rw [DataBlockIndex.load_eq f hoff hs hsize henc, if_neg Bool.false_ne_true, hdrop, hload,
      Option.bind_some, hentries, hrest, hparse, Option.bind_some]
  · refine .of_drop (n := offset + (8 + b.binarySize)) ⟨rfl, map_read_positions _ [] l, ?_⟩
    intro _
    rw [← List.drop_drop, hs, hentries]
    exact ⟨[], rfl⟩

/-- **A plain block is read as one.** -/
theorem reads_plainBlock (f : CompressionFactory) {b : BloomFilter} (hb : b.Shape)
    (hn : b.hashNum ≤ 100000) (hl : b.length < 2 ^ 64) {pad : Bytes} (hp : pad.length = 8)
    {l : List Entry} (hlt : (plainBlock b pad l).length < 2 ^ 64) :
    Reads f (plainBlock b pad l) false b l :=
  ⟨isEncoded_plainBlock hn hp hlt, fun _ _ hoff hs => load_plainBlock f hb hn hl hp hlt hoff hs⟩

/-- The header of an encoded block. -/
def encodedHeader (compressed : Bool) (type : CompressionType) (entriesSize : Nat) : Bytes :=
  [0x4d, 0x4f, 0x4b, 0x56, kEncodedBlockVersion,
    if compressed then kEncodedBlockFlagCompressed else 0, type.code, 0] ++ word entriesSize

/-- What `Build` returns. -/
def encodedPayload (compressed : Bool) (type : CompressionType) (entriesSize : Nat)
    (b : BloomFilter) (pad body : Bytes) : Bytes :=
  encodedHeader compressed type entriesSize ++ (b.image pad ++ body)

/-- The data block of a table with a configuration. -/
def encodedBlock (payload : Bytes) : Bytes := word (8 + payload.length) ++ payload

theorem length_encodedHeader (compressed : Bool) (type : CompressionType) (entriesSize : Nat) :
    (encodedHeader compressed type entriesSize).length = kEncodedBlockHeaderSize := by
  rw [encodedHeader, List.length_append, length_word]
  rfl

/-- The body of an encoded block, and what it stands for. -/
def Stands (f : CompressionFactory) (compressed : Bool) (type : CompressionType)
    (body content : Bytes) : Prop :=
  if compressed then ∃ c, f.create type.code = some c ∧ c.decompress body content.length = content
  else body = content

theorem loadEncodedBlock_encodedPayload {f : CompressionFactory} {compressed : Bool}
    {type : CompressionType} {b : BloomFilter} (hb : b.Shape) (hn : b.hashNum < 2 ^ 64)
    (hl : b.length < 2 ^ 64) {pad body : Bytes} (hp : pad.length = 8) {l : List Entry}
    (hlt : 8 + (records l).length < 2 ^ 64)
    (hbody : Stands f compressed type body (word l.length ++ records l)) (offset : Nat) :
    ∃ d, loadEncodedBlock f offset
        (encodedPayload compressed type (8 + (records l).length) b pad body)
        (encodedPayload compressed type (8 + (records l).length) b pad body).length = some d ∧
      d.Holds (encodedPayload compressed type (8 + (records l).length) b pad body) l ∧
      d.bloomFilter = b := by
  have hparse := parseEntries_records l [] hlt
  have hread := map_read_positions (word l.length) [] l
  rw [List.append_nil] at hparse hread
  have hload := hb.load_image hn hl hp body
  have hhead := length_encodedHeader compressed type (8 + (records l).length)
  have hdrop : (encodedPayload compressed type (8 + (records l).length) b pad body).drop
      kEncodedBlockHeaderSize = b.image pad ++ body := List.drop_left' hhead
  have hdrop' : (encodedPayload compressed type (8 + (records l).length) b pad body).drop
      (kEncodedBlockHeaderSize + b.binarySize) = body := by
    rw [← List.drop_drop, hdrop, List.drop_left' (b.length_image hp)]
  have hlen : (encodedPayload compressed type (8 + (records l).length) b pad body).length =
      kEncodedBlockHeaderSize + b.binarySize + body.length := by
    rw [encodedPayload, List.length_append, List.length_append, hhead, b.length_image hp,
      Nat.add_assoc]
  have hsize : readSize ((encodedPayload compressed type (8 + (records l).length) b pad body).drop
      (4 + 4 * 1)) = some (8 + (records l).length) := by
    show readSize (word (8 + (records l).length) ++ (b.image pad ++ body)) = _
    exact readSize_word hlt _
  have hversion : (encodedPayload compressed type (8 + (records l).length) b pad body)[4]? =
      some kEncodedBlockVersion := rfl
  have hflags : (encodedPayload compressed type (8 + (records l).length) b pad body)[4 + 1]? =
      some (if compressed then kEncodedBlockFlagCompressed else 0) := rfl
  have htype : (encodedPayload compressed type (8 + (records l).length) b pad body)[4 + 2 * 1]? =
      some type.code := rfl
  unfold loadEncodedBlock
  rw [hsize, hlen, hversion, hflags, htype]
  simp only [Option.bind_eq_bind, hdrop, hload, Option.bind_some, ne_eq, not_true_eq_false,
    if_false]
  rw [hdrop', if_neg (Nat.not_lt.mpr (Nat.le_add_right _ _)), Nat.add_sub_cancel_left]
  have hcontent : (word l.length ++ records l).length = 8 + (records l).length := by
    rw [List.length_append, length_word]
  cases compressed with
  | false =>
    obtain rfl : body = word l.length ++ records l := hbody
    refine ⟨⟨offset, word l.length ++ records l, positions 8 l, b, false, type.code⟩, ?_,
      ⟨rfl, hread, fun _ => ⟨encodedHeader false type (8 + (records l).length) ++ b.image pad, ?_⟩⟩,
      rfl⟩
    · rw [if_pos (by decide), hcontent, hparse]
      rfl
    · rw [encodedPayload, List.append_assoc]
  | true =>
    obtain ⟨c, hc, hdec⟩ : ∃ c, f.create type.code = some c ∧
      c.decompress body (word l.length ++ records l).length = word l.length ++ records l := hbody
    rw [hcontent] at hdec
    refine ⟨⟨offset, word l.length ++ records l, positions 8 l, b, true, type.code⟩, ?_,
      ⟨rfl, hread, fun h => absurd h Bool.noConfusion⟩, rfl⟩
    rw [if_neg (by decide), hc]
    simp only
    rw [if_neg (Nat.lt_irrefl _), List.take_length, hdec, hcontent, if_neg (by simp), hparse]
    rfl

/-- **An encoded block is read as one**, compressed or not. -/
theorem reads_encodedBlock {f : CompressionFactory} {compressed : Bool} {type : CompressionType}
    {b : BloomFilter} (hb : b.Shape) (hn : b.hashNum < 2 ^ 64) (hl : b.length < 2 ^ 64)
    {pad body : Bytes} (hp : pad.length = 8) {l : List Entry}
    (hlt : 8 + (records l).length < 2 ^ 64)
    (hbody : Stands f compressed type body (word l.length ++ records l))
    (hblock : (encodedBlock (encodedPayload compressed type (8 + (records l).length) b pad
      body)).length < 2 ^ 64) :
    Reads f (encodedBlock (encodedPayload compressed type (8 + (records l).length) b pad body)) true
      b l := by
  have hhead := length_encodedHeader compressed type (8 + (records l).length)
  generalize hpay : encodedPayload compressed type (8 + (records l).length) b pad body = p
    at hblock ⊢
  have hlong : kEncodedBlockHeaderSize ≤ p.length := by
    rw [← hpay, encodedPayload, List.length_append, hhead]
    exact Nat.le_add_right _ _
  rw [encodedBlock, List.length_append, length_word] at hblock
  have hsize : readSize (encodedBlock p) = some (8 + p.length) := readSize_word hblock _
  have hdrop : (encodedBlock p).drop 8 = p := drop_word _ _
  have hpayload : DataBlockIndex.payloadSize (8 + p.length) = p.length := by
    have hpos : 0 < p.length := lt_of_lt_of_le (by decide) hlong
    rw [DataBlockIndex.payloadSize, if_pos (by omega), Nat.add_sub_cancel_left]
  have henc : DataBlockIndex.isEncoded (encodedBlock p) = some true := by
    have hmagic : readUInt32 p = some kEncodedBlockMagic := by
      rw [← hpay]
      exact congrArg (Option.map Prod.fst) (readLE_append 4 kEncodedBlockMagic _)
    rw [DataBlockIndex.isEncoded, hsize]
    simp only [Option.bind_eq_bind, Option.bind_some]
    rw [hdrop, hpayload, isEncodedBlock, if_neg (Nat.not_lt.mpr hlong), hmagic, Option.map_some,
      decide_eq_true rfl]
  refine ⟨henc, ?_⟩
  intro s offset hoff hs
  obtain ⟨d, hd, hholds, hbloom⟩ := loadEncodedBlock_encodedPayload hb hn hl hp hlt hbody offset
  rw [hpay] at hd hholds
  refine ⟨d, ?_, .of_drop (n := offset + 8) ?_, hbloom⟩
  · rw [DataBlockIndex.load_eq f hoff hs hsize henc, if_pos rfl, hdrop, hpayload, hd]
  · rw [← List.drop_drop, hs, hdrop]
    exact hholds

/-! ### The index block -/

/-- The index block: its size, one entry, and room for the entries that are not there. -/
def indexBlock (indexBlockSize : Nat) (key gap : Bytes) : Bytes :=
  word indexBlockSize ++ (word 1 ++ (word indexBlockSize ++ (word key.length ++ (key ++ gap))))

theorem length_indexBlock (indexBlockSize : Nat) (key gap : Bytes) :
    (indexBlock indexBlockSize key gap).length = 32 + key.length + gap.length := by
  simp only [indexBlock, List.length_append, length_word]
  omega

theorem drop_indexBlock (indexBlockSize : Nat) (key gap block : Bytes) :
    (indexBlock indexBlockSize key gap ++ block).drop (2 * 8) =
      word indexBlockSize ++ (word key.length ++ (key ++ (gap ++ block))) := by
  rw [show 2 * 8 = 8 + 8 from rfl, ← List.drop_drop]
  simp only [indexBlock, List.append_assoc, drop_word]

/-- **`IndexBlockIndex::Load` loads the one block**, with its offset as an `int32_t`. -/
theorem load_indexBlock_eq (f : CompressionFactory) {indexBlockSize : Nat} {key : Bytes}
    (hsize : indexBlockSize < 2 ^ 64) (hkey : key.length < 2 ^ 64) (gap block : Bytes) :
    IndexBlockIndex.load f (indexBlock indexBlockSize key gap ++ block) =
      (DataBlockIndex.load f (indexBlock indexBlockSize key gap ++ block)
        (toInt32 indexBlockSize)).map fun d => ⟨indexBlockSize, 1, [⟨indexBlockSize, key, d⟩]⟩ := by
  have hfile : indexBlock indexBlockSize key gap ++ block =
      word indexBlockSize ++ (word 1 ++ (word indexBlockSize ++ (word key.length ++
        (key ++ (gap ++ block))))) := by
    simp only [indexBlock, List.append_assoc]
  have h8 : (indexBlock indexBlockSize key gap ++ block).drop 8 =
      word 1 ++ (word indexBlockSize ++ (word key.length ++ (key ++ (gap ++ block)))) := by
    rw [hfile, drop_word]
  have h16 : (word indexBlockSize ++ (word key.length ++ (key ++ (gap ++ block)))).drop (2 * 8) =
      key ++ (gap ++ block) := by
    rw [show 2 * 8 = 8 + 8 from rfl, ← List.drop_drop, drop_word, drop_word]
  have hentry : DataBlockIndexIndex.load f
      (word indexBlockSize ++ (word key.length ++ (key ++ (gap ++ block))))
      (indexBlock indexBlockSize key gap ++ block) =
        (DataBlockIndex.load f (indexBlock indexBlockSize key gap ++ block)
          (toInt32 indexBlockSize)).map
            fun d => (⟨indexBlockSize, key, d⟩, 2 * 8 + key.length) := by
    unfold DataBlockIndexIndex.load
    rw [readSize_word hsize, drop_word, readSize_word hkey, h16, Option.bind_eq_bind,
      Option.bind_some, Option.bind_eq_bind, Option.bind_some, if_neg (by simp), List.take_left]
    cases DataBlockIndex.load f (indexBlock indexBlockSize key gap ++ block)
      (toInt32 indexBlockSize) <;> rfl
  unfold IndexBlockIndex.load
  rw [h8, readSize_word (by decide), hfile, readSize_word hsize, ← hfile, Option.bind_eq_bind,
    Option.bind_some, Option.bind_eq_bind, Option.bind_some, IndexBlockIndex.loadLoop,
    drop_indexBlock, hentry]
  cases DataBlockIndex.load f (indexBlock indexBlockSize key gap ++ block)
    (toInt32 indexBlockSize) <;> rfl

/-- **`IndexBlockIndex::Load` finds the one block.** -/
theorem load_indexBlock {f : CompressionFactory} {block : Bytes} {encoded : Bool} {b : BloomFilter}
    {l : List Entry} (hr : Reads f block encoded b l) {indexBlockSize : Nat} {key gap : Bytes}
    (hlen : (indexBlock indexBlockSize key gap).length = indexBlockSize)
    (hlt : indexBlockSize < 2 ^ 31) :
    ∃ d, IndexBlockIndex.load f (indexBlock indexBlockSize key gap ++ block) =
        some ⟨indexBlockSize, 1, [⟨indexBlockSize, key, d⟩]⟩ ∧
      d.Holds (indexBlock indexBlockSize key gap ++ block) l ∧ d.bloomFilter = b := by
  obtain ⟨d, hd, hholds, hbloom⟩ := hr.load (indexBlock indexBlockSize key gap ++ block)
    indexBlockSize hlt (List.drop_left' hlen)
  rw [length_indexBlock] at hlen
  refine ⟨d, ?_, hholds, hbloom⟩
  rw [load_indexBlock_eq f (by omega) (by omega), hd]
  rfl

/-! ### The index with one block -/

section

variable {indexBlockSize : Nat} {d : DataBlockIndex} {l : List Entry}

/-- **A lookup in the one block**, when the filter knows the keys. -/
theorem get_singleton {first : Entry} (hs : SortedKeys l) (hfirst : l.head? = some first)
    (hd : d.entries = l) (hbloom : ∀ e ∈ l, d.bloomFilter.check e.1) (k : Bytes) :
    IndexBlockIndex.get ⟨indexBlockSize, 1, [⟨indexBlockSize, first.1, d⟩]⟩ k = l.lookup k := by
  obtain ⟨t, rfl⟩ : ∃ t, l = first :: t := ⟨l.tail, by cases l <;> simp_all⟩
  have hlow : ∀ e ∈ first :: t, first.1 ≤ e.1 := by
    intro e he
    rcases List.mem_cons.mp he with rfl | he
    · exact le_refl _
    · exact le_of_lt ((sortedKeys_cons.mp hs).1 e he)
  by_cases hk : first.1 > k
  · have hr : bisect (fun mid => !(([DataBlockIndexIndex.mk indexBlockSize first.1 d][mid]?).any
        fun block => block.key > k)) 1 = 0 := by
      refine bisect_spec (Nat.zero_le 1) ?_
      intro i hi
      obtain rfl : i = 0 := by omega
      simp [hk]
    rw [IndexBlockIndex.get]
    simp only [List.length_singleton, hr, ne_eq, not_true_eq_false, if_false]
    refine (lookup_eq_none ?_).symm
    intro e he heq
    exact absurd (hlow e he) (by rw [heq]; exact not_le.mpr hk)
  · have hr : bisect (fun mid => !(([DataBlockIndexIndex.mk indexBlockSize first.1 d][mid]?).any
        fun block => block.key > k)) 1 = 1 := by
      refine bisect_spec (Nat.le_refl 1) ?_
      intro i hi
      obtain rfl : i = 0 := by omega
      simp [hk]
    rw [IndexBlockIndex.get]
    simp only [List.length_singleton, hr]
    show DataBlockIndex.get d k = _
    rw [DataBlockIndex.get, hd, SST.dataBlockGet_eq_lookup hs]
    split
    · rfl
    · refine (lookup_eq_none ?_).symm
      intro e he heq
      exact absurd (hbloom e he) (by rw [heq]; assumption)

theorem collect_singleton {key : Bytes} (hd : d.entries = l) (fuel i : Nat) (hi : i < l.length)
    (hfuel : l.length - i < fuel) :
    TableIterator.collect ⟨indexBlockSize, 1, [⟨indexBlockSize, key, d⟩]⟩ fuel ⟨0, i⟩ =
      some (l.drop i) := by
  have hentries :
      TableIterator.entriesOf ⟨indexBlockSize, 1, [⟨indexBlockSize, key, d⟩]⟩ 0 = l := hd
  induction fuel generalizing i with
  | zero => omega
  | succ fuel ih =>
    have hget : l[i]? = some l[i] := List.getElem?_eq_getElem hi
    rw [TableIterator.collect, if_neg (by simp [TableIterator.atEnd])]
    simp only [hentries, hget, Option.bind_eq_bind, Option.bind_some]
    rw [TableIterator.next, if_neg (by simp [TableIterator.atEnd])]
    simp only [hentries]
    by_cases hlast : i + 1 = l.length
    · obtain ⟨fuel, rfl⟩ : ∃ m, fuel = m + 1 := ⟨fuel - 1, by omega⟩
      rw [if_pos hlast, List.length_singleton, if_pos (Nat.zero_add 1), TableIterator.collect,
        if_pos (by simp [TableIterator.atEnd]), Option.bind_some, List.drop_eq_getElem_cons hi,
        hlast, List.drop_length]
    · rw [if_neg hlast, ih (i + 1) (by omega) (by omega), Option.bind_some,
        List.drop_eq_getElem_cons hi]

/-- **An iteration yields the entries in order.** -/
theorem collect_start {key : Bytes} (hd : d.entries = l) (hl : l ≠ []) :
    TableIterator.collect ⟨indexBlockSize, 1, [⟨indexBlockSize, key, d⟩]⟩ (l.length + 1)
      (TableIterator.start ⟨indexBlockSize, 1, [⟨indexBlockSize, key, d⟩]⟩) = some l := by
  have hentries :
      TableIterator.entriesOf ⟨indexBlockSize, 1, [⟨indexBlockSize, key, d⟩]⟩ 0 = l := hd
  have hpos := List.length_pos_iff.mpr hl
  rw [TableIterator.start, if_neg (by rw [hentries]; simp [hl]),
    collect_singleton hd _ 0 hpos (by omega), List.drop_zero]

end

/-! ### The constructors -/

theorem length_resize (old : Bytes) (size : Nat) : (resize old size).length = size := by
  rw [resize, List.length_append, List.length_take, List.length_replicate]
  omega

theorem writeIndexBlock_eq (data : Bytes) {key : Bytes} {n indexBlockSize : Nat} (hn : 0 < n)
    (hsize : indexBlockSize = 2 * 8 * (n + 1) + key.length) (hle : indexBlockSize ≤ data.length) :
    ∃ gap, (indexBlock indexBlockSize key gap).length = indexBlockSize ∧
      writeIndexBlock data indexBlockSize key =
        some (indexBlock indexBlockSize key gap ++ data.drop indexBlockSize) := by
  have hflat : [word indexBlockSize, word 1, word indexBlockSize, word key.length, key].flatten =
      indexBlock indexBlockSize key [] := by
    simp [indexBlock]
  have hlen := length_indexBlock indexBlockSize key []
  rw [List.length_nil] at hlen
  obtain ⟨gap, hgap, hskip⟩ := exists_skip (indexBlock indexBlockSize key [])
    (data.drop (32 + key.length)) (n := 16 * (n - 1)) (by rw [List.length_drop]; omega)
  have hend : 32 + key.length + 16 * (n - 1) = indexBlockSize := by omega
  refine ⟨gap, by rw [length_indexBlock, hgap, hend], ?_⟩
  have hpokes := pokes_append (w := []) (r := data) (i := 0)
    (d := [word indexBlockSize, word 1, word indexBlockSize, word key.length, key]) rfl
    (by rw [hflat, hlen]; omega)
  rw [List.nil_append, hflat, hlen, List.nil_append, Nat.add_zero, hskip, List.drop_drop, hend]
    at hpokes
  rw [writeIndexBlock, hpokes]
  simp only [indexBlock, List.append_assoc, List.nil_append]

/-- The filter of a table. -/
def filterOf (rand : Nat → UInt64) (l : List Entry) : BloomFilter :=
  (l.map Prod.fst).foldl BloomFilter.insert (BloomFilter.init rand l.length)

theorem filterOf_shape (rand : Nat → UInt64) (l : List Entry) : (filterOf rand l).Shape :=
  (BloomFilter.shape_init rand l.length).foldl_insert _

theorem filterOf_check (rand : Nat → UInt64) {l : List Entry} {e : Entry} (he : e ∈ l) :
    (filterOf rand l).check e.1 :=
  (BloomFilter.shape_init rand l.length).check_of_mem (List.mem_map_of_mem he)

theorem foldl_insert_fields (keys : List Bytes) (b : BloomFilter) :
    (keys.foldl BloomFilter.insert b).hashNum = b.hashNum ∧
      (keys.foldl BloomFilter.insert b).length = b.length := by
  induction keys generalizing b with
  | nil => exact ⟨rfl, rfl⟩
  | cons key keys ih => exact ih (b.insert key)

theorem filterOf_hashNum (rand : Nat → UInt64) (l : List Entry) :
    (filterOf rand l).hashNum = (BloomFilter.init rand l.length).hashNum :=
  (foldl_insert_fields _ _).1

theorem filterOf_length (rand : Nat → UInt64) (l : List Entry) :
    (filterOf rand l).length = (BloomFilter.init rand l.length).length :=
  (foldl_insert_fields _ _).2

theorem filterOf_hashNum_le (rand : Nat → UInt64) {l : List Entry} (hl : l ≠ []) :
    (filterOf rand l).hashNum ≤ 100000 := by
  rw [filterOf_hashNum]
  exact BloomFilter.calcHashNum_le (List.length_pos_iff.mpr hl)

theorem filterOf_length_lt (rand : Nat → UInt64) {l : List Entry}
    (h : (filterOf rand l).binarySize < 2 ^ 31) : (filterOf rand l).length < 2 ^ 64 := by
  have hdata := (filterOf_shape rand l).data
  rw [BloomFilter.binarySize, BloomFilter.dataOffset_eq, hdata] at h
  omega

theorem flatten_records (l : List Entry) :
    (l.flatMap fun e => [word e.1.length, word e.2.length, e.1, e.2]).flatten = records l := by
  induction l with
  | nil => rfl
  | cons e l ih =>
    rw [List.flatMap_cons, List.flatten_append, ih, records_cons]
    simp [record]

theorem writePlain_eq (rand : Nat → UInt64) {l : List Entry} {first : Entry}
    (hfirst : l.head? = some first) (old : Bytes) :
    ∃ gap pad, pad.length = 8 ∧
      (indexBlock (2 * 8 * (l.length + 1) + first.1.length) first.1 gap).length =
        2 * 8 * (l.length + 1) + first.1.length ∧
      writePlain rand l.length l old =
        some (indexBlock (2 * 8 * (l.length + 1) + first.1.length) first.1 gap ++
          plainBlock (filterOf rand l) pad l) := by
  have hpos : 0 < l.length := by
    cases l with
    | nil => cases hfirst
    | cons e l => exact Nat.succ_pos _
  generalize hI : 2 * 8 * (l.length + 1) + first.1.length = indexBlockSize
  generalize hD : 8 + payload l + l.length * 2 * 8 + (filterOf rand l).binarySize + 8 =
    dataBlockSize
  have hdata := length_resize old (indexBlockSize + dataBlockSize)
  have hrec := length_records l
  obtain ⟨gap, hindex, hwrite⟩ := writeIndexBlock_eq (resize old (indexBlockSize +
    dataBlockSize)) hpos hI.symm (by omega)
  have hrest : ((resize old (indexBlockSize + dataBlockSize)).drop indexBlockSize).length =
      dataBlockSize := by
    rw [List.length_drop, hdata, Nat.add_sub_cancel_left]
  generalize (resize old (indexBlockSize + dataBlockSize)).drop indexBlockSize = rest
    at hwrite hrest
  have hsize : poke (indexBlock indexBlockSize first.1 gap ++ rest) indexBlockSize
      (word dataBlockSize) = some (indexBlock indexBlockSize first.1 gap ++ word dataBlockSize ++
        rest.drop 8) := by
    rw [poke_append hindex.symm (by rw [length_word]; omega), length_word]
  obtain ⟨pad, hpad, hsave⟩ := (filterOf rand l).save_append
    (w := indexBlock indexBlockSize first.1 gap ++ word dataBlockSize) (r := rest.drop 8)
    (i := indexBlockSize + 8) (by rw [List.length_append, hindex, length_word])
    (by rw [List.length_drop]; omega)
  have himage := (filterOf rand l).length_image hpad
  have hflat : (word l.length ::
      l.flatMap fun e => [word e.1.length, word e.2.length, e.1, e.2]).flatten =
        word l.length ++ records l := by
    rw [List.flatten_cons, flatten_records]
  have hpokes := pokes_append (w := indexBlock indexBlockSize first.1 gap ++ word dataBlockSize ++
      (filterOf rand l).image pad) (r := (rest.drop 8).drop (filterOf rand l).binarySize)
    (i := indexBlockSize + 8 + (filterOf rand l).binarySize)
    (d := word l.length :: l.flatMap fun e => [word e.1.length, word e.2.length, e.1, e.2])
    (by rw [List.length_append, List.length_append, hindex, length_word, himage])
    (by rw [hflat, List.length_append, length_word, List.length_drop, List.length_drop]; omega)
  have hend : ((rest.drop 8).drop (filterOf rand l).binarySize).drop
      (word l.length ++ records l).length = [] := by
    refine List.drop_eq_nil_of_le ?_
    rw [List.length_append, length_word, List.length_drop, List.length_drop]
    omega
  refine ⟨gap, pad, hpad, hindex, ?_⟩
  unfold writePlain
  rw [hfirst, Option.bind_eq_bind, Option.bind_some]
  show ((writeIndexBlock (resize old (2 * 8 * (l.length + 1) + first.1.length + (8 + payload l +
      l.length * 2 * 8 + (filterOf rand l).binarySize + 8)))
      (2 * 8 * (l.length + 1) + first.1.length) first.1).bind fun data =>
    (poke data (2 * 8 * (l.length + 1) + first.1.length)
        (word (8 + payload l + l.length * 2 * 8 + (filterOf rand l).binarySize + 8))).bind
          fun data =>
      ((filterOf rand l).save data (2 * 8 * (l.length + 1) + first.1.length + 8)).bind fun saved =>
        pokes saved.1 (2 * 8 * (l.length + 1) + first.1.length + 8 + saved.2)
          (word l.length :: l.flatMap fun e => [word e.1.length, word e.2.length, e.1, e.2])) = _
  rw [hI, hD, hwrite, Option.bind_some, hsize, Option.bind_some, hsave, Option.bind_some, hpokes,
    hflat, hend, plainBlock, hD]
  simp only [List.append_assoc, List.append_nil]

theorem foldl_add (l : List Entry) (b : CompressedBlockBuilder) :
    l.foldl (fun b e => b.add e.1 e.2) b =
      ⟨b.config, b.rawData ++ records l, b.keys ++ l.map Prod.fst, b.count + l.length⟩ := by
  induction l generalizing b with
  | nil => simp [records]
  | cons e l ih =>
    rw [List.foldl_cons, ih, CompressedBlockBuilder.add, records_cons, record]
    simp only [List.append_assoc, List.map_cons, List.singleton_append, List.length_cons]
    congr 1
    omega

theorem writeEncodedBlockHeader_eq {s : Bytes} (compressed : Bool) (type : CompressionType)
    (entriesSize : Nat) (hle : kEncodedBlockHeaderSize ≤ s.length) :
    writeEncodedBlockHeader s compressed type entriesSize =
      some (encodedHeader compressed type entriesSize ++ s.drop kEncodedBlockHeaderSize) := by
  have hflat : [le 4 kEncodedBlockMagic, [kEncodedBlockVersion],
      [if compressed then kEncodedBlockFlagCompressed else 0], [type.code], [0],
        word entriesSize].flatten = encodedHeader compressed type entriesSize := by
    simp [encodedHeader, show le 4 kEncodedBlockMagic = [0x4d, 0x4f, 0x4b, 0x56] by decide]
  have hlen := length_encodedHeader compressed type entriesSize
  have hpokes := pokes_append (w := []) (r := s) (i := 0)
    (d := [le 4 kEncodedBlockMagic, [kEncodedBlockVersion],
      [if compressed then kEncodedBlockFlagCompressed else 0], [type.code], [0],
        word entriesSize]) rfl (by rw [hflat, hlen]; exact hle)
  rw [hflat, hlen] at hpokes
  exact hpokes

theorem exists_writeHead (b : BloomFilter) (compressed : Bool) (type : CompressionType)
    (entriesSize bodySize : Nat) :
    ∃ result pad, pad.length = 8 ∧
      writeEncodedBlockHeader
          (List.replicate (kEncodedBlockHeaderSize + b.binarySize + bodySize) 0) compressed type
          entriesSize = some result ∧
      b.save result kEncodedBlockHeaderSize =
        some (encodedHeader compressed type entriesSize ++ b.image pad ++
          List.replicate bodySize 0, b.binarySize) := by
  have hlen := length_encodedHeader compressed type entriesSize
  obtain ⟨pad, hpad, hsave⟩ := b.save_append (w := encodedHeader compressed type entriesSize)
    (r := List.replicate (b.binarySize + bodySize) 0) hlen.symm (by simp)
  refine ⟨_, pad, hpad, writeEncodedBlockHeader_eq _ _ _ (by rw [List.length_replicate]; omega), ?_⟩
  rw [List.drop_replicate, Nat.add_assoc, Nat.add_sub_cancel_left, hsave, List.drop_replicate,
    Nat.add_sub_cancel_left]

theorem exists_pokeEntries {w : Bytes} {i : Nat} (hi : i = w.length) (l : List Entry) :
    ∃ counted,
      poke (w ++ List.replicate (8 + (records l).length) 0) i (word l.length) = some counted ∧
      poke counted (i + 8) (records l) = some (w ++ (word l.length ++ records l)) := by
  refine ⟨w ++ word l.length ++ List.replicate (records l).length 0, ?_, ?_⟩
  · rw [poke_append hi (by simp), length_word, List.drop_replicate, Nat.add_sub_cancel_left]
  · rw [poke_append (by rw [List.length_append, hi, length_word]) (by simp), List.drop_replicate,
      Nat.sub_self, List.replicate_zero, List.append_nil, List.append_assoc]

theorem create_eq_some {f : CompressionFactory} {type : CompressionType} (htype : type ≠ .snappy)
    {c : Compressor} (hc : f.create type.code = some c) : c = f.lz4 := by
  cases type with
  | none => cases hc
  | snappy => exact absurd rfl htype
  | lz4 => exact (Option.some.inj hc).symm

/-- The body that `Build` makes of a content. -/
def Encodes (f : CompressionFactory) (compressed : Bool) (type : CompressionType)
    (body content : Bytes) : Prop :=
  if compressed then
    ∃ c, f.create type.code = some c ∧ c.compress content ≠ [] ∧ body = c.compress content
  else body = content

/-- The choice of `Build`: whether a content is stored compressed, and the body stored. -/
def chosenBody (f : CompressionFactory) (config : CompressionConfig) (bloomSize : Nat)
    (content : Bytes) : Bool × Bytes :=
  if config.shouldCompress (kEncodedBlockHeaderSize + bloomSize + content.length) then
    match f.create config.type.code with
    | some c =>
      if c.compress content ≠ [] ∧ (c.compress content).length < content.length then
        (true, c.compress content)
      else (false, content)
    | none => (false, content)
  else (false, content)

section Chosen

variable {f : CompressionFactory} {config : CompressionConfig} {bloomSize : Nat} {content : Bytes}
  (h : config.shouldCompress (kEncodedBlockHeaderSize + bloomSize + content.length) = true)

include h

theorem chosenBody_of_create {c : Compressor} (hc : f.create config.type.code = some c) :
    chosenBody f config bloomSize content =
      if c.compress content ≠ [] ∧ (c.compress content).length < content.length then
        (true, c.compress content)
      else (false, content) := by
  rw [chosenBody, if_pos h, hc]

theorem chosenBody_of_no_create (hc : f.create config.type.code = none) :
    chosenBody f config bloomSize content = (false, content) := by
  rw [chosenBody, if_pos h, hc]

end Chosen

theorem encodes_chosenBody {f : CompressionFactory} {config : CompressionConfig} {bloomSize : Nat}
    {content body : Bytes} {compressed : Bool}
    (h : chosenBody f config bloomSize content = (compressed, body)) :
    Encodes f compressed config.type body content := by
  unfold chosenBody at h
  split at h
  · split at h
    · split at h
      · obtain ⟨rfl, rfl⟩ := Prod.mk.inj h
        exact ⟨_, ‹_›, (‹_ ∧ _›).1, rfl⟩
      · obtain ⟨rfl, rfl⟩ := Prod.mk.inj h
        rfl
    · obtain ⟨rfl, rfl⟩ := Prod.mk.inj h
      rfl
  · obtain ⟨rfl, rfl⟩ := Prod.mk.inj h
    rfl

/-- **`Build` returns an encoded payload**, whatever the compressors do. -/
theorem exists_build (f : CompressionFactory) (rand : Nat → UInt64) (config : CompressionConfig)
    {l : List Entry} (hl : l ≠ []) :
    ∃ built compressed pad body,
      CompressedBlockBuilder.build f rand ⟨config, records l, l.map Prod.fst, l.length⟩ =
        some built ∧
      built.data = encodedPayload compressed config.type (8 + (records l).length) (filterOf rand l)
        pad body ∧
      pad.length = 8 ∧ chosenBody f config (filterOf rand l).binarySize
        (word l.length ++ records l) = (compressed, body) := by
  have hcontent : (word l.length ++ records l).length = 8 + (records l).length := by
    rw [List.length_append, length_word]
  have hcount : l.length ≠ 0 := by
    rw [ne_eq, List.length_eq_zero_iff]
    exact hl
  have hfilter : (if l.length = 0 then BloomFilter.init rand 1
      else (l.map Prod.fst).foldl BloomFilter.insert (BloomFilter.init rand l.length)) =
        filterOf rand l := if_neg hcount
  obtain ⟨result, pad, hpad, hheader, hsave⟩ := exists_writeHead (filterOf rand l) false config.type
    (8 + (records l).length) (8 + (records l).length)
  have himage := (filterOf rand l).length_image hpad
  have hhead := length_encodedHeader false config.type (8 + (records l).length)
  obtain ⟨counted, hpokeCount, hpokeRecords⟩ := exists_pokeEntries
    (i := kEncodedBlockHeaderSize + (filterOf rand l).binarySize)
    (w := encodedHeader false config.type (8 + (records l).length) ++ (filterOf rand l).image pad)
    (by rw [List.length_append, hhead, himage]) l
  rw [List.append_assoc] at hpokeRecords
  have hentries : ((encodedHeader false config.type (8 + (records l).length) ++
      ((filterOf rand l).image pad ++ (word l.length ++ records l))).drop
        (kEncodedBlockHeaderSize + (filterOf rand l).binarySize)).take (8 + (records l).length) =
          word l.length ++ records l := by
    rw [← List.append_assoc, List.drop_left' (by rw [List.length_append, hhead, himage]),
      ← hcontent,
      List.take_length]
  -- the block as it is when it is not compressed, for whatever reason
  have hplain : encodedHeader false config.type (8 + (records l).length) ++
        ((filterOf rand l).image pad ++ (word l.length ++ records l)) =
      encodedPayload false config.type (8 + (records l).length) (filterOf rand l) pad
        (word l.length ++ records l) := rfl
  unfold CompressedBlockBuilder.build
  simp only
  rw [hfilter, hheader, Option.bind_eq_bind, Option.bind_some, hsave, Option.bind_eq_bind,
    Option.bind_some, hpokeCount, Option.bind_some, hpokeRecords, Option.bind_some, hentries]
  split
  · rename_i hshould
    rw [← hcontent] at hshould
    split
    · rename_i c hc
      have hchosen := chosenBody_of_create hshould hc
      rw [hcontent] at hchosen
      split
      · rename_i hsmall
        obtain ⟨result', pad', hpad', hheader', hsave'⟩ := exists_writeHead (filterOf rand l) true
          config.type (8 + (records l).length) (c.compress (word l.length ++ records l)).length
        have hhead' := length_encodedHeader true config.type (8 + (records l).length)
        have himage' := (filterOf rand l).length_image hpad'
        rw [hheader', Option.bind_some, hsave', Option.bind_some]
        simp only
        rw [poke_append (by rw [List.length_append, hhead', himage']) (by simp), Option.bind_some]
        refine ⟨_, true, pad', c.compress (word l.length ++ records l), rfl, ?_, hpad', ?_⟩
        · simp [encodedPayload]
        · exact hchosen.trans (if_pos hsmall)
      · rename_i hlarge
        exact ⟨_, false, pad, _, rfl, hplain, hpad, hchosen.trans (if_neg hlarge)⟩
    · rename_i hc
      exact ⟨_, false, pad, _, rfl, hplain, hpad, chosenBody_of_no_create hshould hc⟩
  · rename_i hshould
    rw [← hcontent] at hshould
    exact ⟨_, false, pad, _, rfl, hplain, hpad, if_neg hshould⟩

theorem Encodes.stands {f : CompressionFactory} (hf : f.lz4.Lossless) {compressed : Bool}
    {type : CompressionType} (htype : type ≠ .snappy) {body content : Bytes}
    (h : Encodes f compressed type body content) :
    Stands f compressed type body content ∧
      (content.length ≤ body.length ∨ content.length < 2 ^ 64) := by
  cases compressed with
  | false =>
    obtain rfl : body = content := h
    exact ⟨rfl, Or.inl (Nat.le_refl _)⟩
  | true =>
    obtain ⟨c, hc, hne, rfl⟩ := h
    have hlossless := create_eq_some htype hc ▸ hf
    exact ⟨⟨c, hc, hlossless.decompress_compress _ hne⟩, Or.inr (hlossless.length_lt _ hne)⟩

/-- **The constructors with a configuration**, whatever the compressors do. -/
theorem exists_writeEncoded (f : CompressionFactory) (rand : Nat → UInt64)
    (config : CompressionConfig) {l : List Entry} {first : Entry} (hfirst : l.head? = some first)
    (old : Bytes) :
    ∃ gap compressed pad body, pad.length = 8 ∧
      chosenBody f config (filterOf rand l).binarySize (word l.length ++ records l) =
        (compressed, body) ∧
      (indexBlock (2 * 8 * (l.length + 1) + first.1.length) first.1 gap).length =
        2 * 8 * (l.length + 1) + first.1.length ∧
      writeEncoded f rand config l.length l old =
        some (indexBlock (2 * 8 * (l.length + 1) + first.1.length) first.1 gap ++
          encodedBlock (encodedPayload compressed config.type (8 + (records l).length)
            (filterOf rand l) pad body)) := by
  have hl : l ≠ [] := by
    rintro rfl
    cases hfirst
  obtain ⟨built, compressed, pad, body, hbuild, hdata, hpad, hbody⟩ := exists_build f rand config hl
  generalize hI : 2 * 8 * (l.length + 1) + first.1.length = indexBlockSize
  have hlen := length_resize old (indexBlockSize + 8 + built.data.length)
  obtain ⟨gap, hindex, hwrite⟩ := writeIndexBlock_eq (resize old (indexBlockSize + 8 +
    built.data.length)) (List.length_pos_iff.mpr hl) hI.symm (by omega)
  have hrest : ((resize old (indexBlockSize + 8 + built.data.length)).drop indexBlockSize).length =
      8 + built.data.length := by
    rw [List.length_drop, hlen]
    omega
  generalize (resize old (indexBlockSize + 8 + built.data.length)).drop indexBlockSize = rest
    at hwrite hrest
  refine ⟨gap, compressed, pad, body, hpad, hbody, hindex, ?_⟩
  have hfold : l.foldl (fun b e => b.add e.1 e.2) (CompressedBlockBuilder.mk config [] [] 0) =
      ⟨config, records l, l.map Prod.fst, l.length⟩ := by
    rw [foldl_add, List.nil_append, List.nil_append, Nat.zero_add]
  unfold writeEncoded
  rw [hfold]
  simp only
  rw [hbuild, hfirst]
  simp only [Option.bind_eq_bind, Option.bind_some]
  rw [hI, hwrite, Option.bind_some, poke_append hindex.symm (by rw [length_word]; omega),
    Option.bind_some, length_word, poke_append (by rw [List.length_append, hindex, length_word])
      (by rw [List.length_drop]; omega), List.drop_drop, List.drop_eq_nil_of_le (by omega),
    List.append_nil, encodedBlock, ← hdata, List.append_assoc]

/-! ### The round trip -/

/-- A file that reads as `l`. -/
def Written (f : CompressionFactory) (l : List Entry) (encoded : Bool) (file : Bytes) : Prop :=
  ∃ index, IndexBlockIndex.load f file = some index ∧
    TableIterator.collect index (l.length + 1) (TableIterator.start index) = some l ∧
    (∀ k v, index.get k = some v ↔ (k, v) ∈ l) ∧
    ∀ block ∈ index.dataBlockIndexs,
      DataBlockIndex.isEncoded (file.drop block.offset) = some encoded

/-- A file with one block, which reads as `l`. -/
inductive Laid (f : CompressionFactory) (rand : Nat → UInt64) (l : List Entry) (encoded : Bool) :
    Bytes → Prop
  | mk {first : Entry} {indexBlockSize : Nat} {gap block : Bytes} (hfirst : l.head? = some first)
      (hlen : (indexBlock indexBlockSize first.1 gap).length = indexBlockSize)
      (hlt : indexBlockSize < 2 ^ 31) (hr : Reads f block encoded (filterOf rand l) l) :
      Laid f rand l encoded (indexBlock indexBlockSize first.1 gap ++ block)

theorem Laid.loaded {f : CompressionFactory} {rand : Nat → UInt64} {l : List Entry} {encoded : Bool}
    {file : Bytes} (h : Laid f rand l encoded file) :
    ∃ first d, l.head? = some first ∧ d.Holds file l ∧ d.bloomFilter = filterOf rand l ∧
      ∃ size, IndexBlockIndex.load f file = some ⟨size, 1, [⟨size, first.1, d⟩]⟩ := by
  obtain ⟨hfirst, hlen, hlt, hr⟩ := h
  obtain ⟨d, hload, hholds, hbloom⟩ := load_indexBlock hr hlen hlt
  exact ⟨_, d, hfirst, hholds, hbloom, _, hload⟩

theorem Laid.written {f : CompressionFactory} {rand : Nat → UInt64} {l : List Entry}
    {encoded : Bool} {file : Bytes} (h : Laid f rand l encoded file) (hs : SortedKeys l) :
    Written f l encoded file := by
  obtain ⟨hfirst, hlen, hlt, hr⟩ := h
  rename_i first indexBlockSize gap block
  have hl : l ≠ [] := by
    rintro rfl
    cases hfirst
  obtain ⟨d, hload, hholds, hbloom⟩ := load_indexBlock hr hlen hlt
  have hentries := hholds.entries
  refine ⟨_, hload, collect_start hentries hl, ?_, ?_⟩
  · intro k v
    have hcheck : ∀ e ∈ l, d.bloomFilter.check e.1 := by
      intro e he
      rw [hbloom]
      exact filterOf_check rand he
    rw [get_singleton hs hfirst hentries hcheck, hs.lookup_eq_some]
  · intro b hb
    obtain rfl := List.mem_singleton.mp hb
    show DataBlockIndex.isEncoded ((indexBlock indexBlockSize first.1 gap ++ block).drop
      indexBlockSize) = _
    rw [List.drop_left' hlen]
    exact hr.isEncoded

theorem laid_writePlain (f : CompressionFactory) (rand : Nat → UInt64) {l : List Entry}
    (hl : l ≠ []) (old : Bytes)
    (hsize : ∀ file, writePlain rand l.length l old = some file → file.length < 2 ^ 31) :
    ∃ file, writePlain rand l.length l old = some file ∧ Laid f rand l false file := by
  obtain ⟨first, hfirst⟩ : ∃ first, l.head? = some first := ⟨_, List.head?_eq_some_head hl⟩
  obtain ⟨gap, pad, hpad, hindex, hwrite⟩ := writePlain_eq rand hfirst old
  have hlen := hsize _ hwrite
  rw [List.length_append, hindex] at hlen
  have hblock := length_plainBlock (filterOf rand l) hpad l
  have hreads : Reads f (plainBlock (filterOf rand l) pad l) false (filterOf rand l) l :=
    reads_plainBlock f (filterOf_shape rand l) (filterOf_hashNum_le rand hl)
      (filterOf_length_lt rand (by omega)) hpad (by omega)
  exact ⟨_, hwrite, .mk hfirst hindex (by omega) hreads⟩

theorem laid_writeEncoded {f : CompressionFactory} (hf : f.lz4.Lossless) (rand : Nat → UInt64)
    {config : CompressionConfig} (htype : config.type ≠ .snappy) {l : List Entry} (hl : l ≠ [])
    (old : Bytes)
    (hsize : ∀ file, writeEncoded f rand config l.length l old = some file → file.length < 2 ^ 31) :
    ∃ file, writeEncoded f rand config l.length l old = some file ∧ Laid f rand l true file := by
  obtain ⟨first, hfirst⟩ : ∃ first, l.head? = some first := ⟨_, List.head?_eq_some_head hl⟩
  obtain ⟨gap, compressed, pad, body, hpad, hbody, hindex, hwrite⟩ :=
    exists_writeEncoded f rand config hfirst old
  obtain ⟨hstands, hentries⟩ := (encodes_chosenBody hbody).stands hf htype
  rw [List.length_append, length_word] at hentries
  have hlen := hsize _ hwrite
  rw [List.length_append, hindex] at hlen
  have hhash := filterOf_hashNum_le rand hl
  have hblock : (encodedBlock (encodedPayload compressed config.type (8 + (records l).length)
      (filterOf rand l) pad body)).length =
        8 + (kEncodedBlockHeaderSize + ((filterOf rand l).binarySize + body.length)) := by
    simp only [encodedBlock, encodedPayload, List.length_append, length_word, length_encodedHeader,
      (filterOf rand l).length_image hpad]
  have hreads := reads_encodedBlock (filterOf_shape rand l) (by omega)
    (filterOf_length_lt rand (by omega)) hpad (by omega) hstands (by omega)
  exact ⟨_, hwrite, .mk hfirst hindex (by omega) hreads⟩

theorem written_writePlain (f : CompressionFactory) (rand : Nat → UInt64) {l : List Entry}
    (hs : SortedKeys l) (hl : l ≠ []) (old : Bytes)
    (hsize : ∀ file, writePlain rand l.length l old = some file → file.length < 2 ^ 31) :
    ∃ file, writePlain rand l.length l old = some file ∧ Written f l false file := by
  obtain ⟨file, hwrite, hlaid⟩ := laid_writePlain f rand hl old hsize
  exact ⟨file, hwrite, hlaid.written hs⟩

theorem written_writeEncoded {f : CompressionFactory} (hf : f.lz4.Lossless) (rand : Nat → UInt64)
    {config : CompressionConfig} (htype : config.type ≠ .snappy) {l : List Entry}
    (hs : SortedKeys l) (hl : l ≠ []) (old : Bytes)
    (hsize : ∀ file, writeEncoded f rand config l.length l old = some file → file.length < 2 ^ 31) :
    ∃ file, writeEncoded f rand config l.length l old = some file ∧ Written f l true file := by
  obtain ⟨file, hwrite, hlaid⟩ := laid_writeEncoded hf rand htype hl old hsize
  exact ⟨file, hwrite, hlaid.written hs⟩

theorem length_writePlain (rand : Nat → UInt64) {l : List Entry} (hl : l ≠ []) {old file : Bytes}
    (h : writePlain rand l.length l old = some file) :
    file.length = plainFileSize (fun n => (BloomFilter.init rand n).binarySize) l := by
  obtain ⟨first, hfirst⟩ : ∃ first, l.head? = some first := ⟨_, List.head?_eq_some_head hl⟩
  obtain ⟨gap, pad, hpad, hindex, hwrite⟩ := writePlain_eq rand hfirst old
  obtain rfl := Option.some.inj (h.symm.trans hwrite)
  have hfilter : (filterOf rand l).binarySize = (BloomFilter.init rand l.length).binarySize := by
    rw [BloomFilter.binarySize, BloomFilter.binarySize, (filterOf_shape rand l).seed,
      (filterOf_shape rand l).data, (BloomFilter.shape_init rand l.length).seed,
      (BloomFilter.shape_init rand l.length).data]
    rw [filterOf_hashNum, filterOf_length]
  rw [List.length_append, hindex, length_plainBlock _ hpad, plainFileSize, hfirst, hfilter]
  rfl

theorem Written.get_eq {f : CompressionFactory} {s : SST} {encoded : Bool} {file : Bytes}
    (h : Written f s.entries encoded file) :
    ∃ index, IndexBlockIndex.load f file = some index ∧ ∀ k, index.get k = s.get k := by
  obtain ⟨index, hload, -, hget, -⟩ := h
  refine ⟨index, hload, ?_⟩
  intro k
  refine Option.ext ?_
  intro v
  rw [hget, SST.get_eq_some]

/-- **What a constructor writes is read back**: the iterator yields the entries, a lookup
finds exactly them, and the block is taken for what it is. -/
theorem sst_round_trip {f : CompressionFactory} (hf : f.lz4.Lossless) (rand : Nat → UInt64)
    (c : Construction) (hs : SortedKeys c.list) (hl : c.list ≠ [])
    (htype : ∀ config, c.config? = some config → config.type ≠ .snappy) (old : Bytes)
    (hsize : ∀ file, c.write f rand old = some file → file.length < 2 ^ 31) :
    ∃ file index, c.write f rand old = some file ∧ IndexBlockIndex.load f file = some index ∧
      TableIterator.collect index (c.list.length + 1) (TableIterator.start index) = some c.list ∧
      (∀ k v, index.get k = some v ↔ (k, v) ∈ c.list) ∧
      ∀ block ∈ index.dataBlockIndexs,
        DataBlockIndex.isEncoded (file.drop block.offset) = some c.config?.isSome := by
  have hwritten :
      ∃ file, c.write f rand old = some file ∧ Written f c.list c.config?.isSome file := by
    cases c with
    | entries l => exact written_writePlain f rand hs hl old hsize
    | memTable m =>
      rw [Construction.write, m.size_eq] at hsize ⊢
      exact written_writePlain f rand hs hl old hsize
    | entriesWith config l => exact written_writeEncoded hf rand (htype _ rfl) hs hl old hsize
    | memTableWith config m =>
      rw [Construction.write, m.size_eq] at hsize ⊢
      exact written_writeEncoded hf rand (htype _ rfl) hs hl old hsize
  obtain ⟨file, hwrite, index, hload, hrest⟩ := hwritten
  exact ⟨file, index, hwrite, hload, hrest⟩

/-- One key with a long value. -/
def longValue : List Entry := [([97], List.replicate 100 120)]

/-- The frame that `LZ4F_compressFrame` makes of the entries of that table. -/
def longValueFrame : Bytes :=
  [4, 34, 77, 24, 104, 64, 125, 0, 0, 0, 0, 0, 0, 0, 212, 25, 0, 0, 0, 34, 1, 0, 1, 0, 4, 8, 0, 18,
    100, 15, 0, 63, 0, 97, 120, 1, 0, 75, 80, 120, 120, 120, 120, 120, 0, 0, 0, 0]

/-- A compressor that knows that frame and fails on everything else. -/
def longValueCompressor : Compressor where
  compress data := if data = word 1 ++ records longValue then longValueFrame else []
  decompress data _ := if data = longValueFrame then word 1 ++ records longValue else []

theorem lossless_longValueCompressor : longValueCompressor.Lossless := by
  refine ⟨?_, ?_⟩
  · intro data h
    by_cases hd : data = word 1 ++ records longValue
    · rw [hd]
      decide +kernel
    · exact absurd (if_neg hd) h
  · intro data h
    by_cases hd : data = word 1 ++ records longValue
    · rw [hd]
      decide +kernel
    · exact absurd (if_neg hd) h

/-- The table is written compressed, and read back. -/
theorem sst_round_trip_longValue :
    ∃ file index,
      (Construction.entriesWith ⟨.lz4, true, 64⟩ longValue).write
          ⟨longValueCompressor, longValueCompressor⟩ (fun _ => 7) [] = some file ∧
      IndexBlockIndex.load ⟨longValueCompressor, longValueCompressor⟩ file = some index ∧
      TableIterator.collect index 2 (TableIterator.start index) = some longValue ∧
      (∀ k v, index.get k = some v ↔ (k, v) ∈ longValue) ∧
      ∀ block ∈ index.dataBlockIndexs,
        DataBlockIndex.isEncoded (file.drop block.offset) = some true := by
  refine sst_round_trip lossless_longValueCompressor (fun _ => 7)
    (.entriesWith ⟨.lz4, true, 64⟩ longValue) (List.pairwise_singleton _ _) (List.cons_ne_nil _ _)
    ?_ [] ?_
  · intro config h
    obtain rfl := Option.some.inj h
    decide
  · intro file h
    have hlen : ((Construction.entriesWith ⟨.lz4, true, 64⟩ longValue).write
        ⟨longValueCompressor, longValueCompressor⟩ (fun _ => 7) []).all
          (fun file => file.length < 2 ^ 31) = true := by decide +kernel
    rw [h, Option.all_some, decide_eq_true_iff] at hlen
    exact hlen

end Mokv.LSM
