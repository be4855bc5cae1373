import Mokv.LSM.BloomFilter
import Mokv.LSM.SST

/-!
# The file of a table

The bytes that the constructors of `SST` write and that `IndexBlockIndex::Load` reads
(`mokv/lsm/sst.hpp`).  A file is an index block, with room for one index entry per key
though there is only one, and a data block:

* plain: size, bloom filter, count, records;
* encoded: size, a header with a magic number, bloom filter, and count and records again,
  which may be compressed.

The constructors write through a mapping of the file, so what they skip keeps the bytes of
an older file.  Compression is a parameter.
-/

namespace Mokv.LSM

open Lib

/-! ### Compression -/

/-- `CompressionType`. -/
inductive CompressionType where
  | none
  | snappy
  | lz4
deriving DecidableEq

/-- The number of the enumerator. -/
def CompressionType.code : CompressionType → UInt8
  | .none => 0
  | .snappy => 1
  | .lz4 => 2

/-- `Compressor`.  `compress` answers nothing when it fails; `decompress` gets the size that
is expected and answers what it wrote. -/
structure Compressor where
  compress : Bytes → Bytes
  decompress : Bytes → Nat → Bytes

/-- What a compressor promises: the size it is given is a `size_t`, and what it compresses
comes back. -/
structure Compressor.Lossless (c : Compressor) : Prop where
  length_lt : ∀ data, c.compress data ≠ [] → data.length < 2 ^ 64
  decompress_compress : ∀ data, c.compress data ≠ [] →
    c.decompress (c.compress data) data.length = data

/-- The compressors that `CompressionFactory` makes. -/
structure CompressionFactory where
  snappy : Compressor
  lz4 : Compressor

/-- `CompressionFactory::Create`. -/
def CompressionFactory.create (f : CompressionFactory) (type : UInt8) : Option Compressor :=
  if type = 1 then some f.snappy else if type = 2 then some f.lz4 else none

/-- `CompressionConfig`. -/
structure CompressionConfig where
  type : CompressionType := .lz4
  enable : Bool := true
  minSizeForCompression : Nat := 64
deriving DecidableEq

/-- `ShouldCompress`. -/
def CompressionConfig.shouldCompress (c : CompressionConfig) (originalSize : Nat) : Bool :=
  c.enable && c.minSizeForCompression ≤ originalSize

/-! ### Blocks -/

/-- `kEncodedBlockMagic`. -/
def kEncodedBlockMagic : Nat := 0x564b4f4d

/-- `kEncodedBlockVersion`. -/
def kEncodedBlockVersion : UInt8 := 1

/-- `kEncodedBlockFlagCompressed`. -/
def kEncodedBlockFlagCompressed : UInt8 := 1

/-- `kEncodedBlockHeaderSize`. -/
def kEncodedBlockHeaderSize : Nat := 4 + 4 * 1 + 8

/-- `IsEncodedBlock`. -/
def isEncodedBlock (payload : Bytes) (payloadSize : Nat) : Option Bool :=
  if payloadSize < kEncodedBlockHeaderSize then some false
  else (readUInt32 payload).map fun magic => magic = kEncodedBlockMagic

/-- `WriteEncodedBlockHeader`. -/
def writeEncodedBlockHeader (payload : Bytes) (compressed : Bool) (type : CompressionType)
    (entriesSize : Nat) : Option Bytes :=
  pokes payload 0 [le 4 kEncodedBlockMagic, [kEncodedBlockVersion],
    [if compressed then kEncodedBlockFlagCompressed else 0], [type.code], [0], word entriesSize]

/-- `CompressedBlockBuilder`. -/
structure CompressedBlockBuilder where
  config : CompressionConfig
  rawData : Bytes := []
  keys : List Bytes := []
  count : Nat := 0

/-- `CompressedBlockBuilder::Add`. -/
def CompressedBlockBuilder.add (b : CompressedBlockBuilder) (key value : Bytes) :
    CompressedBlockBuilder :=
  { b with
    rawData := b.rawData ++ (word key.length ++ (word value.length ++ (key ++ value)))
    keys := b.keys ++ [key]
    count := b.count + 1 }

/-- What `Build` leaves: its result, `used_compression_` and `uncompressed_block_size_`. -/
structure BuiltBlock where
  data : Bytes
  usedCompression : Bool
  uncompressedBlockSize : Nat

/-- `CompressedBlockBuilder::Build`. -/
def CompressedBlockBuilder.build (f : CompressionFactory) (rand : Nat → UInt64)
    (b : CompressedBlockBuilder) : Option BuiltBlock := do
  let bloomFilter :=
    if b.count = 0 then BloomFilter.init rand 1
    else b.keys.foldl BloomFilter.insert (BloomFilter.init rand b.count)
  let bloomSize := bloomFilter.binarySize
  let entriesSize := 8 + b.rawData.length
  let payloadSize := kEncodedBlockHeaderSize + bloomSize + entriesSize
  let entriesOffset := kEncodedBlockHeaderSize + bloomSize
  let result := List.replicate payloadSize 0
  let result ← writeEncodedBlockHeader result false b.config.type entriesSize
  let (result, _) ← bloomFilter.save result kEncodedBlockHeaderSize
  let result ← poke result entriesOffset (word b.count)
  let result ← poke result (entriesOffset + 8) b.rawData
  let plain : BuiltBlock := ⟨result, false, 8 + payloadSize⟩
  if b.config.shouldCompress payloadSize then
    match f.create b.config.type.code with
    | some compressor =>
      let compressed := compressor.compress ((result.drop entriesOffset).take entriesSize)
      if compressed ≠ [] ∧ compressed.length < entriesSize then
        let result := List.replicate (entriesOffset + compressed.length) 0
        let result ← writeEncodedBlockHeader result true b.config.type entriesSize
        let (result, _) ← bloomFilter.save result kEncodedBlockHeaderSize
        let result ← poke result entriesOffset compressed
        some ⟨result, true, 8 + payloadSize⟩
      else some plain
    | none => some plain
  else some plain

/-! ### The constructors -/

/-- `ftruncate`. -/
def resize (old : Bytes) (size : Nat) : Bytes :=
  old.take size ++ List.replicate (size - old.length) 0

/-- The index block with its one entry. -/
def writeIndexBlock (data : Bytes) (indexBlockSize : Nat) (key : Bytes) : Option Bytes :=
  pokes data 0 [word indexBlockSize, word 1, word indexBlockSize, word key.length, key]

/-- The constructors without a configuration.  `size` is what the container says. -/
def writePlain (rand : Nat → UInt64) (size : Nat) (entries : List Entry) (old : Bytes) :
    Option Bytes := do
  let first ← entries.head?
  let bloomFilter := (entries.map Prod.fst).foldl BloomFilter.insert (BloomFilter.init rand size)
  let indexBlockSize := 2 * 8 * (size + 1) + first.1.length
  let dataBlockSize := 8 + payload entries + size * 2 * 8 + bloomFilter.binarySize + 8
  let data := resize old (indexBlockSize + dataBlockSize)
  let data ← writeIndexBlock data indexBlockSize first.1
  let data ← poke data indexBlockSize (word dataBlockSize)
  let (data, saved) ← bloomFilter.save data (indexBlockSize + 8)
  pokes data (indexBlockSize + 8 + saved)
    (word size :: entries.flatMap fun e => [word e.1.length, word e.2.length, e.1, e.2])

/-- The constructors with a configuration. -/
def writeEncoded (f : CompressionFactory) (rand : Nat → UInt64) (config : CompressionConfig)
    (size : Nat) (entries : List Entry) (old : Bytes) : Option Bytes := do
  let builder := entries.foldl (fun b e => b.add e.1 e.2) (CompressedBlockBuilder.mk config [] [] 0)
  let built ← builder.build f rand
  let first ← entries.head?
  let indexBlockSize := 2 * 8 * (size + 1) + first.1.length
  let data := resize old (indexBlockSize + 8 + built.data.length)
  let data ← writeIndexBlock data indexBlockSize first.1
  let data ← poke data indexBlockSize (word (8 + built.data.length))
  poke data (indexBlockSize + 8) built.data

/-- A call of one of the four constructors of `SST`. -/
inductive Construction where
  | entries (entries : List Entry)
  | memTable (memtable : MemTable)
  | entriesWith (config : CompressionConfig) (entries : List Entry)
  | memTableWith (config : CompressionConfig) (memtable : MemTable)

namespace Construction

/-- The entries that the constructor gets. -/
def list : Construction → List Entry
  | .entries l => l
  | .memTable m => m.entries
  | .entriesWith _ l => l
  | .memTableWith _ m => m.entries

/-- The configuration that the constructor gets. -/
def config? : Construction → Option CompressionConfig
  | .entries _ => none
  | .memTable _ => none
  | .entriesWith config _ => some config
  | .memTableWith config _ => some config

/-- The file that the constructor writes over an old one. -/
def write (f : CompressionFactory) (rand : Nat → UInt64) (old : Bytes) : Construction → Option Bytes
  | .entries l => writePlain rand l.length l old
  | .memTable m => writePlain rand m.size m.entries old
  | .entriesWith config l => writeEncoded f rand config l.length l old
  | .memTableWith config m => writeEncoded f rand config m.size m.entries old

end Construction

/-! ### Reading

A view is kept as its place in the memory that it points into. -/

/-- `std::string_view`. -/
structure View where
  start : Nat
  size : Nat
deriving DecidableEq

/-- The bytes that a view shows. -/
def View.read (memory : Bytes) (v : View) : Bytes := (memory.drop v.start).take v.size

/-- `EntryIndex`. -/
structure EntryIndex where
  key : View
  value : View
  offset : Nat
deriving DecidableEq

/-- The pair that an entry shows. -/
def EntryIndex.read (memory : Bytes) (e : EntryIndex) : Entry :=
  (e.key.read memory, e.value.read memory)

/-- The loop of `ParseEntries`.  The sums are in 64 bits; when a record does not fit, the
list is cleared. -/
def parseLoop (entriesData : Bytes) (entriesSize : Nat) :
    Nat → Nat → List EntryIndex → Option (List EntryIndex)
  | 0, _, dataIndex => some dataIndex
  | n + 1, index, dataIndex =>
    if entriesSize < (index + 2 * 8) % 2 ^ 64 then some []
    else do
      let keySize ← readSize (entriesData.drop index)
      let valueSize ← readSize (entriesData.drop (index + 8))
      let recordSize := (2 * 8 + keySize + valueSize) % 2 ^ 64
      if entriesSize < (index + recordSize) % 2 ^ 64 then some []
      else
        parseLoop entriesData entriesSize n ((index + recordSize) % 2 ^ 64)
          (dataIndex ++
            [⟨⟨index + 2 * 8, keySize⟩, ⟨index + 2 * 8 + keySize, valueSize⟩, index⟩])

/-- `ParseEntries`. -/
def parseEntries (entriesData : Bytes) (entriesSize : Nat) : Option (List EntryIndex) :=
  if entriesSize < 8 then some []
  else do
    let size ← readSize entriesData
    parseLoop entriesData entriesSize size 8 []

/-- `DataBlockIndex`.  `memory` is what the entries point into. -/
structure DataBlockIndex where
  offset : Nat
  memory : Bytes
  dataIndex : List EntryIndex
  bloomFilter : BloomFilter
  compressed : Bool
  compressionType : UInt8

/-- The entries of a block. -/
def DataBlockIndex.entries (d : DataBlockIndex) : List Entry := d.dataIndex.map (·.read d.memory)

/-- `LoadEncodedBlock`, for a block at `offset`. -/
def loadEncodedBlock (f : CompressionFactory) (offset : Nat) (payload : Bytes) (payloadSize : Nat) :
    Option DataBlockIndex := do
  let version ← payload[4]?
  if version ≠ kEncodedBlockVersion then
    some ⟨offset, [], [], ⟨0, 0, [], []⟩, false, CompressionType.none.code⟩
  else
    let flags ← payload[4 + 1]?
    let compressed := flags &&& kEncodedBlockFlagCompressed ≠ 0
    let compressionType ← payload[4 + 2 * 1]?
    let entriesSize ← readSize (payload.drop (4 + 4 * 1))
    let (bloomFilter, saved) ← BloomFilter.load (payload.drop kEncodedBlockHeaderSize)
    let index := kEncodedBlockHeaderSize + saved
    let loaded (memory : Bytes) (dataIndex : List EntryIndex) : DataBlockIndex :=
      ⟨offset, memory, dataIndex, bloomFilter, compressed, compressionType⟩
    if payloadSize < index then some (loaded [] [])
    else
      let encodedEntries := payload.drop index
      let encodedEntriesSize := payloadSize - index
      if ¬ compressed then
        let dataIndex ← parseEntries encodedEntries encodedEntriesSize
        some (loaded encodedEntries dataIndex)
      else
        match f.create compressionType with
        | none => some (loaded [] [])
        | some compressor =>
          if encodedEntries.length < encodedEntriesSize then none
          else
            let entryStorage :=
              compressor.decompress (encodedEntries.take encodedEntriesSize) entriesSize
            if entryStorage.length ≠ entriesSize then some (loaded [] [])
            else
              let dataIndex ← parseEntries entryStorage entryStorage.length
              some (loaded entryStorage dataIndex)

namespace DataBlockIndex

/-- The size of the payload of a block. -/
def payloadSize (binarySize : Nat) : Nat := if 8 < binarySize then binarySize - 8 else 0

/-- The test of `Load`, for the block that starts here. -/
def isEncoded (block : Bytes) : Option Bool := do
  let binarySize ← readSize block
  isEncodedBlock (block.drop 8) (payloadSize binarySize)

/-- `DataBlockIndex::Load`.  The offset arrives as an `int32_t`; `-1` leaves the offset of the
object, which is `0`. -/
def load (f : CompressionFactory) (s : Bytes) (offset : Int) : Option DataBlockIndex := do
  let offset := if offset ≠ -1 then toSizeT offset else 0
  let block := s.drop offset
  let binarySize ← readSize block
  if ← isEncoded block then
    loadEncodedBlock f offset (block.drop 8) (payloadSize binarySize)
  else
    let (bloomFilter, saved) ← BloomFilter.load (block.drop 8)
    let index := 8 + saved
    let entriesData := block.drop index
    let dataIndex ← parseEntries entriesData ((binarySize + 2 ^ 64 - index) % 2 ^ 64)
    some ⟨offset, entriesData, dataIndex, bloomFilter, false, CompressionType.none.code⟩

/-- `DataBlockIndex::Get`. -/
def get (d : DataBlockIndex) (key : Bytes) : Option Bytes :=
  if d.bloomFilter.check key then SST.dataBlockGet d.entries key else none

end DataBlockIndex

/-- `DataBlockIndexIndex`. -/
structure DataBlockIndexIndex where
  offset : Nat
  key : Bytes
  dataBlockIndex : DataBlockIndex

/-- `DataBlockIndexIndex::Load`: the entry and the number of bytes it takes. -/
def DataBlockIndexIndex.load (f : CompressionFactory) (s data : Bytes) :
    Option (DataBlockIndexIndex × Nat) := do
  let offset ← readSize s
  let keySize ← readSize (s.drop 8)
  if (s.drop (2 * 8)).length < keySize then none
  else
    let key := (s.drop (2 * 8)).take keySize
    let dataBlockIndex ← DataBlockIndex.load f data (toInt32 offset)
    some (⟨offset, key, dataBlockIndex⟩, 2 * 8 + key.length)

/-- `IndexBlockIndex`. -/
structure IndexBlockIndex where
  binarySize : Nat
  size : Nat
  dataBlockIndexs : List DataBlockIndexIndex

namespace IndexBlockIndex

/-- The loop of `Load`. -/
def loadLoop (f : CompressionFactory) (s : Bytes) : Nat → Nat → Option (List DataBlockIndexIndex)
  | 0, _ => some []
  | n + 1, index => do
    let (block, size) ← DataBlockIndexIndex.load f (s.drop index) s
    let blocks ← loadLoop f s n (index + size)
    some (block :: blocks)

/-- `IndexBlockIndex::Load`. -/
def load (f : CompressionFactory) (s : Bytes) : Option IndexBlockIndex := do
  let binarySize ← readSize s
  let size ← readSize (s.drop 8)
  let blocks ← loadLoop f s size (2 * 8)
  some ⟨binarySize, size, blocks⟩

/-- `IndexBlockIndex::Get`. -/
def get (b : IndexBlockIndex) (key : Bytes) : Option Bytes :=
  let r := bisect (fun mid => !((b.dataBlockIndexs[mid]?).any fun block => block.key > key))
    b.dataBlockIndexs.length
  if r ≠ 0 then (b.dataBlockIndexs[r - 1]?).bind fun block => block.dataBlockIndex.get key
  else none

end IndexBlockIndex

/-! ### Iterating -/

/-- `SST::Iterator`: a block and an entry in it. -/
structure TableIterator where
  block : Nat
  entry : Nat
deriving DecidableEq

namespace TableIterator

/-- The entries of a block. -/
def entriesOf (b : IndexBlockIndex) (block : Nat) : List Entry :=
  ((b.dataBlockIndexs[block]?).map fun d => d.dataBlockIndex.entries).getD []

/-- `SST::begin`. -/
def start (b : IndexBlockIndex) : TableIterator :=
  if b.dataBlockIndexs = [] ∨ entriesOf b 0 = [] then ⟨b.dataBlockIndexs.length, 0⟩ else ⟨0, 0⟩

/-- `operator !`. -/
def atEnd (b : IndexBlockIndex) (it : TableIterator) : Bool := it.block = b.dataBlockIndexs.length

/-- `operator ++`. -/
def next (b : IndexBlockIndex) (it : TableIterator) : TableIterator :=
  if it.atEnd b then it
  else if it.entry + 1 = (entriesOf b it.block).length then
    if it.block + 1 = b.dataBlockIndexs.length then ⟨it.block + 1, it.entry + 1⟩
    else ⟨it.block + 1, 0⟩
  else ⟨it.block, it.entry + 1⟩

/-- What an iteration yields from here to its end, in at most `fuel` turns. -/
def collect (b : IndexBlockIndex) : Nat → TableIterator → Option (List Entry)
  | 0, _ => none
  | fuel + 1, it =>
    if it.atEnd b then some []
    else do
      let e ← (entriesOf b it.block)[it.entry]?
      let es ← collect b fuel (it.next b)
      some (e :: es)

end TableIterator

end Mokv.LSM
