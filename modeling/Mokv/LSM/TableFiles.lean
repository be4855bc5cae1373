import Mokv.LSM.ManifestFile
import Mokv.LSM.SSTRoundTrip

/-!
# Tables in their files

An `SST` is a mapping of its file, and the keys and values that it gives out are views: they
point into the mapping, or into the memory that a compressed block was unpacked to.  A view is
read when its bytes are used, so what it shows changes with the file.

`SST(entries, id)` truncates and writes `id.sst` first and copies the entries afterwards
(`Writer.writeThrough`).  As long as no view points into that file it writes what the
constructor writes for the entries as values (`writeThrough_eq`).
-/

namespace Mokv

open LSM Lib

/-! ### Writing tables -/

/-- How tables are written: the compressors, `DBConfig::compression` if it is enabled, and the
random seeds of each table. -/
structure Writer where
  factory : CompressionFactory
  compression : Option CompressionConfig
  rand : Nat → Nat → UInt64

namespace Writer

/-- The constructor that the compaction calls. -/
def ofEntries (w : Writer) (l : List Entry) : Construction :=
  match w.compression with
  | none => .entries l
  | some config => .entriesWith config l

/-- The constructor that `ToSST` calls. -/
def ofMemTable (w : Writer) (m : MemTable) : Construction :=
  match w.compression with
  | none => .memTable m
  | some config => .memTableWith config m

theorem write_ofMemTable (w : Writer) (m : MemTable) (f : CompressionFactory)
    (rand : Nat → UInt64) (old : Bytes) :
    (w.ofMemTable m).write f rand old = (w.ofEntries m.entries).write f rand old := by
  rw [ofMemTable, ofEntries]
  cases w.compression <;> rw [Construction.write, Construction.write, m.size_eq]

/-- The file of the `n`th table, written over an old one. -/
def write (w : Writer) (n : Nat) (old : Bytes) (l : List Entry) : Option Bytes :=
  (w.ofEntries l).write w.factory (w.rand n) old

/-- `file_size_`. -/
def fileSize (w : Writer) : FileSize := fun l =>
  (((w.ofEntries l).write w.factory (fun _ => 0) []).map List.length).getD 0

/-- What the results need of the compressors. -/
def Lossless (w : Writer) : Prop :=
  ∀ config, w.compression = some config → w.factory.lz4.Lossless ∧ config.type ≠ .snappy

end Writer

theorem binarySize_filterOf (rand rand' : Nat → UInt64) (l : List Entry) :
    (filterOf rand l).binarySize = (filterOf rand' l).binarySize := by
  rw [BloomFilter.binarySize, BloomFilter.binarySize, (filterOf_shape rand l).seed,
    (filterOf_shape rand l).data, (filterOf_shape rand' l).seed, (filterOf_shape rand' l).data,
    filterOf_hashNum, filterOf_hashNum, filterOf_length, filterOf_length]
  rfl

theorem length_encodedFile {indexBlockSize : Nat} {key gap pad body : Bytes} (b : BloomFilter)
    (compressed : Bool) (type : CompressionType) (entriesSize : Nat)
    (hindex : (indexBlock indexBlockSize key gap).length = indexBlockSize) (hpad : pad.length = 8) :
    (indexBlock indexBlockSize key gap ++
        encodedBlock (encodedPayload compressed type entriesSize b pad body)).length =
      indexBlockSize + (8 + (kEncodedBlockHeaderSize + (b.binarySize + body.length))) := by
  simp only [encodedBlock, encodedPayload, List.length_append, length_word, length_encodedHeader,
    b.length_image hpad, hindex]

theorem Writer.length_write (w : Writer) {l : List Entry} (hl : l ≠ []) (f : CompressionFactory)
    (rand rand' : Nat → UInt64) {old : Bytes} (old' : Bytes) {file : Bytes}
    (h : (w.ofEntries l).write f rand old = some file) :
    ∃ file', (w.ofEntries l).write f rand' old' = some file' ∧ file'.length = file.length := by
  obtain ⟨first, hfirst⟩ : ∃ first, l.head? = some first := ⟨_, List.head?_eq_some_head hl⟩
  have hbloom := binarySize_filterOf rand rand' l
  obtain ⟨factory, compression, seeds⟩ := w
  cases compression with
  | none =>
    obtain ⟨gap, pad, hpad, hindex, hwrite⟩ := writePlain_eq rand hfirst old
    obtain ⟨gap', pad', hpad', hindex', hwrite'⟩ := writePlain_eq rand' hfirst old'
    obtain rfl := Option.some.inj (hwrite.symm.trans h)
    refine ⟨_, hwrite', ?_⟩
    rw [List.length_append, List.length_append, hindex, hindex', length_plainBlock _ hpad,
      length_plainBlock _ hpad', hbloom]
  | some config =>
    obtain ⟨gap, compressed, pad, body, hpad, hbody, hindex, hwrite⟩ :=
      exists_writeEncoded f rand config hfirst old
    obtain ⟨gap', compressed', pad', body', hpad', hbody', hindex', hwrite'⟩ :=
      exists_writeEncoded f rand' config hfirst old'
    obtain rfl := Option.some.inj (hwrite.symm.trans h)
    rw [hbloom, hbody'] at hbody
    obtain ⟨rfl, rfl⟩ := Prod.mk.inj hbody
    refine ⟨_, hwrite', ?_⟩
    rw [length_encodedFile _ _ _ _ hindex hpad, length_encodedFile _ _ _ _ hindex' hpad', hbloom]

theorem Writer.fileSize_eq (w : Writer) {n : Nat} {old file : Bytes} {l : List Entry} (hl : l ≠ [])
    (h : w.write n old l = some file) : file.length = w.fileSize l := by
  obtain ⟨file', hwrite, hlen⟩ := w.length_write hl w.factory (w.rand n) (fun _ => 0) [] h
  rw [fileSize, hwrite, Option.map_some, Option.getD_some, hlen]

/-- **Every table is written**, and its file reads as the entries if it is not too large. -/
theorem Writer.exists_laid (w : Writer) (hw : w.Lossless) (n : Nat) (old : Bytes) {l : List Entry}
    (hl : l ≠ []) (hsize : w.fileSize l < 2 ^ 31) :
    ∃ file, w.write n old l = some file ∧
      Laid w.factory (w.rand n) l w.compression.isSome file := by
  have hfit : ∀ file, w.write n old l = some file → file.length < 2 ^ 31 := by
    intro file h
    rw [w.fileSize_eq hl h]
    exact hsize
  obtain ⟨factory, compression, seeds⟩ := w
  cases compression with
  | none => exact laid_writePlain factory (seeds n) hl old hfit
  | some config =>
    obtain ⟨hf, htype⟩ := hw config rfl
    exact laid_writeEncoded hf (seeds n) htype hl old hfit

/-! ### The files -/

/-- The `.sst` files by id, in bytes. -/
abbrev Images := Int → Option Bytes

namespace Images

/-- `SST::Load`: the blocks of the mapped file. -/
def load (f : CompressionFactory) (images : Images) (id : Int) : Option IndexBlockIndex :=
  (images id).bind (IndexBlockIndex.load f)

/-- The files with one of them replaced. -/
def put (images : Images) (id : Int) (file : Bytes) : Images := fun i =>
  if i = id then some file else images i

variable (images : Images) {id i : Int} (file : Bytes)

@[simp] theorem put_self : images.put id file id = some file := if_pos rfl

@[simp] theorem put_ne (h : i ≠ id) : images.put id file i = images i := if_neg h

end Images

namespace LSM

/-- The first key of the index block. -/
def IndexBlockIndex.key (b : IndexBlockIndex) : Bytes :=
  (b.dataBlockIndexs.head?.map DataBlockIndexIndex.key).getD []

/-- `Level::Get`, in the files. -/
def levelGet (load : Int → Option IndexBlockIndex) (level : Nat) (ids : List Int) (key : Bytes) :
    Option Bytes :=
  if level = 0 then ids.reverse.findSome? fun id => (load id).bind (·.get key)
  else
    let r := bisect (fun mid => (ids[mid]?).any fun id => (load id).any fun b => !(b.key > key))
      ids.length
    if r > 0 then (ids[r - 1]?).bind fun id => (load id).bind (·.get key) else none

/-- `Manifest::Get`, in the files.  The levels are numbered by their position. -/
def ManifestIds.get (load : Int → Option IndexBlockIndex) (m : ManifestIds) (key : Bytes) :
    Option Bytes := m.levels.zipIdx.findSome? fun l => levelGet load l.2 l.1 key

/-- A file reads as the table does. -/
structure IndexBlockIndex.Shows (b : IndexBlockIndex) (t : Table) : Prop where
  key : b.key = (t.entries.head t.nonempty).1
  get : ∀ k, b.get k = t.entries.lookup k

theorem findSome?_congr {α β : Type*} {f g : α → Option β} {l : List α}
    (h : ∀ a ∈ l, f a = g a) : l.findSome? f = l.findSome? g := by
  induction l with
  | nil => rfl
  | cons a l ih =>
    rw [List.findSome?_cons, List.findSome?_cons, h a List.mem_cons_self,
      ih fun b hb => h b (List.mem_cons_of_mem _ hb)]

theorem levelGet_eq {load : Int → Option IndexBlockIndex} {l : Level}
    (h : ∀ s ∈ l.ssts, ∃ index, load s.id = some index ∧ index.Shows s.table) (k : Bytes) :
    levelGet load l.level (l.ssts.map SST.id) k = l.get k := by
  have hget : ∀ s ∈ l.ssts, (load s.id).bind (·.get k) = s.get k := by
    intro s hs
    obtain ⟨index, hload, hshows⟩ := h s hs
    rw [hload, SST.get_eq_lookup]
    exact hshows.get k
  have hkey : ∀ s ∈ l.ssts, ((load s.id).any fun b => !(b.key > k)) = !(s.key > k) := by
    intro s hs
    obtain ⟨index, hload, hshows⟩ := h s hs
    rw [hload, Option.any_some, hshows.key]
    rfl
  have hat : ∀ mid : Nat, (((l.ssts.map SST.id)[mid]?).any fun id =>
      (load id).any fun b => !(b.key > k)) = (l.ssts[mid]?).any fun s => !(s.key > k) := by
    intro mid
    rw [List.getElem?_map]
    cases hmid : l.ssts[mid]? with
    | none => rfl
    | some s => exact hkey s (List.mem_of_getElem? hmid)
  have hscan : (l.ssts.map SST.id).reverse.findSome? (fun id => (load id).bind (·.get k)) =
      l.ssts.reverse.findSome? (·.get k) := by
    rw [← List.map_reverse, List.findSome?_map]
    exact findSome?_congr fun s hs => hget s (List.mem_reverse.mp hs)
  rw [levelGet, Level.get, hscan, List.length_map]
  simp only [hat]
  split
  · rfl
  · split
    · rw [List.getElem?_map, Option.bind_map]
      exact Option.bind_congr fun s hs => hget s (List.mem_of_getElem? hs)
    · rfl

/-- **The ids and the files answer as the tables do.** -/
theorem Manifest.Shaped.toIds_get {load : Int → Option IndexBlockIndex} {m : Manifest}
    (hm : m.Shaped)
    (h : ∀ s ∈ m.ssts, ∃ index, load s.id = some index ∧ index.Shows s.table) (k : Bytes) :
    m.toIds.get load k = m.get k := by
  have hzip : (m.levels.map fun l => l.ssts.map SST.id).zipIdx =
      m.levels.map fun l => (l.ssts.map SST.id, l.level) := by
    refine List.ext_getElem? ?_
    intro i
    rw [List.getElem?_zipIdx, List.getElem?_map, List.getElem?_map, Option.map_map]
    cases hl : m.levels[i]? with
    | none => rfl
    | some l => simp [hm.level_eq i l hl]
  rw [ManifestIds.get, Manifest.toIds, hzip, List.findSome?_map, Manifest.get]
  refine findSome?_congr ?_
  intro l hl
  exact levelGet_eq (fun s hs => h s (List.mem_flatMap.mpr ⟨l, hl, hs⟩)) k

theorem Laid.shows {f : CompressionFactory} {rand : Nat → UInt64} {t : Table} {encoded : Bool}
    {file : Bytes} (h : Laid f rand t.entries encoded file) :
    ∃ index d size, IndexBlockIndex.load f file = some index ∧ index.Shows t ∧
      index.dataBlockIndexs = [⟨size, (t.entries.head t.nonempty).1, d⟩] ∧
      d.Holds file t.entries := by
  obtain ⟨first, d, hfirst, hholds, hbloom, size, hload⟩ := h.loaded
  have hhead : t.entries.head t.nonempty = first := by
    rw [List.head?_eq_some_head t.nonempty] at hfirst
    exact Option.some.inj hfirst
  rw [hhead]
  refine ⟨_, d, size, hload, ⟨by rw [hhead]; rfl, ?_⟩, rfl, hholds⟩
  intro k
  refine get_singleton t.sorted hfirst hholds.entries ?_ k
  intro e he
  rw [hbloom]
  exact filterOf_check rand he

end LSM

/-! ### Views -/

/-- The size of a page of memory. -/
def pageSize : Nat := 4096

/-- What a view into the mapping of a file shows.  The last page of the file goes on with
zeros, and there is nothing behind it. -/
def LSM.View.readMapped (file : Bytes) (v : View) : Option Bytes :=
  if v.size = 0 ∨ v.start + v.size ≤ (file.length + (pageSize - 1)) / pageSize * pageSize then
    some (v.read (resize file (v.start + v.size)))
  else none

/-- Where a `std::string_view` points to: into the mapping of a file, or into the
`entry_storage_` of a compressed block, which nobody writes. -/
inductive Place where
  | mapped (id : Int) (view : View)
  | stored (bytes : Bytes)

/-- What is there now. -/
def Place.read (images : Images) : Place → Option Bytes
  | .mapped id view => (images id).bind view.readMapped
  | .stored bytes => some bytes

/-- `EntryView`, with what its views showed when the entry was selected. -/
structure EntryView where
  key : Place
  value : Place
  entry : Entry

/-- The views show the entry, whatever is written to `id.sst`. -/
def EntryView.Safe (images : Images) (id : Int) (v : EntryView) : Prop :=
  ∀ file, v.key.read (images.put id file) = some v.entry.1 ∧
    v.value.read (images.put id file) = some v.entry.2

/-- The views of an entry, read. -/
def EntryView.of (images : Images) (key value : Place) : Option EntryView := do
  let k ← key.read images
  let v ← value.read images
  some ⟨key, value, (k, v)⟩

/-- Where a view of a block points to, with the block in a file of `size` bytes. -/
def LSM.DataBlockIndex.placeOf (d : DataBlockIndex) (id : Int) (size : Nat) (v : View) : Place :=
  if d.compressed then .stored (v.read d.memory)
  else .mapped id ⟨size - d.memory.length + v.start, v.size⟩

/-- The views of the entries of a block. -/
def LSM.DataBlockIndex.views (d : DataBlockIndex) (images : Images) (id : Int) (size : Nat) :
    Option (List EntryView) :=
  d.dataIndex.mapM fun e =>
    EntryView.of images (d.placeOf id size e.key) (d.placeOf id size e.value)

/-- What an iteration over the table yields. -/
def Images.views (f : CompressionFactory) (images : Images) (id : Int) :
    Option (List EntryView) := do
  let file ← images id
  let index ← IndexBlockIndex.load f file
  let views ← index.dataBlockIndexs.mapM fun b => b.dataBlockIndex.views images id file.length
  some views.flatten

/-! ### The constructors on views -/

/-- What a constructor copies: bytes of its own, or those that a view shows. -/
inductive Source where
  | bytes (bytes : Bytes)
  | view (place : Place)

/-- The bytes when it is copied. -/
def Source.read (images : Images) : Source → Option Bytes
  | .bytes b => some b
  | .view place => place.read images

/-- Copies into the mapping of `id.sst`, one behind the other, from place `i` on.  `data` is
what the file holds, and every view is read when its turn comes.  A `memcpy` onto its own
source is taken to read first. -/
def copies (images : Images) (id : Int) : Bytes → Nat → List Source → Option Bytes
  | data, _, [] => some data
  | data, i, s :: ss => do
    let b ← s.read (images.put id data)
    let data ← poke data i b
    copies images id data (i + b.length) ss

/-- The index block with its one entry. -/
def copyIndexBlock (images : Images) (id : Int) (data : Bytes) (indexBlockSize : Nat)
    (first : EntryView) : Option Bytes :=
  copies images id data 0 [.bytes (word indexBlockSize), .bytes (word 1),
    .bytes (word indexBlockSize), .bytes (word first.entry.1.length), .view first.key]

namespace Writer

/-- `SST(entries, id)`, over the file of that id.  Filter and sizes are computed before the
file is truncated, the entries are copied after that. -/
def plainThrough (rand : Nat → UInt64) (images : Images) (id : Int) (entries : List EntryView) :
    Option Bytes := do
  let list := entries.map EntryView.entry
  let first ← entries.head?
  let bloomFilter :=
    (list.map Prod.fst).foldl BloomFilter.insert (BloomFilter.init rand list.length)
  let indexBlockSize := 2 * 8 * (list.length + 1) + first.entry.1.length
  let dataBlockSize := 8 + payload list + list.length * 2 * 8 + bloomFilter.binarySize + 8
  let data := resize ((images id).getD []) (indexBlockSize + dataBlockSize)
  let data ← copyIndexBlock images id data indexBlockSize first
  let data ← poke data indexBlockSize (word dataBlockSize)
  let (data, saved) ← bloomFilter.save data (indexBlockSize + 8)
  copies images id data (indexBlockSize + 8 + saved)
    (.bytes (word list.length) :: entries.flatMap fun e =>
      [.bytes (word e.entry.1.length), .bytes (word e.entry.2.length), .view e.key, .view e.value])

/-- `SST(entries, id, config)`.  The builder has copied the entries when the file is
truncated; the key of the index block is copied after that. -/
def encodedThrough (f : CompressionFactory) (rand : Nat → UInt64) (config : CompressionConfig)
    (images : Images) (id : Int) (entries : List EntryView) : Option Bytes := do
  let list := entries.map EntryView.entry
  let builder := list.foldl (fun b e => b.add e.1 e.2) (CompressedBlockBuilder.mk config [] [] 0)
  let built ← builder.build f rand
  let first ← entries.head?
  let indexBlockSize := 2 * 8 * (list.length + 1) + first.entry.1.length
  let data := resize ((images id).getD []) (indexBlockSize + 8 + built.data.length)
  let data ← copyIndexBlock images id data indexBlockSize first
  let data ← poke data indexBlockSize (word (8 + built.data.length))
  poke data (indexBlockSize + 8) built.data

/-- The file that the compaction makes, as the `n`th one. -/
def writeThrough (w : Writer) (n : Nat) (images : Images) (id : Int) (entries : List EntryView) :
    Option Bytes :=
  match w.compression with
  | none => plainThrough (w.rand n) images id entries
  | some config => encodedThrough w.factory (w.rand n) config images id entries

end Writer

/-! ### Views of a written file -/

/-- A view that stays inside its memory. -/
def LSM.View.Fits (v : View) (memory : Bytes) : Prop :=
  v.size = 0 ∨ v.start + v.size ≤ memory.length

theorem LSM.View.Fits.readMapped_append {v : View} {memory : Bytes} (h : v.Fits memory)
    (pre : Bytes) :
    View.readMapped (pre ++ memory) ⟨pre.length + v.start, v.size⟩ = some (v.read memory) := by
  rw [View.Fits] at h
  have hlen : (pre ++ memory).length = pre.length + memory.length := List.length_append
  rw [View.readMapped, if_pos (by dsimp only; rw [hlen, pageSize]; omega)]
  simp only [View.read, resize, Option.some.injEq]
  rcases h with h | h
  · rw [h, List.take_zero, List.take_zero]
  · rw [hlen, show pre.length + v.start + v.size - (pre.length + memory.length) = 0 by omega,
      List.replicate_zero, List.append_nil, List.drop_take, ← List.drop_drop, List.drop_left,
      List.take_take, show min v.size (pre.length + v.start + v.size - (pre.length + v.start)) =
        v.size by omega]

theorem LSM.View.fits_of_length {v : View} {memory : Bytes}
    (h : (v.read memory).length = v.size) : v.Fits memory := by
  rw [View.read, List.length_take, List.length_drop] at h
  rw [View.Fits]
  omega

theorem LSM.positions_fit {memory : Bytes} {l : List Entry} {i : Nat}
    (h : (positions i l).map (·.read memory) = l) :
    ∀ e ∈ positions i l, e.key.Fits memory ∧ e.value.Fits memory := by
  induction l generalizing i with
  | nil => simp [positions]
  | cons a l ih =>
    rw [positions, List.map_cons] at h
    obtain ⟨hread, htail⟩ := List.cons.inj h
    intro e he
    rw [positions] at he
    rcases List.mem_cons.mp he with rfl | he
    · exact ⟨View.fits_of_length (congrArg (List.length ∘ Prod.fst) hread),
        View.fits_of_length (congrArg (List.length ∘ Prod.snd) hread)⟩
    · exact ih htail e he

theorem LSM.DataBlockIndex.Holds.read_placeOf {d : DataBlockIndex} {file : Bytes} {l : List Entry}
    (h : d.Holds file l) {images : Images} {id : Int} (hfile : images id = some file) {v : View}
    (hv : v.Fits d.memory) : (d.placeOf id file.length v).read images = some (v.read d.memory) := by
  rw [DataBlockIndex.placeOf]
  split
  · rfl
  · obtain ⟨pre, rfl⟩ := h.mapped (by simpa using ‹¬ d.compressed = true›)
    rw [Place.read, hfile, Option.bind_some, List.length_append, Nat.add_sub_cancel]
    exact hv.readMapped_append pre

section Put

variable {images : Images} {i id : Int} (h : i ≠ id) (file : Bytes)

include h

theorem LSM.DataBlockIndex.read_placeOf_put (d : DataBlockIndex) (size : Nat) (v : View) :
    (d.placeOf i size v).read (images.put id file) = (d.placeOf i size v).read images := by
  rw [DataBlockIndex.placeOf]
  split
  · rfl
  · rw [Place.read, Place.read, Images.put_ne _ _ h]

theorem Images.views_put (f : CompressionFactory) :
    (images.put id file).views f i = images.views f i := by
  have hblock : ∀ (d : DataBlockIndex) (size : Nat),
      d.views (images.put id file) i size = d.views images i size := by
    intro d size
    refine mapM_congr ?_
    intro e _
    rw [EntryView.of, EntryView.of, d.read_placeOf_put h, d.read_placeOf_put h]
  rw [Images.views, Images.views, Images.put_ne _ _ h]
  simp only [hblock]

theorem Images.safe_of_mem_views {f : CompressionFactory} {views : List EntryView}
    (hviews : images.views f i = some views) : ∀ v ∈ views, v.Safe images id := by
  rw [Images.views] at hviews
  obtain ⟨file, hfile, hviews⟩ := Option.bind_eq_some_iff.mp hviews
  obtain ⟨index, hload, hviews⟩ := Option.bind_eq_some_iff.mp hviews
  obtain ⟨vs, hvs, hviews⟩ := Option.bind_eq_some_iff.mp hviews
  obtain rfl := Option.some.inj hviews
  intro v hv data
  obtain ⟨block, hblock, hv⟩ := List.mem_flatten.mp hv
  obtain ⟨b, -, hb⟩ := exists_of_mem_mapM hvs hblock
  obtain ⟨e, -, he⟩ := exists_of_mem_mapM hb hv
  obtain ⟨k, hk, he⟩ := Option.bind_eq_some_iff.mp he
  obtain ⟨x, hx, he⟩ := Option.bind_eq_some_iff.mp he
  obtain rfl := Option.some.inj he
  exact ⟨(b.dataBlockIndex.read_placeOf_put h data _ _).trans hk,
    (b.dataBlockIndex.read_placeOf_put h data _ _).trans hx⟩

end Put

/-- The table is in its file. -/
structure Images.Shows (f : CompressionFactory) (images : Images) (s : SST) : Prop where
  index : ∃ index, images.load f s.id = some index ∧ index.Shows s.table
  views : ∃ views, images.views f s.id = some views ∧ views.map EntryView.entry = s.entries

/-- **A file that a constructor wrote shows its table.** -/
theorem Images.shows_of_laid {f : CompressionFactory} {rand : Nat → UInt64} {images : Images}
    {s : SST} {encoded : Bool} {file : Bytes} (hfile : images s.id = some file)
    (h : Laid f rand s.table.entries encoded file) : images.Shows f s := by
  obtain ⟨index, d, _, hload, hshows, hblocks, hholds⟩ := h.shows
  refine ⟨⟨index, by rw [Images.load, hfile]; exact hload, hshows⟩,
    d.dataIndex.map fun e => ⟨d.placeOf s.id file.length e.key, d.placeOf s.id file.length e.value,
      e.read d.memory⟩, ?_, ?_⟩
  · have hblock : d.views images s.id file.length = some (d.dataIndex.map fun e =>
        ⟨d.placeOf s.id file.length e.key, d.placeOf s.id file.length e.value,
          e.read d.memory⟩) := by
      refine mapM_eq_some ?_
      intro e he
      have hentries := hholds.entries
      rw [DataBlockIndex.entries, hholds.dataIndex] at hentries
      rw [hholds.dataIndex] at he
      obtain ⟨hkey, hvalue⟩ := positions_fit hentries e he
      rw [EntryView.of, hholds.read_placeOf hfile hkey, hholds.read_placeOf hfile hvalue]
      rfl
    rw [Images.views, hfile]
    simp only [Option.bind_eq_bind, Option.bind_some, hload, hblocks, List.mapM_cons, List.mapM_nil,
      hblock]
    exact congrArg some (List.append_nil _)
  · rw [List.map_map]
    exact hholds.entries

theorem Images.Shows.put {f : CompressionFactory} {images : Images} {s : SST}
    (h : images.Shows f s) {id : Int} (hid : s.id ≠ id) (file : Bytes) :
    (images.put id file).Shows f s := by
  obtain ⟨⟨index, hload, hshows⟩, views, hviews, hentries⟩ := h
  refine ⟨⟨index, ?_, hshows⟩, views, ?_, hentries⟩
  · rw [Images.load, Images.put_ne _ _ hid]
    exact hload
  · rw [Images.views_put hid]
    exact hviews

/-! ### Writing over other files -/

section Safe

variable {images : Images} {id : Int}

/-- The source is copied as these bytes, whatever is written to `id.sst`. -/
def Source.Copies (images : Images) (id : Int) (s : Source) (b : Bytes) : Prop :=
  ∀ file, s.read (images.put id file) = some b

theorem Source.Copies.bytes (b : Bytes) : (Source.bytes b).Copies images id b := fun _ => rfl

theorem copies_eq {ss : List Source} {bs : List Bytes}
    (h : List.Forall₂ (Source.Copies images id) ss bs)
    (data : Bytes) (i : Nat) : copies images id data i ss = pokes data i bs := by
  induction h generalizing data i with
  | nil => rfl
  | cons hs _ ih =>
    rw [copies, pokes, hs]
    simp only [Option.bind_eq_bind, Option.bind_some, ih]

theorem copyIndexBlock_eq {first : EntryView} (h : first.Safe images id) (data : Bytes)
    (indexBlockSize : Nat) :
    copyIndexBlock images id data indexBlockSize first =
      writeIndexBlock data indexBlockSize first.entry.1 := by
  have hkey : (Source.view first.key).Copies images id first.entry.1 := fun file => (h file).1
  exact copies_eq (.cons (.bytes _) (.cons (.bytes _) (.cons (.bytes _)
    (.cons (.bytes _) (.cons hkey .nil))))) data 0

variable {vs : List EntryView} (h : ∀ v ∈ vs, v.Safe images id)

include h

theorem copies_entries : List.Forall₂ (Source.Copies images id)
    (vs.flatMap fun e => [.bytes (word e.entry.1.length), .bytes (word e.entry.2.length),
      .view e.key, .view e.value])
    ((vs.map EntryView.entry).flatMap fun e => [word e.1.length, word e.2.length, e.1, e.2]) := by
  induction vs with
  | nil => exact .nil
  | cons v vs ih =>
    rw [List.map_cons, List.flatMap_cons, List.flatMap_cons]
    have hv := h v List.mem_cons_self
    have hkey : (Source.view v.key).Copies images id v.entry.1 := fun file => (hv file).1
    have hvalue : (Source.view v.value).Copies images id v.entry.2 := fun file => (hv file).2
    exact .cons (.bytes _) (.cons (.bytes _) (.cons hkey (.cons hvalue
      (ih fun u hu => h u (List.mem_cons_of_mem _ hu)))))

theorem Writer.plainThrough_eq (rand : Nat → UInt64) :
    plainThrough rand images id vs =
      writePlain rand vs.length (vs.map EntryView.entry) ((images id).getD []) := by
  unfold plainThrough writePlain
  cases vs with
  | nil => rfl
  | cons v vs =>
    have hcount : (Source.bytes (word (v :: vs).length)).Copies images id
        (word (v :: vs).length) := .bytes _
    have hall := List.Forall₂.cons hcount (copies_entries h)
    simp only [List.head?_cons, List.map_cons, Option.bind_eq_bind, Option.bind_some,
      copyIndexBlock_eq (h v List.mem_cons_self), List.length_map, List.length_cons]
    simp only [List.length_cons, List.map_cons] at hall
    simp only [fun data i => copies_eq hall data i]

theorem Writer.encodedThrough_eq (f : CompressionFactory) (rand : Nat → UInt64)
    (config : CompressionConfig) :
    encodedThrough f rand config images id vs =
      writeEncoded f rand config vs.length (vs.map EntryView.entry) ((images id).getD []) := by
  unfold encodedThrough writeEncoded
  cases vs with
  | nil => rfl
  | cons v vs =>
    simp only [List.head?_cons, List.map_cons, Option.bind_eq_bind, Option.bind_some,
      copyIndexBlock_eq (h v List.mem_cons_self), List.length_map, List.length_cons]

/-- **A constructor whose views do not point into its file** writes what it writes for the
entries. -/
theorem Writer.writeThrough_eq (w : Writer) (n : Nat) :
    w.writeThrough n images id vs =
      w.write n ((images id).getD []) (vs.map EntryView.entry) := by
  obtain ⟨f, compression, rand⟩ := w
  cases compression with
  | none =>
    refine (plainThrough_eq h (rand n)).trans ?_
    rw [← List.length_map EntryView.entry]
    rfl
  | some config =>
    refine (encodedThrough_eq h f (rand n) config).trans ?_
    rw [← List.length_map EntryView.entry]
    rfl

end Safe

end Mokv
