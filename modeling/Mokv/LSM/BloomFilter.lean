import Mokv.Lib.Binary64
import Mokv.Lib.Poke
import Mokv.LSM.Words

/-!
# The bloom filter

`mokv/utils/bloom_filter.hpp`: a bit array and a list of hash seeds.  A key sets one bit for
each seed; a key one of whose bits is missing was never inserted.

* `check_of_mem`: an inserted key passes the check.
* `save_append` and `load_image`: a filter that is written and read back is the same filter.
* `hashNum_le`: the number of seeds stays small, whatever the number of keys.
-/

namespace Mokv.LSM

open Lib Lib.Binary64

/-- `BloomFilter`.  `size_` is the number of words of `data`. -/
structure BloomFilter where
  length : Nat
  hashNum : Nat
  seed : List UInt64
  data : List UInt64
deriving DecidableEq

namespace BloomFilter

/-! ### The bits -/

/-- `1ULL << (key & 63)`. -/
def mask (key : Nat) : UInt64 := 1 <<< UInt64.ofNat (key &&& 63)

/-- `data_[key / 64] |= 1ULL << (key & 63)`. -/
def setBit (data : List UInt64) (key : Nat) : List UInt64 :=
  data.modify (key / 64) (· ||| mask key)

/-- `data_[key / 64] & (1ULL << (key & 63))`. -/
def hasBit (data : List UInt64) (key : Nat) : Bool := data.getD (key / 64) 0 &&& mask key ≠ 0

/-- `static_cast<size_t>` of a `char`, which is signed. -/
def charToSizeT (c : UInt8) : UInt64 := c.toInt8.toInt64.toUInt64

/-- `CalcHash`. -/
def calcHash (s : Bytes) (seed : UInt64) : UInt64 :=
  s.foldl (fun res c => res * seed + charToSizeT c) 0

/-- The bit of a key under a seed. -/
def bitOf (b : BloomFilter) (s : Bytes) (seed : UInt64) : Nat := (calcHash s seed).toNat % b.length

/-- `Insert`. -/
def insert (b : BloomFilter) (s : Bytes) : BloomFilter :=
  { b with data := b.seed.foldl (fun data seed => setBit data (b.bitOf s seed)) b.data }

/-- `Check`. -/
def check (b : BloomFilter) (s : Bytes) : Bool :=
  b.seed.all fun seed => hasBit b.data (b.bitOf s seed)

/-! ### The parameters

The filters are made with `p = 0.01`.  The formulas are in double precision. -/

/-- `-std::log(0.01)`. -/
def negLogP : ℚ := 5184960683398421 / 2 ^ 50

/-- `std::log(2)`. -/
def log2 : ℚ := 6243314768165359 / 2 ^ 53

/-- `CalcLength`. -/
def calcLength (n : Nat) : Nat :=
  let bits := toDouble (toDouble (toDouble (negLogP * toDouble n) / log2) / log2)
  ⌊toDouble (bits * toDouble (235 / 100))⌋₊ + 1

/-- The number of seeds: `std::max(1, int(0.69 * length_ / n))`. -/
def calcHashNum (length n : Nat) : Nat :=
  max 1 ⌊toDouble (toDouble (toDouble (69 / 100) * toDouble length) / toDouble n)⌋₊

/-- `Init`.  `rand` is what `GlobalRand` returns from now on. -/
def init (rand : Nat → UInt64) (n : Nat) : BloomFilter where
  length := calcLength n
  hashNum := calcHashNum (calcLength n) n
  seed := (List.range (calcHashNum (calcLength n) n)).map rand
  data := List.replicate (calcLength n / 64 + 1) 0

/-! ### In a file -/

/-- Where the words of the bit array start.  The source pads to a multiple of eight, by a
full word when it is at one already. -/
def dataOffset (seeds : Nat) : Nat :=
  let index := 2 * 8 + seeds * 8
  index + (8 - index % 8)

/-- `binary_size`. -/
def binarySize (b : BloomFilter) : Nat := dataOffset b.seed.length + b.data.length * 8

/-- `Save` at position `i`.  The padding keeps its bytes. -/
def save (b : BloomFilter) (s : Bytes) (i : Nat) : Option (Bytes × Nat) := do
  let s ← pokes s i (word b.hashNum :: word b.length :: b.seed.map fun seed => word seed.toNat)
  let index := dataOffset b.seed.length
  let s ← poke s (i + index) (words b.data)
  some (s, index + b.data.length * 8)

/-- `Load`: the filter and the number of bytes it takes. -/
def load (s : Bytes) : Option (BloomFilter × Nat) := do
  let hashNum ← readSize s
  let length ← readSize (s.drop 8)
  let seed ← readWords hashNum (s.drop (2 * 8))
  let size := length / 64 + 1
  let index := dataOffset hashNum
  let data ← readWords size (s.drop index)
  some (⟨length, hashNum, seed, data⟩, index + size * 8)

/-! ### An inserted key passes -/

/-- The lists have the lengths that the numbers say. -/
structure Shape (b : BloomFilter) : Prop where
  length_pos : 0 < b.length
  seed : b.seed.length = b.hashNum
  data : b.data.length = b.length / 64 + 1

theorem shape_init (rand : Nat → UInt64) (n : Nat) : (init rand n).Shape :=
  ⟨Nat.succ_pos _, by simp [init], by simp [init]⟩

@[simp] theorem length_setBit (data : List UInt64) (key : Nat) :
    (setBit data key).length = data.length := List.length_modify _ _ _

theorem mask_ne_zero (key : Nat) : mask key ≠ 0 := by
  have hlt : key &&& 63 < 64 := Nat.lt_of_le_of_lt Nat.and_le_right (by decide)
  unfold mask
  generalize key &&& 63 = k at hlt
  revert hlt k
  decide

theorem and_or_ne_zero {w x m : UInt64} (h : w &&& m ≠ 0) : (w ||| x) &&& m ≠ 0 := by
  intro h0
  refine h ?_
  have hor : (w &&& m) ||| (x &&& m) = 0 := by
    rw [← h0]
    apply UInt64.toBitVec_inj.mp
    simp only [UInt64.toBitVec_or, UInt64.toBitVec_and]
    ext i hi
    simp [Bool.and_or_distrib_right]
  exact (UInt64.or_eq_zero_iff.mp hor).1

theorem hasBit_setBit {data : List UInt64} {key : Nat} (h : key / 64 < data.length) :
    hasBit (setBit data key) key := by
  have hget : (setBit data key).getD (key / 64) 0 = data.getD (key / 64) 0 ||| mask key := by
    rw [setBit, List.getD_eq_getElem?_getD, List.getElem?_modify_eq, List.getElem?_eq_getElem h,
      List.getD_eq_getElem?_getD, List.getElem?_eq_getElem h]
    rfl
  rw [hasBit, hget, decide_eq_true_iff, UInt64.or_comm]
  refine and_or_ne_zero ?_
  rw [UInt64.and_self]
  exact mask_ne_zero key

theorem hasBit_setBit_of_hasBit {data : List UInt64} {j k : Nat} (h : hasBit data k) :
    hasBit (setBit data j) k := by
  rw [hasBit, decide_eq_true_iff] at h ⊢
  rw [List.getD_eq_getElem?_getD] at h ⊢
  rw [setBit, List.getElem?_modify]
  cases hd : data[k / 64]? with
  | none =>
    rw [hd] at h
    simp at h
  | some w =>
    rw [hd] at h
    by_cases hj : j / 64 = k / 64
    · simpa [hj] using and_or_ne_zero h
    · simpa [hj] using h

section

variable {b : BloomFilter}

theorem hasBit_foldl_of_hasBit (f : UInt64 → Nat) (seeds : List UInt64) {data : List UInt64}
    {k : Nat} (h : hasBit data k) :
    hasBit (seeds.foldl (fun data seed => setBit data (f seed)) data) k := by
  induction seeds generalizing data with
  | nil => exact h
  | cons seed seeds ih => exact ih (hasBit_setBit_of_hasBit h)

theorem length_foldl_setBit (f : UInt64 → Nat) (seeds : List UInt64) (data : List UInt64) :
    (seeds.foldl (fun data seed => setBit data (f seed)) data).length = data.length := by
  induction seeds generalizing data with
  | nil => rfl
  | cons seed seeds ih => rw [List.foldl_cons, ih, length_setBit]

theorem hasBit_foldl_of_mem {f : UInt64 → Nat} {seeds : List UInt64} {data : List UInt64}
    (hf : ∀ seed ∈ seeds, f seed / 64 < data.length) {seed : UInt64} (hs : seed ∈ seeds) :
    hasBit (seeds.foldl (fun data seed => setBit data (f seed)) data) (f seed) := by
  induction seeds generalizing data with
  | nil => cases hs
  | cons a seeds ih =>
    rcases List.mem_cons.mp hs with rfl | hs
    · exact hasBit_foldl_of_hasBit f seeds (hasBit_setBit (hf _ List.mem_cons_self))
    · refine ih ?_ hs
      intro seed hseed
      rw [length_setBit]
      exact hf seed (List.mem_cons_of_mem _ hseed)

theorem Shape.insert (h : b.Shape) (s : Bytes) : (b.insert s).Shape :=
  ⟨h.length_pos, h.seed, (length_foldl_setBit _ _ _).trans h.data⟩

theorem Shape.check_insert (h : b.Shape) (s : Bytes) : (b.insert s).check s := by
  rw [check, List.all_eq_true]
  intro seed hs
  refine hasBit_foldl_of_mem ?_ hs
  intro seed _
  have hlt : b.bitOf s seed < b.length := Nat.mod_lt _ h.length_pos
  rw [h.data]
  omega

theorem check_insert_of_check {s t : Bytes} (h : b.check t) : (b.insert s).check t := by
  rw [check, List.all_eq_true] at h ⊢
  intro seed hs
  exact hasBit_foldl_of_hasBit _ _ (h seed hs)

theorem Shape.foldl_insert (h : b.Shape) (keys : List Bytes) :
    (keys.foldl BloomFilter.insert b).Shape := by
  induction keys generalizing b with
  | nil => exact h
  | cons key keys ih => exact ih (h.insert key)

theorem check_foldl_of_check {t : Bytes} (keys : List Bytes) (h : b.check t) :
    (keys.foldl insert b).check t := by
  induction keys generalizing b with
  | nil => exact h
  | cons key keys ih => exact ih (check_insert_of_check h)

/-- **The filter never denies a key that was inserted.** -/
theorem Shape.check_of_mem (h : b.Shape) {keys : List Bytes} {key : Bytes} (hk : key ∈ keys) :
    (keys.foldl BloomFilter.insert b).check key := by
  induction keys generalizing b with
  | nil => cases hk
  | cons a keys ih =>
    rcases List.mem_cons.mp hk with rfl | hk
    · exact check_foldl_of_check keys (h.check_insert key)
    · exact ih (h.insert a) hk

end

/-! ### Written and read back -/

theorem dataOffset_eq (seeds : Nat) : dataOffset seeds = 24 + 8 * seeds := by
  unfold dataOffset
  simp only
  omega

/-- The bytes of a filter in a file, with the padding. -/
def image (b : BloomFilter) (pad : Bytes) : Bytes :=
  word b.hashNum ++ (word b.length ++ (words b.seed ++ (pad ++ words b.data)))

theorem length_image (b : BloomFilter) {pad : Bytes} (hp : pad.length = 8) :
    (b.image pad).length = b.binarySize := by
  simp only [image, List.length_append, length_word, length_words, hp, binarySize, dataOffset_eq]
  omega

theorem flatten_map_word (ws : List UInt64) :
    (ws.map fun w => word w.toNat).flatten = words ws := by
  rw [words, List.flatMap_def]

/-- **`Save` writes `binary_size()` bytes.** -/
theorem save_append (b : BloomFilter) {w r : Bytes} {i : Nat} (hi : i = w.length)
    (hr : b.binarySize ≤ r.length) :
    ∃ pad, pad.length = 8 ∧
      b.save (w ++ r) i = some (w ++ b.image pad ++ r.drop b.binarySize, b.binarySize) := by
  have hhead : (word b.hashNum :: word b.length :: b.seed.map fun seed => word seed.toNat).flatten =
      word b.hashNum ++ (word b.length ++ words b.seed) := by
    rw [List.flatten_cons, List.flatten_cons, flatten_map_word]
  have hlen : (word b.hashNum ++ (word b.length ++ words b.seed)).length =
      16 + 8 * b.seed.length := by
    simp only [List.length_append, length_word, length_words]
    omega
  rw [binarySize, dataOffset_eq] at hr
  obtain ⟨pad, hpad, hskip⟩ :=
    exists_skip (w ++ (word b.hashNum ++ (word b.length ++ words b.seed)))
    (r.drop (16 + 8 * b.seed.length)) (n := 8) (by rw [List.length_drop]; omega)
  refine ⟨pad, hpad, ?_⟩
  unfold save
  rw [pokes_append hi (by rw [hhead, hlen]; omega), hhead, hlen, hskip]
  simp only [Option.bind_eq_bind, Option.bind_some]
  rw [poke_append, Option.bind_some, List.drop_drop, List.drop_drop, length_words, binarySize,
    dataOffset_eq]
  · have hend : 16 + 8 * b.seed.length + (8 + 8 * b.data.length) =
        24 + 8 * b.seed.length + b.data.length * 8 := by omega
    rw [hend]
    simp only [image, List.append_assoc]
  · rw [List.length_append, List.length_append, hlen, hpad, hi, dataOffset_eq]
    omega
  · rw [length_words, List.length_drop, List.length_drop]
    omega

theorem Shape.load_image {b : BloomFilter} (h : b.Shape) (hn : b.hashNum < 2 ^ 64)
    (hl : b.length < 2 ^ 64) {pad : Bytes} (hp : pad.length = 8) (rest : Bytes) :
    load (b.image pad ++ rest) = some (b, b.binarySize) := by
  have h1 : b.image pad ++ rest =
      word b.hashNum ++ (word b.length ++ (words b.seed ++ (pad ++ (words b.data ++ rest)))) := by
    simp only [image, List.append_assoc]
  have h2 : (b.image pad ++ rest).drop 8 =
      word b.length ++ (words b.seed ++ (pad ++ (words b.data ++ rest))) := by
    rw [h1, drop_word]
  have h3 : (b.image pad ++ rest).drop (2 * 8) =
      words b.seed ++ (pad ++ (words b.data ++ rest)) := by
    have hdrop : (b.image pad ++ rest).drop (2 * 8) = ((b.image pad ++ rest).drop 8).drop 8 := by
      rw [List.drop_drop]
    rw [hdrop, h2, drop_word]
  have h4 : (b.image pad ++ rest).drop (dataOffset b.hashNum) = words b.data ++ rest := by
    have hassoc : b.image pad ++ rest =
        (word b.hashNum ++ (word b.length ++ (words b.seed ++ pad))) ++ (words b.data ++ rest) := by
      simp only [image, List.append_assoc]
    rw [hassoc]
    refine List.drop_left' ?_
    simp only [List.length_append, length_word, length_words, hp, h.seed, dataOffset_eq]
    omega
  unfold load
  rw [h1, readSize_word hn, ← h1]
  simp only [Option.bind_eq_bind, Option.bind_some]
  rw [h2, readSize_word hl, Option.bind_some, h3, ← h.seed, readWords_words, Option.bind_some,
    h.seed,
    h4, ← h.data, readWords_words, Option.bind_some, binarySize, h.seed]

/-! ### The number of seeds -/

theorem toDouble_mul_le {x y a c : ℚ} (hx : 0 < x) (hy : 0 < y) (hxa : x ≤ a) (hyc : y ≤ c) :
    toDouble (x * y) ≤ 2 * (a * c) :=
  (toDouble_le (mul_pos hx hy)).trans
    (mul_le_mul_of_nonneg_left (mul_le_mul hxa hyc hy.le (hx.le.trans hxa)) zero_le_two)

theorem toDouble_div_le {x y a c : ℚ} (hx : 0 < x) (hc : 0 < c) (hxa : x ≤ a) (hcy : c ≤ y) :
    toDouble (x / y) ≤ 2 * (a / c) :=
  (toDouble_le (div_pos hx (hc.trans_le hcy))).trans
    (mul_le_mul_of_nonneg_left (div_le_div₀ (hx.le.trans hxa) hxa hc hcy) zero_le_two)

theorem calcLength_le {n : Nat} (hn : 0 < n) : (calcLength n : ℚ) ≤ 2000 * n := by
  have hn' : (1 : ℚ) ≤ n := by exact_mod_cast hn
  have hneg : (0 : ℚ) < negLogP := by norm_num [negLogP]
  have hlog : (0 : ℚ) < log2 := by norm_num [log2]
  have h1 : 0 < toDouble (n : ℚ) := toDouble_pos (by linarith)
  have h2 := toDouble_pos (mul_pos hneg h1)
  have h3 := toDouble_pos (div_pos h2 hlog)
  have h4 := toDouble_pos (div_pos h3 hlog)
  have h5 : 0 < toDouble (235 / 100) := toDouble_pos (by norm_num)
  have h6 := toDouble_pos (mul_pos h4 h5)
  have b1 : toDouble n ≤ 2 * n := toDouble_le (by linarith)
  have b2 := toDouble_mul_le hneg h1 le_rfl b1
  have b3 := toDouble_div_le h2 hlog b2 le_rfl
  have b4 := toDouble_div_le h3 hlog b3 le_rfl
  have b5 : toDouble (235 / 100) ≤ 2 * (235 / 100) := toDouble_le (by norm_num)
  have b6 := toDouble_mul_le h4 h5 b4 b5
  have hfloor := Nat.floor_le h6.le
  have hsum : 2 * (2 * (2 * (2 * (negLogP * (2 * n)) / log2) / log2) * (2 * (235 / 100))) ≤
      1500 * (n : ℚ) := by
    unfold negLogP log2
    linarith
  unfold calcLength
  simp only
  push_cast
  linarith

/-- **The number of seeds stays small.** -/
theorem calcHashNum_le {n : Nat} (hn : 0 < n) : calcHashNum (calcLength n) n ≤ 100000 := by
  have hn' : (1 : ℚ) ≤ n := by exact_mod_cast hn
  have hlen := calcLength_le hn
  have hpos : (0 : ℚ) < calcLength n := by exact_mod_cast Nat.succ_pos _
  have h1 : 0 < toDouble (69 / 100) := toDouble_pos (by norm_num)
  have h2 := toDouble_pos hpos
  have h3 := toDouble_pos (mul_pos h1 h2)
  have b1 : toDouble (69 / 100) ≤ 2 * (69 / 100) := toDouble_le (by norm_num)
  have b2 : toDouble (calcLength n) ≤ 4000 * n := (toDouble_le hpos).trans (by linarith)
  have b3 := toDouble_mul_le h1 h2 b1 b2
  have b4 : (n : ℚ) / 2 ≤ toDouble n := by
    have := le_toDouble (q := n) (by linarith)
    linarith
  have b5 := toDouble_div_le h3 (by linarith) b3 b4
  have hquot : 2 * (2 * (2 * (69 / 100) * (4000 * (n : ℚ))) / (n / 2)) ≤ 100000 := by
    rw [div_div_eq_mul_div, mul_div_assoc', div_le_iff₀ (by linarith)]
    linarith
  unfold calcHashNum
  exact max_le (by norm_num) (Nat.floor_le_of_le (b5.trans hquot))

end BloomFilter

end Mokv.LSM
