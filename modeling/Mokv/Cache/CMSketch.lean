import Mathlib.Data.List.GetD
import Mokv.Lib.Tally

/-!
# The count-min sketch

`CMSketch4Bits` (`mokv/cache/cm_sketch.hpp`): rows of 4-bit counters, two in a byte, and a
seed for each row.  An item is counted in one counter of every row.

* `counters_follow`: every counter counts the items of its index, up to 15, and is halved by
  `Reset`, whatever its neighbour does.
* `reads_iff`: `Estimate` reads the counters of the item, except that it takes the lower
  counter of a byte together with the upper one.
* `never_underestimates_iff`: no item is underestimated, in every sketch that can be built:
  `capacity_` is shifted as an `int`.
-/

namespace Mokv.Cache

open Lib

/-- `data_[i]` and `seed_[i]`. -/
structure SketchRow where
  seed : UInt64
  data : List UInt8
deriving DecidableEq

/-- `CMSketch4Bits`.  Items are `uint64_t`. -/
structure CMSketch where
  capacity : Nat
  rows : List SketchRow
deriving DecidableEq

/-- `offset`: 0 or 4. -/
def offset (index : UInt64) : UInt8 := ((index &&& 1) <<< 2).toUInt8

namespace SketchRow

/-- `(item ^ seed_[i]) & capacity_mask_`. -/
def index (mask : UInt64) (row : SketchRow) (item : UInt64) : UInt64 := (item ^^^ row.seed) &&& mask

/-- `data_[i][index >> 1]`. -/
def byte (row : SketchRow) (index : UInt64) : UInt8 := row.data.getD (index >>> 1).toNat 0

/-- `Increment` in one row. -/
def increment (mask : UInt64) (row : SketchRow) (item : UInt64) : SketchRow :=
  let index := row.index mask item
  let offset := offset index
  if (row.byte index >>> offset) &&& 0x0f < 15 then
    { row with data := row.data.modify (index >>> 1).toNat (· + (1 <<< offset)) }
  else row

/-- What `Estimate` reads in one row. -/
def read (mask : UInt64) (row : SketchRow) (item : UInt64) : Nat :=
  let index := row.index mask item
  (row.byte index >>> offset index).toNat

/-- `Reset` in one row. -/
def reset (row : SketchRow) : SketchRow :=
  { row with data := row.data.map fun byte : UInt8 => (byte >>> 1) &&& 0x77 }

end SketchRow

namespace CMSketch

/-- The fields of a new sketch. -/
def ofBits (capacityBit : Nat) (seeds : List UInt64) : CMSketch where
  capacity := 1 <<< capacityBit
  rows := seeds.map fun seed => ⟨seed, List.replicate ((1 <<< capacityBit) >>> 1) 0⟩

/-- The constructor.  `1 << capacity_bit` is an `int` of 32 bits: 31 makes it negative, which as
a `size_t` cannot be allocated, and from 32 on the shift is undefined. -/
def init (capacityBit : Nat) (seeds : List UInt64) : Option CMSketch :=
  if capacityBit < 31 then some (ofBits capacityBit seeds) else none

/-- `capacity_mask_`. -/
def mask (s : CMSketch) : UInt64 := UInt64.ofNat (s.capacity - 1)

/-- `Increment`. -/
def increment (s : CMSketch) (item : UInt64) : CMSketch :=
  { s with rows := s.rows.map fun row => row.increment s.mask item }

/-- `Estimate`. -/
def estimate (s : CMSketch) (item : UInt64) : Nat :=
  s.rows.foldl (fun res row => min res (row.read s.mask item)) 15

/-- `Reset`. -/
def reset (s : CMSketch) : CMSketch := { s with rows := s.rows.map SketchRow.reset }

/-- `Increment` and `Reset`. -/
def apply (s : CMSketch) : TallyOp UInt64 → CMSketch
  | .increment item => s.increment item
  | .reset => s.reset

/-- The sketch after some operations. -/
def exec (s : CMSketch) (ops : List (TallyOp UInt64)) : CMSketch := ops.foldl apply s

end CMSketch

/-! ### Two counters in a byte -/

/-- The counter number `i` of two in a byte. -/
def nibble (b : UInt8) (i : Nat) : Nat := if i % 2 = 1 then b.toNat / 16 else b.toNat % 16

theorem nibble_lt (b : UInt8) (i : Nat) : nibble b i < 16 := by
  have hb := b.toNat_lt
  rw [nibble]
  split <;> omega

theorem offset_eq (index : UInt64) : offset index = if index.toNat % 2 = 1 then 4 else 0 := by
  have hbit : (index &&& 1).toNat = index.toNat % 2 := by
    rw [UInt64.toNat_and]
    exact Nat.and_two_pow_sub_one_eq_mod _ 1
  rcases Nat.mod_two_eq_zero_or_one index.toNat with h | h
  · have hzero : index &&& 1 = 0 := UInt64.toNat_inj.mp (hbit.trans h)
    rw [offset, hzero, h]
    rfl
  · have hone : index &&& 1 = 1 := UInt64.toNat_inj.mp (hbit.trans h)
    rw [offset, hone, h]
    rfl

theorem toNat_shiftRight_offset (b : UInt8) (index : UInt64) :
    (b >>> offset index).toNat = nibble b index.toNat +
      if index.toNat % 2 = 1 then 0 else 16 * nibble b (index.toNat + 1) := by
  rw [offset_eq, UInt8.toNat_shiftRight, nibble]
  by_cases h : index.toNat % 2 = 1
  · rw [if_pos h, if_pos h, if_pos h, Nat.shiftRight_eq_div_pow]
    rfl
  · have hnext : (index.toNat + 1) % 2 = 1 := by omega
    rw [if_neg h, if_neg h, if_neg h, nibble, if_pos hnext]
    exact (Nat.mod_add_div b.toNat 16).symm

theorem toNat_and_fifteen (b : UInt8) (index : UInt64) :
    ((b >>> offset index) &&& 0x0f).toNat = nibble b index.toNat := by
  have hlt := nibble_lt b index.toNat
  rw [UInt8.toNat_and, toNat_shiftRight_offset]
  refine (Nat.and_two_pow_sub_one_eq_mod _ 4).trans ?_
  split <;> omega

/-- **An increment below 15** changes one counter of the byte and no other. -/
theorem nibble_add (b : UInt8) (index : UInt64) (h : nibble b index.toNat < 15) (i : Nat) :
    nibble (b + (1 <<< offset index)) i =
      if i % 2 = index.toNat % 2 then nibble b i + 1 else nibble b i := by
  have hb := b.toNat_lt
  have hone : ∀ o : UInt8, o = 0 ∨ o = 4 → ((1 : UInt8) <<< o).toNat = 2 ^ o.toNat := by
    rintro o (rfl | rfl) <;> rfl
  rw [nibble] at h
  rw [nibble, nibble, UInt8.toNat_add]
  rw [offset_eq]
  by_cases hodd : index.toNat % 2 = 1
  · rw [if_pos hodd] at h ⊢
    rw [hone 4 (.inr rfl), hodd]
    have hpow : 2 ^ (4 : UInt8).toNat = 16 := rfl
    rw [hpow]
    split <;> omega
  · rw [if_neg hodd] at h ⊢
    rw [hone 0 (.inl rfl), Nat.mod_two_ne_one.mp hodd]
    have hpow : 2 ^ (0 : UInt8).toNat = 1 := rfl
    rw [hpow]
    split <;> split <;> omega

theorem halves_of_lt :
    ∀ n < 256, (n >>> 1 &&& 0x77) % 16 = n % 16 / 2 ∧ (n >>> 1 &&& 0x77) / 16 = n / 16 / 2 := by
  decide +kernel

/-- **`Reset` halves both counters.** -/
theorem nibble_reset (b : UInt8) (i : Nat) :
    nibble ((b >>> 1) &&& 0x77) i = nibble b i / 2 := by
  have hval : ((b >>> 1) &&& 0x77).toNat = b.toNat >>> 1 &&& 0x77 := by
    rw [UInt8.toNat_and, UInt8.toNat_shiftRight]
    rfl
  obtain ⟨hlow, hhigh⟩ := halves_of_lt b.toNat b.toNat_lt
  rw [nibble, nibble, hval]
  split
  · exact hhigh
  · exact hlow

/-! ### A row -/

namespace SketchRow

/-- The counter number `i` of a row. -/
def counter (row : SketchRow) (i : Nat) : Nat := nibble (row.data.getD (i / 2) 0) i

/-- The number of the counter of an item. -/
def slot (mask : UInt64) (row : SketchRow) (item : UInt64) : Nat := (row.index mask item).toNat

theorem byte_eq (row : SketchRow) (index : UInt64) :
    row.byte index = row.data.getD (index.toNat / 2) 0 := by
  rw [byte, UInt64.toNat_shiftRight, Nat.shiftRight_eq_div_pow]
  rfl

theorem counter_slot (mask : UInt64) (row : SketchRow) (item : UInt64) :
    row.counter (row.slot mask item) =
      nibble (row.byte (row.index mask item)) (row.slot mask item) := by
  rw [counter, byte_eq]
  rfl

/-- **A read** is the counter of the item, with the one above it if there is one. -/
theorem read_eq (mask : UInt64) (row : SketchRow) (item : UInt64) :
    row.read mask item = row.counter (row.slot mask item) +
      if row.slot mask item % 2 = 1 then 0 else 16 * row.counter (row.slot mask item + 1) := by
  rw [read, toNat_shiftRight_offset, counter_slot]
  by_cases h : row.slot mask item % 2 = 1
  · have hidx : (row.index mask item).toNat % 2 = 1 := h
    rw [if_pos h, if_pos hidx]
    rfl
  · have hidx : ¬(row.index mask item).toNat % 2 = 1 := h
    have hsame : (row.slot mask item + 1) / 2 = row.slot mask item / 2 := by omega
    rw [if_neg h, if_neg hidx, counter, hsame, byte_eq]
    rfl

theorem getD_modify {α : Type*} {l : List α} {k : Nat} (hk : k < l.length) (f : α → α) (j : Nat)
    (d : α) : (l.modify k f).getD j d = if k = j then f (l.getD j d) else l.getD j d := by
  rw [List.getD_eq_getElem?_getD, List.getD_eq_getElem?_getD, List.getElem?_modify]
  by_cases hkj : k = j
  · subst hkj
    rw [List.getElem?_eq_getElem hk, if_pos rfl]
    simp
  · simp [hkj]

theorem slot_increment (mask m : UInt64) (row : SketchRow) (item other : UInt64) :
    (row.increment mask item).slot m other = row.slot m other := by
  rw [increment]
  split <;> rfl

theorem length_increment (mask : UInt64) (row : SketchRow) (item : UInt64) :
    (row.increment mask item).data.length = row.data.length := by
  rw [increment]
  split
  · exact List.length_modify ..
  · rfl

theorem slot_reset (m : UInt64) (row : SketchRow) (other : UInt64) :
    row.reset.slot m other = row.slot m other := rfl

theorem length_reset (row : SketchRow) : row.reset.data.length = row.data.length :=
  List.length_map _

/-- **`Increment` counts in the counter of its item**, and changes no other one. -/
theorem counter_increment {mask : UInt64} {row : SketchRow} {item : UInt64}
    (hlen : row.slot mask item / 2 < row.data.length) (i : Nat) :
    (row.increment mask item).counter i =
      count 15 (fun y => decide (row.slot mask y = i)) (row.counter i) (.increment item) := by
  have hslot : (row.index mask item).toNat = row.slot mask item := rfl
  have hbyte := row.byte_eq (row.index mask item)
  have hindex : (row.index mask item >>> 1).toNat = row.slot mask item / 2 := by
    rw [UInt64.toNat_shiftRight, Nat.shiftRight_eq_div_pow]
    rfl
  have hcond : (row.byte (row.index mask item) >>> offset (row.index mask item)) &&& 0x0f < 15 ↔
      row.counter (row.slot mask item) < 15 := by
    rw [UInt8.lt_iff_toNat_lt, toNat_and_fifteen, counter_slot]
    rfl
  rw [increment, count]
  simp only [hcond, hindex, decide_eq_true_eq]
  by_cases hfull : row.counter (row.slot mask item) < 15
  · rw [if_pos hfull, counter]
    rw [getD_modify hlen]
    by_cases hhere : row.slot mask item / 2 = i / 2
    · have hget : row.data.getD (i / 2) 0 = row.byte (row.index mask item) := by
        rw [hbyte, hslot, hhere]
      have hlow : nibble (row.byte (row.index mask item)) (row.index mask item).toNat < 15 := by
        rw [hslot, ← counter_slot]
        exact hfull
      rw [if_pos hhere, hget, counter, hget, nibble_add _ _ hlow, hslot]
      by_cases hsame : row.slot mask item = i
      · rw [hslot, hsame] at hlow
        rw [hsame, if_pos rfl, if_pos rfl]
        omega
      · have hodd : ¬i % 2 = row.slot mask item % 2 := by omega
        rw [if_neg hsame, if_neg hodd]
    · have hother : ¬row.slot mask item = i := fun heq => hhere (by rw [heq])
      rw [if_neg hhere, if_neg hother, counter]
  · rw [if_neg hfull]
    by_cases hsame : row.slot mask item = i
    · have hlt : row.counter i < 16 := nibble_lt _ _
      rw [hsame] at hfull
      rw [if_pos hsame]
      omega
    · rw [if_neg hsame]

theorem counter_reset (row : SketchRow) (i : Nat) : row.reset.counter i = row.counter i / 2 := by
  rw [counter, counter, ← nibble_reset]
  refine congrArg (fun b => nibble b i) ?_
  exact List.getD_map row.data (0 : UInt8) fun byte : UInt8 => (byte >>> 1) &&& 0x77

end SketchRow

/-! ### The sketch -/

namespace CMSketch

/-- The least counter of an item.  No counter is above 15. -/
def least (s : CMSketch) (item : UInt64) : Nat :=
  s.rows.foldl (fun res row => min res (row.counter (row.slot s.mask item))) 15

/-- Every counter counts the items of its number, up to 15, and is halved by `Reset`. -/
def Follows (s : CMSketch) (ops : List (TallyOp UInt64)) : Prop :=
  ∀ row ∈ s.rows, ∀ i < s.capacity,
    row.counter i = tally 15 (fun item => decide (row.slot s.mask item = i)) ops

/-- The least counter of the item is 15, or in some row the counter of the item is the least one
and is read alone: it is the upper one of its byte, or the upper one is 0. -/
def ReadAlone (s : CMSketch) (item : UInt64) : Prop :=
  s.least item = 15 ∨ ∃ row ∈ s.rows, row.counter (row.slot s.mask item) = s.least item ∧
    (row.slot s.mask item % 2 = 1 ∨ row.counter (row.slot s.mask item + 1) = 0)

instance (s : CMSketch) (item : UInt64) : Decidable (s.ReadAlone item) :=
  inferInstanceAs (Decidable (_ ∨ _))

theorem exec_concat (s : CMSketch) (ops : List (TallyOp UInt64)) (op : TallyOp UInt64) :
    s.exec (ops ++ [op]) = (s.exec ops).apply op := by
  rw [exec, List.foldl_append]
  rfl

theorem apply_capacity (s : CMSketch) (op : TallyOp UInt64) :
    (s.apply op).capacity = s.capacity := by
  cases op <;> rfl

/-- The rows have room for the counters. -/
def Sized (s : CMSketch) : Prop :=
  2 ≤ s.capacity ∧ s.capacity % 2 = 0 ∧ ∀ row ∈ s.rows, row.data.length = s.capacity / 2

theorem slot_lt {s : CMSketch} (h : s.Sized) (row : SketchRow) (item : UInt64) :
    row.slot s.mask item < s.capacity := by
  have hmask : s.mask.toNat ≤ s.capacity - 1 := by
    rw [mask, UInt64.toNat_ofNat']
    exact Nat.mod_le _ _
  have hslot : row.slot s.mask item ≤ s.mask.toNat := by
    rw [SketchRow.slot, SketchRow.index, UInt64.toNat_and]
    exact Nat.and_le_right
  have hcap := h.1
  omega

theorem init_eq_some_iff {capacityBit : Nat} {seeds : List UInt64} {s : CMSketch} :
    init capacityBit seeds = some s ↔ capacityBit ≤ 30 ∧ ofBits capacityBit seeds = s := by
  rw [init, Option.ite_none_right_eq_some, Option.some_inj, Nat.lt_succ_iff]

theorem ofBits_sized {capacityBit : Nat} (hbit : 1 ≤ capacityBit) (seeds : List UInt64) :
    (ofBits capacityBit seeds).Sized := by
  obtain ⟨b, rfl⟩ := Nat.exists_eq_add_of_le' hbit
  have hcap : (ofBits (b + 1) seeds).capacity = 2 * 2 ^ b := by
    rw [ofBits, Nat.one_shiftLeft, Nat.pow_succ']
  have hpos : 0 < 2 ^ b := Nat.two_pow_pos b
  rw [Sized, hcap]
  refine ⟨by omega, by omega, ?_⟩
  intro row hrow
  obtain ⟨seed, -, rfl⟩ := List.mem_map.mp hrow
  rw [List.length_replicate, Nat.shiftRight_eq_div_pow, Nat.one_shiftLeft, Nat.pow_succ']

theorem Sized.apply {s : CMSketch} (h : s.Sized) (op : TallyOp UInt64) : (s.apply op).Sized := by
  obtain ⟨hcap, heven, hlen⟩ := h
  rw [Sized, apply_capacity]
  refine ⟨hcap, heven, ?_⟩
  intro row' hrow'
  cases op with
  | increment item =>
    obtain ⟨row, hrow, rfl⟩ := List.mem_map.mp hrow'
    rw [row.length_increment]
    exact hlen row hrow
  | reset =>
    obtain ⟨row, hrow, rfl⟩ := List.mem_map.mp hrow'
    rw [row.length_reset]
    exact hlen row hrow

/-- **One operation** is followed by every counter. -/
theorem Follows.apply {s : CMSketch} {ops : List (TallyOp UInt64)} (h : s.Follows ops)
    (hs : s.Sized) (op : TallyOp UInt64) : (s.apply op).Follows (ops ++ [op]) := by
  have hmask : (s.apply op).mask = s.mask := by rw [mask, apply_capacity, mask]
  intro row' hrow' i hi
  rw [apply_capacity] at hi
  rw [tally_concat, hmask]
  cases op with
  | increment item =>
    obtain ⟨row, hrow, rfl⟩ := List.mem_map.mp hrow'
    have hslot := slot_lt hs row item
    have hroom : row.slot s.mask item / 2 < row.data.length := by
      have heven := hs.2.1
      rw [hs.2.2 row hrow]
      omega
    simp only [row.slot_increment]
    rw [SketchRow.counter_increment hroom, h row hrow i hi]
  | reset =>
    obtain ⟨row, hrow, rfl⟩ := List.mem_map.mp hrow'
    simp only [row.slot_reset]
    rw [row.counter_reset, h row hrow i hi]
    rfl

theorem counters_follow {capacityBit : Nat} (hbit : 1 ≤ capacityBit) (seeds : List UInt64)
    (ops : List (TallyOp UInt64)) :
    ((ofBits capacityBit seeds).exec ops).Sized ∧
      ((ofBits capacityBit seeds).exec ops).Follows ops := by
  induction ops using List.reverseRecOn with
  | nil =>
    refine ⟨ofBits_sized hbit seeds, ?_⟩
    intro row hrow i _
    obtain ⟨seed, -, rfl⟩ := List.mem_map.mp hrow
    have hzero : (List.replicate ((1 <<< capacityBit) >>> 1) (0 : UInt8)).getD (i / 2) 0 = 0 := by
      rw [List.getD_eq_getElem?_getD, List.getElem?_replicate]
      split <;> rfl
    rw [SketchRow.counter, hzero, nibble]
    split <;> rfl
  | append_singleton ops op ih =>
    rw [exec_concat]
    exact ⟨ih.1.apply op, ih.2.apply ih.1 op⟩

/-- What is read in a row is the counter exactly if it is read alone. -/
theorem read_eq_iff (mask : UInt64) (row : SketchRow) (item : UInt64) {n : Nat}
    (hn : n ≤ row.counter (row.slot mask item)) :
    row.read mask item = n ↔ row.counter (row.slot mask item) = n ∧
      (row.slot mask item % 2 = 1 ∨ row.counter (row.slot mask item + 1) = 0) := by
  rw [row.read_eq]
  split <;> omega

theorem counter_le_read (mask : UInt64) (row : SketchRow) (item : UInt64) :
    row.counter (row.slot mask item) ≤ row.read mask item := by
  rw [row.read_eq]
  exact Nat.le_add_right _ _

/-- The estimate is the least counter of the item exactly if such a counter is read alone. -/
theorem estimate_eq_least_iff (s : CMSketch) (item : UInt64) :
    s.estimate item = s.least item ↔ s.ReadAlone item := by
  rw [estimate, least, foldl_min_eq_iff fun row _ => counter_le_read s.mask row item, ReadAlone]
  have hleast := ((le_foldl_min_iff (f := fun row => row.counter (row.slot s.mask item)) (a := 15)
    _ s.rows).mp (Nat.le_refl _)).2
  refine or_congr Iff.rfl (exists_congr fun row => and_congr_right fun hrow => ?_)
  exact read_eq_iff s.mask row item (hleast row hrow)

/-- **What `Estimate` reads.**  After any increments and resets, every counter of a sketch is the
one that counts on its own.  There is a sketch, and it estimates the item at the least counter of
the item, exactly if `capacity_bit` is at most 30 and such a counter is read alone. -/
theorem reads_iff {capacityBit : Nat} (hbit : 1 ≤ capacityBit) (seeds : List UInt64)
    (ops : List (TallyOp UInt64)) (item : UInt64) :
    (∀ s, init capacityBit seeds = some s → (s.exec ops).Follows ops) ∧
      ((∃ s, init capacityBit seeds = some s ∧
          (s.exec ops).estimate item = (s.exec ops).least item) ↔
        capacityBit ≤ 30 ∧
          ∀ s, init capacityBit seeds = some s → (s.exec ops).ReadAlone item) := by
  refine ⟨?_, ?_⟩
  · intro s hs
    obtain ⟨-, rfl⟩ := init_eq_some_iff.mp hs
    exact (counters_follow hbit seeds ops).2
  · constructor
    · rintro ⟨s, hs, hest⟩
      refine ⟨(init_eq_some_iff.mp hs).1, ?_⟩
      intro s' hs'
      obtain rfl := Option.some.inj (hs.symm.trans hs')
      exact (estimate_eq_least_iff _ item).mp hest
    · rintro ⟨hle, halone⟩
      have hs : init capacityBit seeds = some (ofBits capacityBit seeds) :=
        init_eq_some_iff.mpr ⟨hle, rfl⟩
      exact ⟨_, hs, (estimate_eq_least_iff _ item).mpr (halone _ hs)⟩

theorem reads_iff_other :
    (∀ s, init 4 [0, 7] = some s →
        (s.exec [.increment 3, .increment 3, .reset]).Follows
          [.increment 3, .increment 3, .reset]) ∧
      ((∃ s, init 4 [0, 7] = some s ∧
          (s.exec [.increment 3, .increment 3, .reset]).estimate 3 =
            (s.exec [.increment 3, .increment 3, .reset]).least 3) ↔
        4 ≤ 30 ∧ ∀ s, init 4 [0, 7] = some s →
          (s.exec [.increment 3, .increment 3, .reset]).ReadAlone 3) :=
  reads_iff (by decide) _ _ _

/-- Item 1 shares its byte with item 0, which was never counted and is estimated at 15. -/
theorem estimate_reads_neighbour :
    (init 1 [0]).map (fun s => (s.exec [.increment 1]).estimate 0) = some 15 ∧
      (init 1 [0]).map (fun s => (s.exec [.increment 1]).least 0) = some 0 := by decide

/-- No sketch underestimates an item: the estimate is at least a private counter of the item. -/
theorem tally_le_estimate {capacityBit : Nat} (hbit : 1 ≤ capacityBit) (seeds : List UInt64)
    (ops : List (TallyOp UInt64)) (item : UInt64) :
    tally 15 (fun other => decide (other = item)) ops ≤
      ((ofBits capacityBit seeds).exec ops).estimate item := by
  obtain ⟨hsized, hfollows⟩ := counters_follow hbit seeds ops
  set s := (ofBits capacityBit seeds).exec ops
  refine (le_foldl_min_iff _ _).mpr ⟨tally_le _ _, ?_⟩
  intro row hrow
  refine le_trans ?_ (counter_le_read s.mask row item)
  rw [hfollows row hrow _ (slot_lt hsized row item)]
  refine tally_mono ?_ ops
  intro other hother
  rw [of_decide_eq_true hother]
  exact decide_eq_true rfl

/-- The constructor makes a sketch that estimates the item, after the operations, at no less than
a private counter of the item. -/
def Covers (capacityBit : Nat) (seeds : List UInt64) (ops : List (TallyOp UInt64))
    (item : UInt64) : Prop :=
  ∃ s, init capacityBit seeds = some s ∧
    tally 15 (fun other => decide (other = item)) ops ≤ (s.exec ops).estimate item

/-- **No item is underestimated**, exactly if the `int` of the capacity has room for the bit. -/
theorem never_underestimates_iff {capacityBit : Nat} (hbit : 1 ≤ capacityBit)
    (seeds : List UInt64) (ops : List (TallyOp UInt64)) (item : UInt64) :
    Covers capacityBit seeds ops item ↔ capacityBit ≤ 30 := by
  constructor
  · rintro ⟨s, hs, -⟩
    exact (init_eq_some_iff.mp hs).1
  · intro hle
    exact ⟨_, init_eq_some_iff.mpr ⟨hle, rfl⟩, tally_le_estimate hbit seeds ops item⟩

theorem never_underestimates_shared :
    Covers 2 [1, 9] [.increment 5, .increment 4, .reset, .increment 5] 5 ↔ 2 ≤ 30 :=
  never_underestimates_iff (by decide) _ _ _

/-- With `capacity_bit` 31 there is no sketch to count in. -/
theorem no_sketch_of_bit_31 : ¬Covers 31 [1, 9] [.increment 5] 5 := by
  rintro ⟨s, hs, -⟩
  cases hs

end CMSketch

end Mokv.Cache
