import Mokv.LSM.SSTFile

/-!
# The entries of a corrupted block

`ParseEntries` (`mokv/lsm/sst.hpp`) reads counts and lengths that nobody has checked, and adds
them in 64 bits.  A record whose lengths wrap passes the bounds check, and its views reach out
of the block.

`parse_inRange_iff`: the entries lie in the block **exactly when no sum of lengths wraps** in a
block all of whose records pass the checks.
-/

namespace Mokv.LSM

open Lib

/-- `data_index_.max_size()`: an `EntryIndex` is two views and an offset, 40 bytes. -/
def maxEntries : Nat := (2 ^ 63 - 1) / 40

/-- How `ParseEntries` ends without a list. -/
inductive ParseFault where
  /-- a read outside of the buffer -/
  | outOfBounds
  /-- `reserve` throws, and the list stays empty -/
  | lengthError
deriving DecidableEq

/-- `ParseEntries` with its `reserve`. -/
def tryParseEntries (entriesData : Bytes) (entriesSize : Nat) :
    Except ParseFault (List EntryIndex) :=
  if entriesSize < 8 then .ok []
  else
    match readSize entriesData with
    | none => .error .outOfBounds
    | some size =>
      if maxEntries < size then .error .lengthError
      else
        match parseLoop entriesData entriesSize size 8 [] with
        | none => .error .outOfBounds
        | some dataIndex => .ok dataIndex

/-- The end of a view. -/
def View.stop (v : View) : Nat := v.start + v.size

/-- The entry of the record at `index`. -/
def entryAt (index keySize valueSize : Nat) : EntryIndex :=
  ⟨⟨index + 2 * 8, keySize⟩, ⟨index + 2 * 8 + keySize, valueSize⟩, index⟩

/-- `n` records from `index` on, one behind the other, in the first `entriesSize` bytes. -/
inductive Layout (entriesData : Bytes) (entriesSize : Nat) : Nat → Nat → List EntryIndex → Prop
  | nil (index : Nat) : Layout entriesData entriesSize 0 index []
  | cons {n index keySize valueSize : Nat} {l : List EntryIndex}
      (hkey : readSize (entriesData.drop index) = some keySize)
      (hvalue : readSize (entriesData.drop (index + 8)) = some valueSize)
      (hfit : index + 2 * 8 + keySize + valueSize ≤ entriesSize)
      (htail : Layout entriesData entriesSize n (index + 2 * 8 + keySize + valueSize) l) :
      Layout entriesData entriesSize (n + 1) index (entryAt index keySize valueSize :: l)

/-- `n` records from `index` on that pass the checks of the loop, in 64 bits. -/
inductive Accepted (entriesData : Bytes) (entriesSize : Nat) : Nat → Nat → List EntryIndex → Prop
  | nil (index : Nat) : Accepted entriesData entriesSize 0 index []
  | cons {n index keySize valueSize : Nat} {l : List EntryIndex}
      (hkey : readSize (entriesData.drop index) = some keySize)
      (hvalue : readSize (entriesData.drop (index + 8)) = some valueSize)
      (hhead : (index + 2 * 8) % 2 ^ 64 ≤ entriesSize)
      (hrecord : (index + (2 * 8 + keySize + valueSize) % 2 ^ 64) % 2 ^ 64 ≤ entriesSize)
      (htail : Accepted entriesData entriesSize n
        ((index + (2 * 8 + keySize + valueSize) % 2 ^ 64) % 2 ^ 64) l) :
      Accepted entriesData entriesSize (n + 1) index (entryAt index keySize valueSize :: l)

/-- The views lie in the block, each behind the one before it, and they are all of the records or
none. -/
structure EntriesInRange (entriesData : Bytes) (entriesSize : Nat) (l : List EntryIndex) :
    Prop where
  within : ∀ e ∈ l, e.key.stop ≤ entriesSize ∧ e.value.stop ≤ entriesSize
  disjoint : ∀ e ∈ l, e.key.stop ≤ e.value.start
  increasing : l.Pairwise fun e e' => e.value.stop ≤ e'.key.start
  complete : l ≠ [] → ∃ n, readSize entriesData = some n ∧ Layout entriesData entriesSize n 8 l

/-- `ParseEntries` is safe: what it returns is in range, and it does not read outside of a buffer
of `entriesSize` bytes. -/
structure ParsesInRange (entriesData : Bytes) (entriesSize : Nat) : Prop where
  entries : ∀ l, tryParseEntries entriesData entriesSize = .ok l →
    EntriesInRange entriesData entriesSize l
  reads : tryParseEntries entriesData entriesSize = .error .outOfBounds →
    entriesData.length < entriesSize

/-- No sum wraps in a block all of whose records pass the checks. -/
def NoSumWraps (entriesData : Bytes) (entriesSize : Nat) : Prop :=
  8 ≤ entriesSize → ∀ n l, readSize entriesData = some n → n ≤ maxEntries →
    Accepted entriesData entriesSize n 8 l → ∀ e ∈ l, e.value.stop < 2 ^ 64

section

variable {entriesData : Bytes} {entriesSize n index : Nat} {l : List EntryIndex}

/-! ### Records that fit -/

theorem Layout.start_le (h : Layout entriesData entriesSize n index l) :
    ∀ e ∈ l, index + 2 * 8 ≤ e.key.start := by
  induction h with
  | nil => simp
  | cons hkey hvalue hfit htail ih =>
    intro e he
    rcases List.mem_cons.mp he with rfl | he
    · exact Nat.le_refl _
    · have := ih e he
      omega

theorem Layout.within (h : Layout entriesData entriesSize n index l) :
    ∀ e ∈ l, e.key.stop ≤ e.value.start ∧ e.value.start ≤ e.value.stop ∧
      e.value.stop ≤ entriesSize := by
  induction h with
  | nil => simp
  | cons hkey hvalue hfit htail ih =>
    intro e he
    rcases List.mem_cons.mp he with rfl | he
    · simp only [entryAt, View.stop]
      omega
    · exact ih e he

theorem Layout.increasing (h : Layout entriesData entriesSize n index l) :
    l.Pairwise fun e e' => e.value.stop ≤ e'.key.start := by
  induction h with
  | nil => exact List.Pairwise.nil
  | cons hkey hvalue hfit htail ih =>
    refine List.Pairwise.cons ?_ ih
    intro e he
    have := htail.start_le e he
    simp only [entryAt, View.stop]
    omega

/-- **Records that fit have their views in the block.** -/
theorem Layout.inRange (h : Layout entriesData entriesSize n 8 l)
    (hn : readSize entriesData = some n) : EntriesInRange entriesData entriesSize l where
  within e he := by
    obtain ⟨hkey, hvalue, hstop⟩ := h.within e he
    exact ⟨by omega, hstop⟩
  disjoint e he := (h.within e he).1
  increasing := h.increasing
  complete _ := ⟨n, hn, h⟩

/-- Records that pass the checks fit when no sum wraps. -/
theorem Accepted.layout (h : Accepted entriesData entriesSize n index l)
    (hlt : ∀ e ∈ l, e.value.stop < 2 ^ 64) : Layout entriesData entriesSize n index l := by
  induction h with
  | nil index => exact .nil index
  | @cons n index keySize valueSize l hkey hvalue hhead hrecord htail ih =>
    have hstop := hlt _ List.mem_cons_self
    simp only [entryAt, View.stop] at hstop
    have hnext : (index + (2 * 8 + keySize + valueSize) % 2 ^ 64) % 2 ^ 64 =
        index + 2 * 8 + keySize + valueSize := by omega
    rw [hnext] at hrecord ih
    exact .cons hkey hvalue hrecord (ih fun e he => hlt e (List.mem_cons_of_mem _ he))

/-! ### The loop -/

theorem exists_readSize (h : index + 8 ≤ entriesData.length) :
    ∃ k, readSize (entriesData.drop index) = some k := by
  refine ⟨ofLE ((entriesData.drop index).take 8), ?_⟩
  rw [readSize, readLE, if_pos (by rw [List.length_drop]; omega)]
  rfl

theorem Accepted.parseLoop_eq (h : Accepted entriesData entriesSize n index l)
    (dataIndex : List EntryIndex) :
    parseLoop entriesData entriesSize n index dataIndex = some (dataIndex ++ l) := by
  induction h generalizing dataIndex with
  | nil index => rw [parseLoop, List.append_nil]
  | cons hkey hvalue hhead hrecord htail ih =>
    rw [parseLoop, if_neg (not_lt.mpr hhead), hkey, hvalue]
    simp only [Option.bind_eq_bind, Option.bind_some]
    rw [if_neg (not_lt.mpr hrecord), ih, List.append_assoc]
    rfl

/-- **What the loop returns**: nothing, or records that pass its checks. -/
theorem accepted_of_parseLoop {dataIndex : List EntryIndex}
    (h : parseLoop entriesData entriesSize n index dataIndex = some l) :
    l = [] ∨ ∃ l', Accepted entriesData entriesSize n index l' ∧ l = dataIndex ++ l' := by
  induction n generalizing index dataIndex with
  | zero =>
    rw [parseLoop] at h
    exact Or.inr ⟨[], .nil index, by rw [List.append_nil, Option.some.inj h]⟩
  | succ n ih =>
    rw [parseLoop] at h
    split at h
    · exact Or.inl (Option.some.inj h).symm
    · rename_i hhead
      obtain ⟨keySize, hkey, h⟩ := Option.bind_eq_some_iff.mp h
      obtain ⟨valueSize, hvalue, h⟩ := Option.bind_eq_some_iff.mp h
      dsimp only at h
      split at h
      · exact Or.inl (Option.some.inj h).symm
      · rename_i hrecord
        rcases ih h with hnil | ⟨l', hl', rfl⟩
        · exact Or.inl hnil
        · refine Or.inr ⟨entryAt index keySize valueSize :: l', ?_, ?_⟩
          · exact .cons hkey hvalue (not_lt.mp hhead) (not_lt.mp hrecord) hl'
          · rw [List.append_assoc]
            rfl

/-- **The loop does not read outside** of a buffer that has `entriesSize` bytes. -/
theorem parseLoop_ne_none (hsize : entriesSize ≤ entriesData.length)
    (hlen : entriesData.length < 2 ^ 63) (hindex : index ≤ entriesSize)
    (dataIndex : List EntryIndex) :
    parseLoop entriesData entriesSize n index dataIndex ≠ none := by
  induction n generalizing index dataIndex with
  | zero => simp [parseLoop]
  | succ n ih =>
    rw [parseLoop]
    split
    · simp
    · rename_i hhead
      obtain ⟨keySize, hkey⟩ : ∃ k, readSize (entriesData.drop index) = some k :=
        exists_readSize (by omega)
      obtain ⟨valueSize, hvalue⟩ : ∃ k, readSize (entriesData.drop (index + 8)) = some k :=
        exists_readSize (by omega)
      rw [hkey, hvalue]
      simp only [Option.bind_eq_bind, Option.bind_some]
      split
      · simp
      · rename_i hrecord
        exact ih (not_lt.mp hrecord) _

/-! ### The whole function -/

theorem tryParseEntries_of_count (hsize : 8 ≤ entriesSize) (hn : readSize entriesData = some n)
    (hmax : n ≤ maxEntries) :
    tryParseEntries entriesData entriesSize =
      match parseLoop entriesData entriesSize n 8 [] with
      | none => .error .outOfBounds
      | some dataIndex => .ok dataIndex := by
  rw [tryParseEntries, if_neg (not_lt.mpr hsize), hn]
  simp only
  rw [if_neg (not_lt.mpr hmax)]

/-- The function is `parseEntries` as long as `reserve` does not throw. -/
theorem tryParseEntries_ok_iff (hmax : ∀ n, readSize entriesData = some n → n ≤ maxEntries) :
    tryParseEntries entriesData entriesSize = .ok l ↔
      parseEntries entriesData entriesSize = some l := by
  rw [parseEntries]
  split
  · rename_i hsize
    rw [tryParseEntries, if_pos hsize, Except.ok.injEq, Option.some.injEq]
  · rename_i hsize
    cases hn : readSize entriesData with
    | none =>
      rw [tryParseEntries, if_neg hsize, hn]
      simp
    | some n =>
      rw [tryParseEntries_of_count (not_lt.mp hsize) hn (hmax n hn)]
      simp only [Option.bind_eq_bind, Option.bind_some]
      cases parseLoop entriesData entriesSize n 8 [] with
      | none => simp
      | some dataIndex => rw [Except.ok.injEq, Option.some.injEq]

theorem accepted_of_ok (h : tryParseEntries entriesData entriesSize = .ok l) :
    l = [] ∨ 8 ≤ entriesSize ∧ ∃ n, readSize entriesData = some n ∧ n ≤ maxEntries ∧
      Accepted entriesData entriesSize n 8 l := by
  rw [tryParseEntries] at h
  split at h
  · exact Or.inl (Except.ok.inj h).symm
  · rename_i hsize
    split at h
    · cases h
    · rename_i n hn
      split at h
      · cases h
      · rename_i hmax
        split at h
        · cases h
        · rename_i dataIndex hloop
          obtain rfl := Except.ok.inj h
          rcases accepted_of_parseLoop hloop with hnil | ⟨l', hl', rfl⟩
          · exact Or.inl hnil
          · exact Or.inr ⟨not_lt.mp hsize, n, hn, not_lt.mp hmax, hl'⟩

theorem length_lt_of_outOfBounds (hlen : entriesData.length < 2 ^ 63)
    (h : tryParseEntries entriesData entriesSize = .error .outOfBounds) :
    entriesData.length < entriesSize := by
  by_contra hle
  have hle' : entriesSize ≤ entriesData.length := not_lt.mp hle
  by_cases hsize : entriesSize < 8
  · rw [tryParseEntries, if_pos hsize] at h
    cases h
  · obtain ⟨n, hn⟩ : ∃ n, readSize (entriesData.drop 0) = some n := exists_readSize (by omega)
    rw [List.drop_zero] at hn
    rw [tryParseEntries, if_neg hsize, hn] at h
    simp only at h
    split at h
    · cases h
    · split at h
      · rename_i hloop
        exact parseLoop_ne_none hle' hlen (by omega) [] hloop
      · cases h

theorem entriesInRange_nil : EntriesInRange entriesData entriesSize [] :=
  ⟨by simp, by simp, List.Pairwise.nil, fun h => absurd rfl h⟩

/-- **What `ParseEntries` returns lies in the block exactly when** no sum of lengths wraps in a
block all of whose records pass the checks. -/
theorem parse_inRange_iff (entriesData : Bytes) (entriesSize : Nat)
    (hlen : entriesData.length < 2 ^ 63) (hsize : entriesSize < 2 ^ 64) :
    ParsesInRange entriesData entriesSize ↔ NoSumWraps entriesData entriesSize := by
  constructor
  · intro h hle n l hn hmax hacc e he
    have hok : tryParseEntries entriesData entriesSize = .ok l := by
      rw [tryParseEntries_of_count hle hn hmax, hacc.parseLoop_eq [], List.nil_append]
    exact lt_of_le_of_lt ((h.entries l hok).within e he).2 hsize
  · intro h
    refine ⟨?_, length_lt_of_outOfBounds hlen⟩
    intro l hok
    rcases accepted_of_ok hok with rfl | ⟨hle, n, hn, hmax, hacc⟩
    · exact entriesInRange_nil
    · exact (hacc.layout (h hle n l hn hmax hacc)).inRange hn

end

/-- A block with one record. -/
def oneRecord : Bytes := word 1 ++ word 1 ++ word 2 ++ [107, 118, 118]

theorem parse_inRange_oneRecord : ParsesInRange oneRecord 27 := by
  refine (parse_inRange_iff oneRecord 27 (by decide) (by decide)).mpr ?_
  intro _ n l hn _ hacc
  obtain rfl : 1 = n := Option.some.inj hn
  cases hacc with
  | cons hkey hvalue hhead hrecord htail =>
    obtain rfl := Option.some.inj hkey
    obtain rfl := Option.some.inj hvalue
    cases htail
    decide

/-- A block with one record, whose key has `2 ^ 64 - 16` bytes. -/
def wrappingBlock : Bytes := word 1 ++ word (2 ^ 64 - 16) ++ word 0

/-- **A record whose lengths wrap is accepted**: its key reaches out of the block. -/
theorem wrapping_record_accepted : ¬ ParsesInRange wrappingBlock 24 := by
  intro h
  have hok : tryParseEntries wrappingBlock 24 = .ok [entryAt 8 (2 ^ 64 - 16) 0] := by
    decide +kernel
  have hwithin := (h.entries _ hok).within _ List.mem_cons_self
  exact absurd hwithin.1 (by decide)

end Mokv.LSM
