import Mokv.LSM.Words

/-!
# The ids in the manifest file

What `Manifest::Save` writes is the version, the number of levels, and for each level the
ids of its tables with the word `-1` behind them.  The tables themselves are not in the
file, and the constructor keeps an id it has read whether or not `SST::Load` finds the
table, so this module is about the ids alone.

* `ManifestIds.save`, `ManifestIds.load`: the words written and read.
* `manifest_file_round_trip`: **the file has `binary_size()` bytes, and reading it gives
  the version, the levels and the greatest id.**
-/

namespace Mokv.LSM

open Lib

/-- `static_cast<size_t>(-1)`. -/
def endMark : Nat := 2 ^ 64 - 1

/-- What the manifest file holds of a `Manifest`: the ids of each level. -/
structure ManifestIds where
  version : Nat
  levels : List (List Int)
  maxSstId : Nat
deriving DecidableEq

/-! ### Writing -/

/-- `Level::Save`. -/
def saveIds (ids : List Int) : Bytes := (ids.flatMap fun id => word (toSizeT id)) ++ word endMark

/-- The words of `Manifest::Save`. -/
def ManifestIds.save (m : ManifestIds) : Bytes :=
  word m.version ++ (word m.levels.length ++ m.levels.flatMap saveIds)

/-- `Manifest::binary_size`, a sum of `size_t`. -/
def ManifestIds.binarySize (m : ManifestIds) : Nat :=
  m.levels.foldl (fun res ids => addSize res ((ids.length + 1) * 8 % 2 ^ 64)) (2 * 8)

/-- `ftruncate`: bytes past the size are cut off, missing ones are zero. -/
def ftruncate (size : Nat) (file : Bytes) : Bytes :=
  file.take size ++ List.replicate (size - file.length) 0

/-- `Manifest::Save` on a file: the words go into a mapping of `binary_size()` bytes, and
there is no result when they go past its end. -/
def ManifestIds.saveTo (m : ManifestIds) (file : Bytes) : Option Bytes :=
  let data := ftruncate m.binarySize file
  if m.save.length ≤ data.length then some (m.save ++ data.drop m.save.length) else none

/-! ### Reading -/

/-- `Level::Load`: the ids, the new `max_sst_id`, and the bytes after the level.  The
number of turns is bounded by `fuel`; there is no result if bytes are missing. -/
def loadIds : Nat → Bytes → Nat → Option (List Int × Nat × Bytes)
  | 0, _, _ => none
  | fuel + 1, s, maxSstId => do
    let (sstId, s) ← readLE 8 s
    if sstId ≠ endMark then
      let (ids, maxSstId, s) ← loadIds fuel s (if sstId > maxSstId then sstId else maxSstId)
      some (toInt32 sstId :: ids, maxSstId, s)
    else some ([], maxSstId, s)

/-- The loop of the constructor over the levels. -/
def loadIdLevels : Nat → Bytes → Nat → Option (List (List Int) × Nat)
  | 0, _, maxSstId => some ([], maxSstId)
  | n + 1, s, maxSstId => do
    let (ids, maxSstId, s) ← loadIds s.length s maxSstId
    let (levels, maxSstId) ← loadIdLevels n s maxSstId
    some (ids :: levels, maxSstId)

/-- `Manifest::Manifest(data_dir)` when there is a manifest file. -/
def ManifestIds.load (s : Bytes) : Option ManifestIds := do
  let (version, s) ← readLE 8 s
  let (levelCount, s) ← readLE 8 s
  let (levels, maxSstId) ← loadIdLevels levelCount s 0
  some ⟨version, levels, maxSstId⟩

/-! ### The size -/

@[simp] theorem length_saveIds (ids : List Int) : (saveIds ids).length = (ids.length + 1) * 8 := by
  have hflat : (ids.flatMap fun id => word (toSizeT id)).length = ids.length * 8 := by
    rw [List.length_flatMap]
    simp only [length_word, List.map_const', List.sum_replicate_nat]
  rw [saveIds, List.length_append, length_word, hflat]
  omega

/-- The bytes of a manifest with these levels. -/
def fileBytes (levels : List (List Int)) : Nat :=
  2 * 8 + (levels.map fun ids => (ids.length + 1) * 8).sum

theorem length_le_fileBytes (levels : List (List Int)) : levels.length ≤ fileBytes levels := by
  induction levels with
  | nil => exact Nat.zero_le _
  | cons ids levels ih =>
    rw [fileBytes] at ih ⊢
    rw [List.length_cons, List.map_cons, List.sum_cons]
    omega

theorem ManifestIds.length_save (m : ManifestIds) : m.save.length = fileBytes m.levels := by
  rw [save, List.length_append, List.length_append, length_word, length_word, List.length_flatMap,
    fileBytes]
  simp only [length_saveIds]
  omega

/-- As long as the sum fits a `size_t`, nothing wraps. -/
theorem foldl_addSize {levels : List (List Int)} {res : Nat}
    (h : res + (levels.map fun ids => (ids.length + 1) * 8).sum < 2 ^ 64) :
    levels.foldl (fun res ids => addSize res ((ids.length + 1) * 8 % 2 ^ 64)) res =
      res + (levels.map fun ids => (ids.length + 1) * 8).sum := by
  induction levels generalizing res with
  | nil => rfl
  | cons ids levels ih =>
    rw [List.map_cons, List.sum_cons] at h ⊢
    rw [List.foldl_cons, Nat.mod_eq_of_lt (by omega), addSize_eq (by omega), ih (by omega)]
    omega

theorem ManifestIds.binarySize_eq {m : ManifestIds} (h : fileBytes m.levels < 2 ^ 64) :
    m.binarySize = fileBytes m.levels := foldl_addSize h

theorem length_ftruncate (size : Nat) (file : Bytes) : (ftruncate size file).length = size := by
  rw [ftruncate, List.length_append, List.length_take, List.length_replicate]
  omega

/-! ### Reading back -/

/-- The id can be written and read back. -/
def IdFits (id : Int) : Prop := 0 ≤ id ∧ id < 2 ^ 31

theorem IdFits.toSizeT_lt {id : Int} (h : IdFits id) :
    (toSizeT id : Int) = id ∧ toSizeT id < 2 ^ 31 := by
  obtain ⟨h0, h1⟩ := h
  rw [toSizeT_of_nonneg h0 (by omega)]
  omega

/-- The greatest id after a level. -/
def raiseIds (maxSstId : Nat) (ids : List Int) : Nat :=
  ids.foldl (fun a id => max a (toSizeT id)) maxSstId

theorem loadIds_save {ids : List Int} (hid : ∀ id ∈ ids, IdFits id) {fuel : Nat}
    (hfuel : ids.length < fuel) (maxSstId : Nat) (rest : Bytes) :
    loadIds fuel (saveIds ids ++ rest) maxSstId = some (ids, raiseIds maxSstId ids, rest) := by
  rw [saveIds, List.append_assoc]
  induction ids generalizing fuel maxSstId with
  | nil =>
    obtain ⟨fuel, rfl⟩ := Nat.exists_eq_succ_of_ne_zero (Nat.ne_of_gt hfuel)
    rw [List.flatMap_nil, List.nil_append, loadIds, readLE_word (by decide)]
    rfl
  | cons id ids ih =>
    obtain ⟨fuel, rfl⟩ := Nat.exists_eq_succ_of_ne_zero (by omega : fuel ≠ 0)
    obtain ⟨hcast, hlt⟩ := (hid id List.mem_cons_self).toSizeT_lt
    have hnot : toSizeT id ≠ endMark := by
      rw [endMark]
      omega
    have hint : toInt32 (toSizeT id) = id := by rw [toInt32_natCast hlt, hcast]
    have hmax : (if toSizeT id > maxSstId then toSizeT id else maxSstId) =
        max maxSstId (toSizeT id) := by
      split <;> omega
    rw [List.flatMap_cons, List.append_assoc, loadIds, readLE_word (by omega)]
    simp only [Option.bind_eq_bind, Option.bind_some, if_pos hnot, hint, hmax]
    rw [ih (fun id hid' => hid id (List.mem_cons_of_mem _ hid')) (by simpa using hfuel)]
    rfl

theorem loadIdLevels_save {levels : List (List Int)} (hid : ∀ ids ∈ levels, ∀ id ∈ ids, IdFits id)
    (maxSstId : Nat) :
    loadIdLevels levels.length (levels.flatMap saveIds) maxSstId =
      some (levels, raiseIds maxSstId levels.flatten) := by
  induction levels generalizing maxSstId with
  | nil => rfl
  | cons ids levels ih =>
    have hfuel : ids.length < (saveIds ids ++ levels.flatMap saveIds).length := by
      rw [List.length_append, length_saveIds]
      omega
    rw [List.length_cons, List.flatMap_cons, loadIdLevels,
      loadIds_save (hid ids List.mem_cons_self) hfuel]
    simp only [Option.bind_eq_bind, Option.bind_some]
    rw [ih fun ids' h' => hid ids' (List.mem_cons_of_mem _ h')]
    simp only [Option.bind_some, List.flatten_cons, raiseIds, List.foldl_append]

/-- **The ids are read back as they were written.** -/
theorem ManifestIds.load_save {m : ManifestIds}
    (hid : ∀ ids ∈ m.levels, ∀ id ∈ ids, IdFits id) (hlen : m.levels.length < 2 ^ 64) :
    ManifestIds.load m.save =
      some ⟨m.version % 2 ^ 64, m.levels, raiseIds 0 m.levels.flatten⟩ := by
  rw [ManifestIds.load, ManifestIds.save, word, readLE_append]
  simp only [Option.bind_eq_bind, Option.bind_some, readLE_word hlen]
  rw [loadIdLevels_save hid]
  rfl

/-! ### The file -/

/-- The greatest of the ids, 0 if there is none. -/
def greatestId (ids : List Int) : Int := ids.foldr max 0

theorem raiseIds_eq_max {ids : List Int} (hid : ∀ id ∈ ids, IdFits id) (a : Nat) :
    (raiseIds a ids : Int) = max (a : Int) (greatestId ids) := by
  induction ids generalizing a with
  | nil =>
    change (a : Int) = max (a : Int) 0
    omega
  | cons id ids ih =>
    have hcast := (hid id List.mem_cons_self).toSizeT_lt.1
    have hih := ih (fun id hid' => hid id (List.mem_cons_of_mem _ hid')) (max a (toSizeT id))
    change (raiseIds (max a (toSizeT id)) ids : Int) = max (a : Int) (max id (greatestId ids))
    rw [hih]
    omega

theorem greatestId_nonneg (ids : List Int) : 0 ≤ greatestId ids := by
  induction ids with
  | nil => exact le_refl 0
  | cons id ids ih => exact le_trans ih (le_max_right id _)

/-- **`Save` writes exactly `binary_size()` bytes, whatever was in the file, and the
constructor reads the same version and levels from it, with the greatest id as
`max_sst_id_`.** -/
theorem manifest_file_round_trip (m : ManifestIds) (file : Bytes) (hversion : m.version < 2 ^ 64)
    (hid : ∀ ids ∈ m.levels, ∀ id ∈ ids, 0 ≤ id ∧ id < 2 ^ 31)
    (hsize : fileBytes m.levels < 2 ^ 64) :
    m.save.length = m.binarySize ∧ m.saveTo file = some m.save ∧
    ∃ m', ManifestIds.load m.save = some m' ∧ m'.version = m.version ∧ m'.levels = m.levels ∧
      (m'.maxSstId : Int) = greatestId m.levels.flatten := by
  have hbytes : m.save.length = m.binarySize := by rw [m.length_save, m.binarySize_eq hsize]
  have hlen : m.levels.length < 2 ^ 64 := lt_of_le_of_lt (length_le_fileBytes m.levels) hsize
  have hdrop : (ftruncate m.binarySize file).drop m.save.length = [] :=
    List.drop_of_length_le (by rw [length_ftruncate, hbytes])
  refine ⟨hbytes, ?_, _, ManifestIds.load_save hid hlen, Nat.mod_eq_of_lt hversion, rfl, ?_⟩
  · rw [ManifestIds.saveTo]
    simp only [length_ftruncate, hdrop, List.append_nil]
    rw [if_pos (Nat.le_of_eq hbytes)]
  · have hflat : ∀ id ∈ m.levels.flatten, IdFits id := by
      intro id hmem
      obtain ⟨ids, hids, hmem⟩ := List.mem_flatten.mp hmem
      exact hid ids hids id hmem
    rw [raiseIds_eq_max hflat]
    exact max_eq_right (greatestId_nonneg _)

/-- An empty level between two others, and the greatest `int`. -/
theorem manifest_file_round_trip_emptyLevel :
    ∃ m', ManifestIds.load (ManifestIds.save ⟨3, [[0, 7], [], [2147483647]], 0⟩) = some m' ∧
      m'.version = 3 ∧ m'.levels = [[0, 7], [], [2147483647]] ∧ (m'.maxSstId : Int) = 2147483647 :=
  (manifest_file_round_trip ⟨3, [[0, 7], [], [2147483647]], 0⟩ [] (by decide) (by decide)
    (by decide)).2.2

end Mokv.LSM
