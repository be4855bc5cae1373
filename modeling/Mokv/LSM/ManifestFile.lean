import Mokv.Lib.MapM
import Mokv.LSM.Cascade
import Mokv.LSM.ManifestIds

/-!
# The manifest file

`Manifest::Save` writes words of eight bytes: the version, the number of levels, and for
each level the ids of its tables followed by the word `-1`.  The constructor reads them
back, loads each table from its file and takes the greatest id as `max_sst_id_`.

`load_save`: as long as the ids fit an `int` and each table is in its file, the levels
come back as they were.
-/

namespace Mokv.LSM

open Lib

/-- `Level::Save`. -/
def Level.save (l : Level) : Bytes := (l.ssts.flatMap fun s => word (toSizeT s.id)) ++ word endMark

/-- `Manifest::Save`. -/
def Manifest.save (m : Manifest) : Bytes :=
  word m.version ++ (word m.levels.length ++ m.levels.flatMap Level.save)

/-- `Level::Load`: the tables, the new `max_sst_id`, and the bytes after the level.  The
number of turns is bounded by `fuel`; there is no result if the bytes or a file are
missing. -/
def loadLevel (files : Files) : Nat → Bytes → Nat → Option (List SST × Nat × Bytes)
  | 0, _, _ => none
  | fuel + 1, s, maxSstId => do
    let (sstId, s) ← readLE 8 s
    if sstId ≠ endMark then
      let (table, size) ← files (toInt32 sstId)
      let (ssts, maxSstId, s) ←
        loadLevel files fuel s (if sstId > maxSstId then sstId else maxSstId)
      some (⟨toInt32 sstId, table, size⟩ :: ssts, maxSstId, s)
    else some ([], maxSstId, s)

/-- The loop of the constructor, from level `i` on. -/
def loadLevels (files : Files) : Nat → Nat → Bytes → Nat → Option (List Level × Nat)
  | 0, _, _, maxSstId => some ([], maxSstId)
  | n + 1, i, s, maxSstId => do
    let (ssts, maxSstId, s) ← loadLevel files s.length s maxSstId
    let (levels, maxSstId) ← loadLevels files n (i + 1) s maxSstId
    some (⟨i, ssts⟩ :: levels, maxSstId)

/-- `Manifest::Manifest(data_dir)` when there is a manifest file. -/
def Manifest.load (files : Files) (s : Bytes) : Option Manifest := do
  let (version, s) ← readLE 8 s
  let (levelCount, s) ← readLE 8 s
  let (levels, maxSstId) ← loadLevels files levelCount 0 s 0
  some ⟨version, levels, maxSstId⟩

/-! ### The ids of a manifest -/

/-- The ids of the tables, level by level. -/
def Manifest.toIds (m : Manifest) : ManifestIds :=
  ⟨m.version, m.levels.map fun l => l.ssts.map SST.id, m.maxSstId⟩

/-- The table with this id, as `SST::Load` finds it. -/
def loadSST (files : Files) (id : Int) : Option SST :=
  (files id).map fun file => ⟨id, file.1, file.2⟩

theorem Level.save_eq (l : Level) : l.save = saveIds (l.ssts.map SST.id) := by
  rw [Level.save, saveIds, List.flatMap_map]

/-- **The file depends on the ids only.** -/
theorem Manifest.save_toIds (m : Manifest) : m.toIds.save = m.save := by
  rw [Manifest.save, ManifestIds.save, Manifest.toIds]
  simp only [List.length_map, List.flatMap_map, ← Level.save_eq]

theorem loadLevel_eq (files : Files) (fuel : Nat) (s : Bytes) (maxSstId : Nat) :
    loadLevel files fuel s maxSstId =
      (loadIds fuel s maxSstId).bind fun (ids, maxSstId, s) =>
        (ids.mapM (loadSST files)).map fun ssts => (ssts, maxSstId, s) := by
  induction fuel generalizing s maxSstId with
  | zero => rfl
  | succ fuel ih =>
    rw [loadLevel, loadIds]
    cases hread : readLE 8 s with
    | none => rfl
    | some p =>
      simp only [Option.bind_eq_bind, Option.bind_some]
      by_cases hend : p.1 = endMark
      · simp [hend]
      · simp only [if_pos hend, ih]
        cases hfile : files (toInt32 p.1) with
        | none =>
          cases loadIds fuel p.2 (if p.1 > maxSstId then p.1 else maxSstId) <;>
            simp [loadSST, hfile]
        | some file =>
          cases loadIds fuel p.2 (if p.1 > maxSstId then p.1 else maxSstId) with
          | none => rfl
          | some r =>
            cases hssts : r.1.mapM (loadSST files) <;> simp [loadSST, hfile, hssts]

theorem map_id_of_mapM_loadSST {files : Files} {ids : List Int} {ssts : List SST}
    (h : ids.mapM (loadSST files) = some ssts) : ssts.map SST.id = ids := by
  induction ids generalizing ssts with
  | nil =>
    cases h
    rfl
  | cons id ids ih =>
    rw [List.mapM_cons] at h
    obtain ⟨s, hs, h⟩ := Option.bind_eq_some_iff.mp h
    obtain ⟨rest, hrest, h⟩ := Option.bind_eq_some_iff.mp h
    obtain ⟨file, -, rfl⟩ := Option.map_eq_some_iff.mp hs
    cases h
    rw [List.map_cons, ih hrest]

theorem loadIds_of_loadLevel {files : Files} {fuel : Nat} {s rest : Bytes} {a b : Nat}
    {ssts : List SST} (h : loadLevel files fuel s a = some (ssts, b, rest)) :
    loadIds fuel s a = some (ssts.map SST.id, b, rest) := by
  rw [loadLevel_eq] at h
  obtain ⟨r, hr, h⟩ := Option.bind_eq_some_iff.mp h
  obtain ⟨ssts', hssts, h⟩ := Option.map_eq_some_iff.mp h
  cases h
  rw [hr, map_id_of_mapM_loadSST hssts]

theorem loadIdLevels_of_loadLevels {files : Files} {n i a b : Nat} {s : Bytes}
    {levels : List Level} (h : loadLevels files n i s a = some (levels, b)) :
    loadIdLevels n s a = some (levels.map fun l => l.ssts.map SST.id, b) := by
  induction n generalizing i s a levels with
  | zero =>
    cases h
    rfl
  | succ n ih =>
    rw [loadLevels] at h
    obtain ⟨⟨ssts, c, rest⟩, hl, h⟩ := Option.bind_eq_some_iff.mp h
    obtain ⟨⟨levels', d⟩, hls, h⟩ := Option.bind_eq_some_iff.mp h
    cases h
    rw [loadIdLevels, loadIds_of_loadLevel hl]
    simp only [Option.bind_eq_bind, Option.bind_some, ih hls, List.map_cons]

/-- **Loading a manifest reads the ids of its tables.** -/
theorem Manifest.load_toIds {files : Files} {s : Bytes} {m : Manifest}
    (h : Manifest.load files s = some m) : ManifestIds.load s = some m.toIds := by
  rw [Manifest.load] at h
  obtain ⟨p, hp, h⟩ := Option.bind_eq_some_iff.mp h
  obtain ⟨q, hq, h⟩ := Option.bind_eq_some_iff.mp h
  obtain ⟨⟨levels, b⟩, hls, h⟩ := Option.bind_eq_some_iff.mp h
  cases h
  rw [ManifestIds.load]
  simp only [Option.bind_eq_bind, hp, hq, Option.bind_some, loadIdLevels_of_loadLevels hls]
  rfl

/-! ### Reading back -/

/-- The id can be written and read back. -/
def IdOk (s : SST) : Prop := 0 ≤ s.id ∧ s.id < 2 ^ 31

theorem IdOk.toSizeT_lt {s : SST} (h : IdOk s) :
    (toSizeT s.id : Int) = s.id ∧ toSizeT s.id < 2 ^ 31 := IdFits.toSizeT_lt h

/-- The greatest id after the tables of a level. -/
def raiseAll (maxSstId : Nat) (ssts : List SST) : Nat :=
  ssts.foldl (fun a s => raiseMaxSstId a s.id) maxSstId

theorem raiseIds_map_id (maxSstId : Nat) (ssts : List SST) :
    raiseIds maxSstId (ssts.map SST.id) = raiseAll maxSstId ssts := by
  rw [raiseIds, List.foldl_map, raiseAll]
  simp only [raiseMaxSstId_eq_max]

theorem mapM_loadSST {files : Files} {ssts : List SST}
    (hst : ∀ s ∈ ssts, files s.id = some (s.table, s.fileSize)) :
    (ssts.map SST.id).mapM (loadSST files) = some ssts := by
  rw [List.mapM_map]
  refine (mapM_eq_some (g := id) ?_).trans (congrArg some (List.map_id _))
  intro s hs
  rw [Function.comp, loadSST, hst s hs]
  rfl

theorem loadLevel_save {files : Files} {l : Level}
    (hst : ∀ s ∈ l.ssts, files s.id = some (s.table, s.fileSize)) (hid : ∀ s ∈ l.ssts, IdOk s)
    {fuel : Nat} (hfuel : l.ssts.length < fuel) (maxSstId : Nat) (rest : Bytes) :
    loadLevel files fuel (l.save ++ rest) maxSstId =
      some (l.ssts, raiseAll maxSstId l.ssts, rest) := by
  have hids : ∀ id ∈ l.ssts.map SST.id, IdFits id := by
    intro id hmem
    obtain ⟨s, hs, rfl⟩ := List.mem_map.mp hmem
    exact hid s hs
  rw [loadLevel_eq, l.save_eq, loadIds_save hids (by rwa [List.length_map])]
  simp only [Option.bind_some, mapM_loadSST hst, Option.map_some, raiseIds_map_id]

theorem loadLevels_save {files : Files} {levels : List Level} {i : Nat}
    (hlevel : ∀ (j : Nat) (l : Level), levels[j]? = some l → l.level = i + j)
    (hst : ∀ l ∈ levels, ∀ s ∈ l.ssts, files s.id = some (s.table, s.fileSize))
    (hid : ∀ l ∈ levels, ∀ s ∈ l.ssts, IdOk s) (maxSstId : Nat) :
    loadLevels files levels.length i (levels.flatMap Level.save) maxSstId =
      some (levels, raiseAll maxSstId (levels.flatMap Level.ssts)) := by
  induction levels generalizing i maxSstId with
  | nil => rfl
  | cons l levels ih =>
    have hl : l = ⟨i, l.ssts⟩ := by rw [← show l.level = i from hlevel 0 l rfl]
    have hfuel : l.ssts.length < (l.save ++ levels.flatMap Level.save).length := by
      rw [List.length_append, l.save_eq, length_saveIds, List.length_map]
      omega
    rw [List.length_cons, List.flatMap_cons, loadLevels,
      loadLevel_save (hst l List.mem_cons_self) (hid l List.mem_cons_self) hfuel]
    simp only [Option.bind_eq_bind, Option.bind_some]
    rw [ih (fun j l' hj => by rw [hlevel (j + 1) l' hj]; omega)
      (fun l' hl' => hst l' (List.mem_cons_of_mem _ hl'))
      (fun l' hl' => hid l' (List.mem_cons_of_mem _ hl'))]
    simp only [Option.bind_some, ← hl, List.flatMap_cons, raiseAll, List.foldl_append]

/-- **The manifest file is read back as it was written.** -/
theorem Manifest.Shaped.load_save {m : Manifest} (h : m.Shaped) {files : Files}
    (hst : m.Stored files) (hid : ∀ s ∈ m.ssts, IdOk s) (hlen : m.levels.length < 2 ^ 64) :
    Manifest.load files m.save =
      some ⟨m.version % 2 ^ 64, m.levels, raiseAll 0 m.ssts⟩ := by
  have hmem : ∀ l ∈ m.levels, ∀ s ∈ l.ssts, s ∈ m.ssts := fun l hl s hs =>
    List.mem_flatMap.mpr ⟨l, hl, hs⟩
  rw [Manifest.load, Manifest.save, word, readLE_append]
  simp only [Option.bind_eq_bind, Option.bind_some, readLE_word hlen]
  rw [loadLevels_save (fun j l hj => by rw [h.level_eq j l hj]; omega)
    (fun l hl s hs => hst s (hmem l hl s hs)) (fun l hl s hs => hid s (hmem l hl s hs))]
  rfl

/-! ### The greatest id -/

theorem le_raiseAll (a : Nat) (ssts : List SST) : a ≤ raiseAll a ssts := by
  induction ssts generalizing a with
  | nil => exact Nat.le_refl a
  | cons s ssts ih =>
    refine Nat.le_trans ?_ (ih (raiseMaxSstId a s.id))
    rw [raiseMaxSstId_eq_max]
    exact Nat.le_max_left _ _

theorem le_raiseAll_of_mem {a : Nat} {ssts : List SST} {s : SST} (hs : s ∈ ssts) :
    toSizeT s.id ≤ raiseAll a ssts := by
  induction ssts generalizing a with
  | nil => simp at hs
  | cons t ssts ih =>
    rcases List.mem_cons.mp hs with rfl | hs
    · refine Nat.le_trans ?_ (le_raiseAll (raiseMaxSstId a s.id) ssts)
      rw [raiseMaxSstId_eq_max]
      exact Nat.le_max_right _ _
    · exact ih hs

theorem raiseAll_le {a n : Nat} {ssts : List SST} (ha : a ≤ n) (h : ∀ s ∈ ssts, toSizeT s.id ≤ n) :
    raiseAll a ssts ≤ n := by
  induction ssts generalizing a with
  | nil => exact ha
  | cons s ssts ih =>
    refine ih ?_ fun t ht => h t (List.mem_cons_of_mem _ ht)
    change raiseMaxSstId a s.id ≤ n
    rw [raiseMaxSstId_eq_max]
    exact Nat.max_le.mpr ⟨ha, h s List.mem_cons_self⟩

end Mokv.LSM
