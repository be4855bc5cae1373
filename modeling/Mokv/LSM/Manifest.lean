import Mokv.LSM.Merge

/-!
# The manifest

`Manifest` (`mokv/lsm/manifest.hpp`) arranges the SSTs in levels.  A flushed table
goes to the end of level 0, where tables may overlap and the newest is searched
first; deeper levels are written by compaction only, and a lookup there bisects
on the first keys.

A manifest has its levels numbered by their position (`Manifest.Shaped`).  A well-formed
one (`Manifest.WellFormed`) also has no empty key, and below level 0 its tables are in
ascending order with disjoint ranges.  There `Manifest.WellFormed.get_eq_newest` holds:
the bisections and scans of a lookup read the stack `Manifest.tables`, newest table first.
-/

namespace Mokv.LSM

open Lib SizeTieredCompactionStruct

/-- `Manifest::Level`. -/
structure Level where
  level : Nat
  ssts : List SST
deriving DecidableEq

/-- `Manifest`, without the data directory and the access counter. -/
structure Manifest where
  version : Nat
  levels : List Level
  maxSstId : Nat
deriving DecidableEq

/-! ### Lookups -/

/-- `Level::Get`. -/
def Level.get (l : Level) (key : Bytes) : Option Bytes :=
  if l.level = 0 then l.ssts.reverse.findSome? (·.get key)
  else
    let r := bisect (fun mid => (l.ssts[mid]?).any fun s => !(s.key > key)) l.ssts.length
    if r > 0 then (l.ssts[r - 1]?).bind (·.get key) else none

/-- `Manifest::Get`. -/
def Manifest.get (m : Manifest) (key : Bytes) : Option Bytes := m.levels.findSome? (·.get key)

/-- The tables of a level, newest first. -/
def Level.tables (l : Level) : List (List Entry) := l.ssts.reverse.map SST.entries

/-- All tables, newest first. -/
def Manifest.tables (m : Manifest) : List (List Entry) := m.levels.flatMap Level.tables

/-- All SSTs of all levels. -/
def Manifest.ssts (m : Manifest) : List SST := m.levels.flatMap Level.ssts

/-- The tables are in order and each ends before the next begins. -/
def Ascending (l : List SST) : Prop := l.Pairwise fun a b => a.last.1 < b.key

instance (l : List SST) : Decidable (Ascending l) :=
  inferInstanceAs (Decidable (l.Pairwise fun a b => a.last.1 < b.key))

/-- There is a level 0, and the levels are numbered by their position. -/
structure Manifest.Shaped (m : Manifest) : Prop where
  nonempty : m.levels ≠ []
  level_eq : ∀ (i : Nat) (l : Level), m.levels[i]? = some l → l.level = i

/-- The order the code keeps its levels in. -/
structure Manifest.WellFormed (m : Manifest) : Prop extends m.Shaped where
  keys : ∀ l ∈ m.levels, ∀ s ∈ l.ssts, ∀ e ∈ s.entries, e.1 ≠ []
  ascending : ∀ l : Level, l ∈ m.levels → l.level ≠ 0 → Ascending l.ssts

theorem Ascending.key_lt {l : List SST} (h : Ascending l) : l.Pairwise fun a b => a.key < b.key :=
  h.imp fun {a _} hab => lt_of_le_of_lt a.key_le_last hab

theorem Ascending.agree {l : List SST} (h : Ascending l) {s t : SST} (hs : s ∈ l) (ht : t ∈ l)
    {k v w : Bytes} (hv : (k, v) ∈ s.entries) (hw : (k, w) ∈ t.entries) : v = w := by
  induction l with
  | nil => simp at hs
  | cons a l ih =>
    obtain ⟨hlt, hl⟩ := List.pairwise_cons.mp h
    rcases List.mem_cons.mp hs with rfl | hs' <;> rcases List.mem_cons.mp ht with he | ht'
    · subst he
      exact t.sorted.eq_of_mem hv hw
    · exact absurd (lt_of_le_of_lt (s.le_last hv) (lt_of_lt_of_le (hlt t ht') (t.key_le hw)))
        (lt_irrefl k)
    · subst he
      exact absurd (lt_of_le_of_lt (t.le_last hw) (lt_of_lt_of_le (hlt s hs') (s.key_le hv)))
        (lt_irrefl k)
    · exact ih hl hs' ht'

/-- Over an ascending level, in whatever order it is searched, a key is found exactly
when some table has it. -/
theorem Ascending.newest_eq_some {l l' : List SST} (h : Ascending l)
    (hl : ∀ s, s ∈ l' ↔ s ∈ l) {k v : Bytes} :
    newest (l'.map SST.entries) k = some v ↔ ∃ s ∈ l, (k, v) ∈ s.entries := by
  have hagree : ∀ t ∈ l'.map SST.entries, ∀ u ∈ l'.map SST.entries, ∀ v w,
      t.lookup k = some v → u.lookup k = some w → v = w := by
    intro t ht u hu v w hv hw
    obtain ⟨s, hs, rfl⟩ := List.mem_map.mp ht
    obtain ⟨s', hs', rfl⟩ := List.mem_map.mp hu
    exact h.agree ((hl s).mp hs) ((hl s').mp hs') (s.sorted.lookup_eq_some.mp hv)
      (s'.sorted.lookup_eq_some.mp hw)
  rw [newest_eq_some_iff hagree]
  constructor
  · rintro ⟨t, ht, hv⟩
    obtain ⟨s, hs, rfl⟩ := List.mem_map.mp ht
    exact ⟨s, (hl s).mp hs, s.sorted.lookup_eq_some.mp hv⟩
  · rintro ⟨s, hs, hv⟩
    exact ⟨s.entries, List.mem_map_of_mem ((hl s).mpr hs), s.sorted.lookup_eq_some.mpr hv⟩

theorem Ascending.newest_reverse {l : List SST} (h : Ascending l) (k : Bytes) :
    newest (l.reverse.map SST.entries) k = newest (l.map SST.entries) k := by
  refine Option.ext ?_
  intro v
  rw [h.newest_eq_some (fun _ => List.mem_reverse), h.newest_eq_some (fun _ => Iff.rfl)]

theorem Ascending.key_le_iff {l : List SST} (h : Ascending l) (k : Bytes) :
    ∀ i (hi : i < l.length), l[i].key ≤ k ↔ i < (l.takeWhile fun s => !(s.key > k)).length := by
  have hlt := h.key_lt
  clear h
  induction l with
  | nil => intro i hi; simp at hi
  | cons a l ih =>
    intro i hi
    obtain ⟨ha, hl⟩ := List.pairwise_cons.mp hlt
    by_cases hk : a.key > k
    · rw [List.takeWhile_cons_of_neg (by simpa using hk)]
      cases i with
      | zero => simpa using hk
      | succ i =>
        refine iff_of_false ?_ (by simp)
        exact not_le.mpr (lt_trans hk (ha _ (List.getElem_mem _)))
    · rw [List.takeWhile_cons_of_pos (by simpa using hk)]
      cases i with
      | zero => simpa using hk
      | succ i =>
        rw [List.length_cons, Nat.add_lt_add_iff_right]
        exact ih hl i (by simpa using hi)

/-- **The lookup in an ascending level** reads the tables as a stack.  Only the last
table that begins at or before the key can hold it: the ones before end too early. -/
theorem Ascending.get_eq_newest {l : Level} (h : Ascending l.ssts) (hl : l.level ≠ 0)
    (k : Bytes) : l.get k = newest l.tables k := by
  have hb := h.key_le_iff k
  have hr : bisect (fun mid => (l.ssts[mid]?).any fun s => !(s.key > k)) l.ssts.length =
      (l.ssts.takeWhile fun s => !(s.key > k)).length := by
    refine bisect_spec (List.takeWhile_prefix _).length_le ?_
    intro i hi
    rw [List.getElem?_eq_getElem hi, ← hb i hi]
    simp
  have hble : (l.ssts.takeWhile fun s => !(s.key > k)).length ≤ l.ssts.length :=
    (List.takeWhile_prefix _).length_le
  rw [Level.get, if_neg hl, hr]
  dsimp only
  generalize (l.ssts.takeWhile fun s => !(s.key > k)).length = b at hb hble
  refine Option.ext ?_
  intro v
  rw [Level.tables, h.newest_eq_some (fun _ => List.mem_reverse)]
  constructor
  · intro hv
    split at hv
    · rw [List.getElem?_eq_getElem (by omega)] at hv
      exact ⟨_, List.getElem_mem _, SST.get_eq_some.mp hv⟩
    · cases hv
  · rintro ⟨s, hs, hv⟩
    obtain ⟨i, hi, rfl⟩ := List.getElem_of_mem hs
    have hib : i < b := (hb i hi).mp (l.ssts[i].key_le hv)
    have hlast : i = b - 1 := by
      by_contra hne
      have hlt := List.pairwise_iff_getElem.mp h i (b - 1) hi (by omega) (by omega)
      have hkey : (l.ssts[b - 1]).key ≤ k := (hb (b - 1) (by omega)).mpr (by omega)
      exact absurd (lt_of_le_of_lt (l.ssts[i].le_last hv) (lt_of_lt_of_le hlt hkey)) (lt_irrefl k)
    subst hlast
    rw [if_pos (by omega), List.getElem?_eq_getElem hi]
    exact SST.get_eq_some.mpr hv

theorem Level.get_zero {l : Level} (hl : l.level = 0) (k : Bytes) :
    l.get k = newest l.tables k := by
  rw [Level.get, if_pos hl, Level.tables, newest, List.findSome?_map]
  exact congrArg (List.findSome? · _) (funext fun s => s.get_eq_lookup k)

/-- **A lookup reads the stack of all tables, newest first.** -/
theorem Manifest.WellFormed.get_eq_newest {m : Manifest} (h : m.WellFormed) (k : Bytes) :
    m.get k = newest m.tables k := by
  have hlevel : ∀ l ∈ m.levels, l.get k = newest l.tables k := by
    intro l hl
    by_cases h0 : l.level = 0
    · exact Level.get_zero h0 k
    · exact (h.ascending l hl h0).get_eq_newest h0 k
  rw [Manifest.get, Manifest.tables]
  clear h
  revert hlevel
  induction m.levels with
  | nil => intro _; rfl
  | cons l ls ih =>
    intro hlevel
    rw [List.findSome?_cons, List.flatMap_cons, newest_append, ← hlevel l List.mem_cons_self,
      ← ih fun l' hl' => hlevel l' (List.mem_cons_of_mem _ hl')]
    cases l.get k <;> rfl

/-! ### Updates -/

/-- `Manifest::Manifest(data_dir)` when there is no manifest file. -/
def Manifest.new : Manifest := ⟨1, [⟨0, []⟩], 0⟩

/-- `Level::binary_size`. -/
def Level.binarySize (l : Level) : Nat := (l.ssts.map SST.fileSize).sum

/-- `level_max_binary_size`. -/
def levelMaxBinarySize (level : Nat) : Nat :=
  [1024, 10 * 1024 * 1024, 100 * 1024 * 1024, 1000 * 1024 * 1024, 10000 * 1024 * 1024].getD level 0

/-- `max_level_size`. -/
def maxLevelSize : Nat := 5

/-- `Manifest::CanDoCompaction`. -/
def Manifest.canDoCompaction (m : Manifest) : Bool :=
  (m.levels[0]?).any fun l => l.binarySize > levelMaxBinarySize 0

/-- `Manifest::Insert`: to the end of level 0. -/
def Manifest.insert (m : Manifest) (sst : SST) : Manifest :=
  { m with
    levels := match m.levels with
      | [] => []
      | l :: ls => { l with ssts := l.ssts ++ [sst] } :: ls }

/-- `if (id > max_sst_id_) max_sst_id_ = id`, the id converted to `size_t`. -/
def raiseMaxSstId (maxSstId : Nat) (id : Int) : Nat :=
  if toSizeT id > maxSstId then toSizeT id else maxSstId

/-- `Manifest::InsertAndUpdate`: a copy with the next version number and the table in it. -/
def Manifest.insertAndUpdate (m : Manifest) (sst : SST) : Manifest :=
  { m with version := m.version + 1, maxSstId := raiseMaxSstId m.maxSstId sst.id }.insert sst

end Mokv.LSM
