import Mokv.Lib.Bisect
import Mokv.LSM.MemTable

/-!
# Sorted string tables

An SST (`mokv/lsm/sst.hpp`) is a file of sorted entries.  Here it is the entry list
that the file was built from (`Table`), the id that names the file, and the file's
size in bytes: a value, which stays what it is when another table is written under
its id.  What the views of a mapped file show is in `Mokv.LSM.TableFiles`.  Every
constructor writes one data block, so the index block has one key, the first one.

A table is never empty and its keys increase; both are fields, since a
constructor given anything else reads past the end of its input.  The size of a
file depends on the bloom filter and on the compressor, so the model takes it as
a function of the entries (`FileSize`).

`SST.get_eq_lookup`: the two bisections of a lookup find exactly what the entry
list holds.
-/

namespace Mokv.LSM

open Lib

/-- The entries of one table: sorted by key, at least one. -/
structure Table where
  entries : List Entry
  sorted : SortedKeys entries
  nonempty : entries ≠ []
deriving DecidableEq

/-- The table of an entry list, when it is one. -/
def Table.ofEntries? (l : List Entry) : Option Table :=
  if h : SortedKeys l ∧ l ≠ [] then some ⟨l, h.1, h.2⟩ else none

theorem Table.ofEntries?_eq {l : List Entry} (hs : SortedKeys l) (hn : l ≠ []) :
    Table.ofEntries? l = some ⟨l, hs, hn⟩ := dif_pos ⟨hs, hn⟩

/-- The size of the file that a constructor writes for an entry list. -/
abbrev FileSize := List Entry → Nat

/-- The size without compression, given the size of the bloom filter for a number of keys:
the index block with its one key, then the data block. -/
def plainFileSize (bloomSize : Nat → Nat) : FileSize := fun l =>
  let indexBlockSize := 2 * 8 * (l.length + 1) + (l.head?.map fun e => e.1.length).getD 0
  let dataBlockSize := 8 + payload l + l.length * 2 * 8 + bloomSize l.length + 8
  indexBlockSize + dataBlockSize

/-- `SST`: the id that names the file, its entries and its size. -/
structure SST where
  id : Int
  table : Table
  fileSize : Nat
deriving DecidableEq

namespace SST

/-- The entry list. -/
def entries (s : SST) : List Entry := s.table.entries

/-- `SST::begin()`, dereferenced. -/
def first (s : SST) : Entry := s.table.entries.head s.table.nonempty

/-- `SST::rbegin()`, dereferenced. -/
def last (s : SST) : Entry := s.table.entries.getLast s.table.nonempty

/-- `SST::key`: the key of the only index entry. -/
def key (s : SST) : Bytes := s.first.1

/-- `DataBlockIndex::Get`: the lower bound, then a comparison.  The bloom filter in
front of it turns away keys that the comparison would turn away as well. -/
def dataBlockGet (l : List Entry) (key : Bytes) : Option Bytes :=
  let r := bisect (fun mid => (l[mid]?).any fun e => e.1 < key) l.length
  match l[r]? with
  | none => none
  | some e => if e.1 ≠ key then none else some e.2

/-- `SST::Get`, that is `IndexBlockIndex::Get` over the one data block. -/
def get (s : SST) (key : Bytes) : Option Bytes :=
  let r := bisect (fun _ => !(s.key > key)) 1
  if r ≠ 0 then dataBlockGet s.entries key else none

/-! ### The ends of a table -/

theorem sorted (s : SST) : SortedKeys s.entries := s.table.sorted

theorem first_mem (s : SST) : s.first ∈ s.entries := List.head_mem _

theorem last_mem (s : SST) : s.last ∈ s.entries := List.getLast_mem _

theorem key_le (s : SST) {e : Entry} (he : e ∈ s.entries) : s.key ≤ e.1 := by
  obtain ⟨id, ⟨l, hs, hn⟩, z⟩ := s
  obtain ⟨a, l, rfl⟩ := List.exists_cons_of_ne_nil hn
  rcases List.mem_cons.mp he with rfl | he
  · exact le_refl _
  · exact le_of_lt ((sortedKeys_cons.mp hs).1 e he)

theorem le_last (s : SST) {e : Entry} (he : e ∈ s.entries) : e.1 ≤ s.last.1 := by
  obtain ⟨id, ⟨l, hs, hn⟩, z⟩ := s
  change e ∈ l at he
  change e.1 ≤ (l.getLast hn).1
  rw [← List.dropLast_append_getLast hn] at he hs
  rcases List.mem_append.mp he with he | he
  · exact le_of_lt ((List.pairwise_append.mp hs).2.2 e he _ (List.mem_singleton_self _))
  · rw [List.mem_singleton.mp he]

theorem key_le_last (s : SST) : s.key ≤ s.last.1 := s.key_le s.last_mem

/-! ### Lookups -/

/-- The number of keys below `k` is where the lower bound stops. -/
theorem bisect_lower {l : List Entry} (hs : SortedKeys l) (k : Bytes) :
    bisect (fun mid => (l[mid]?).any fun e => e.1 < k) l.length =
      (l.takeWhile fun e => e.1 < k).length := by
  refine bisect_spec (List.takeWhile_prefix _).length_le ?_
  intro i hi
  rw [List.getElem?_eq_getElem hi]
  simp only [Option.any_some, decide_eq_true_eq]
  induction l generalizing i with
  | nil => simp at hi
  | cons a l ih =>
    obtain ⟨hlt, hs⟩ := sortedKeys_cons.mp hs
    by_cases ha : a.1 < k
    · rw [List.takeWhile_cons_of_pos (by simpa using ha)]
      cases i with
      | zero => simpa using ha
      | succ i =>
        rw [List.length_cons, Nat.add_lt_add_iff_right]
        exact ih hs i (by simpa using hi)
    · rw [List.takeWhile_cons_of_neg (by simpa using ha)]
      cases i with
      | zero => simpa using ha
      | succ i =>
        refine iff_of_false (fun h => ha (lt_trans (hlt _ (List.getElem_mem _)) h)) ?_
        simp

theorem dataBlockGet_eq_lookup {l : List Entry} (hs : SortedKeys l) (k : Bytes) :
    dataBlockGet l k = l.lookup k := by
  rw [dataBlockGet, bisect_lower hs]
  induction l with
  | nil => rfl
  | cons a l ih =>
    obtain ⟨k', v'⟩ := a
    obtain ⟨hlt, hs⟩ := sortedKeys_cons.mp hs
    rw [lookup_cons]
    by_cases ha : k' < k
    · rw [List.takeWhile_cons_of_pos (by simpa using ha), List.length_cons,
        if_neg (ne_of_lt ha).symm]
      exact ih hs
    · rw [List.takeWhile_cons_of_neg (by simpa using ha)]
      by_cases hk : k = k'
      · simp [hk]
      · have hlk : l.lookup k = none := lookup_eq_none fun b hb he =>
          ha (lt_of_lt_of_le (hlt b hb) (le_of_eq he))
        simp [hk, Ne.symm hk, hlk]

/-- **A lookup finds exactly what the entry list holds.** -/
theorem get_eq_lookup (s : SST) (k : Bytes) : s.get k = s.entries.lookup k := by
  by_cases hk : s.key > k
  · have hr : bisect (fun _ => !(decide (s.key > k))) 1 = 0 :=
      bisect_spec (Nat.zero_le 1) fun i _ => by simp [hk]
    rw [get, hr]
    simp only [ne_eq, not_true_eq_false, if_false]
    refine (lookup_eq_none ?_).symm
    intro b hb he
    exact absurd (s.key_le hb) (by rw [he]; exact not_le.mpr hk)
  · have hr : bisect (fun _ => !(decide (s.key > k))) 1 = 1 :=
      bisect_spec (Nat.le_refl 1) fun i hi => by simpa [hk] using hi
    rw [get, hr]
    exact dataBlockGet_eq_lookup s.sorted k

theorem get_eq_some {s : SST} {k v : Bytes} : s.get k = some v ↔ (k, v) ∈ s.entries := by
  rw [get_eq_lookup, s.sorted.lookup_eq_some]

/-- `SST::SST(MemTable&, id)`.  The constructor dereferences `begin()`, so an empty
memtable has no table. -/
def ofMemTable? (fileSize : FileSize) (m : MemTable) (id : Int) : Option SST :=
  (Table.ofEntries? m.entries).map fun t => ⟨id, t, fileSize t.entries⟩

theorem exists_ofMemTable? (fileSize : FileSize) {m : MemTable} (h : m.entries ≠ []) (id : Int) :
    ∃ sst, ofMemTable? fileSize m id = some sst := by
  rw [ofMemTable?, Table.ofEntries?_eq m.sorted h, Option.map_some]
  exact ⟨_, rfl⟩

theorem of_ofMemTable? {fileSize : FileSize} {m : MemTable} {id : Int} {sst : SST}
    (h : ofMemTable? fileSize m id = some sst) :
    sst.id = id ∧ sst.entries = m.entries ∧ sst.fileSize = fileSize m.entries := by
  rw [ofMemTable?, Table.ofEntries?] at h
  split at h
  · obtain rfl := Option.some.inj h
    exact ⟨rfl, rfl, rfl⟩
  · cases h

/-- `SST::SST(std::vector<EntryView>, id)`, for views that the constructor does not write
over (`Writer.writeThrough_eq`). -/
def ofEntries? (fileSize : FileSize) (l : List Entry) (id : Int) : Option SST :=
  (Table.ofEntries? l).map fun t => ⟨id, t, fileSize t.entries⟩

theorem entries_of_ofEntries? {fileSize : FileSize} {l : List Entry} {id : Int} {sst : SST}
    (h : ofEntries? fileSize l id = some sst) : sst.entries = l := by
  rw [ofEntries?, Table.ofEntries?] at h
  split at h
  · obtain rfl := Option.some.inj h
    rfl
  · cases h

end SST

end Mokv.LSM
