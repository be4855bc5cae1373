import Mokv.LSM.Cascade

/-!
# The database

`DB` (`mokv/db.hpp`) keeps an active memtable, a queue of full memtables waiting for
the flush thread, and the newest manifest (`manifest_queue_.back()`, the only one a
lookup uses).  A deletion is a write of the tombstone value.

`DB.put` and `DB.flush` are written as the sequence of their locked sections
(`write`, `swap`, `enqueue`; `dequeue`, `toSST`), so that the concurrent model can use
the same sections one at a time.

What a lookup reads before it hides tombstones is `DB.raw`; `DB.raw_put` and
`DB.raw_flush` say what the operations do to it, on states that are `DB.Valid`.
-/

namespace Mokv

open LSM

/-- `detail::TombstoneValue()`, the bytes of `"\x1E__mokv_deleted__\x1F"`. -/
def tombstoneValue : Bytes :=
  [0x1E, 0x5F, 0x5F, 0x6D, 0x6F, 0x6B, 0x76, 0x5F, 0x64, 0x65, 0x6C, 0x65, 0x74, 0x65, 0x64, 0x5F,
    0x5F, 0x1F]

/-- `detail::IsTombstone`. -/
def isTombstone (value : Bytes) : Bool := value = tombstoneValue

/-- `DBConfig`, as far as the logic depends on it: the memtable limit, and the file size
that the compression settings give. -/
structure DBConfig where
  memtableMaxSize : Nat
  fileSize : FileSize

/-- The state of a `DB`, with the `.sst` files of its directory. -/
structure DB where
  memtable : MemTable
  flushQueue : List MemTable
  manifest : Manifest
  sstId : Nat
  files : Files

namespace DB

/-! ### The operations -/

/-- A found tombstone counts as not found. -/
def hide (value : Bytes) : Option Bytes := if isTombstone value then none else some value

/-- The lookup in the waiting memtables, from the newest to the oldest. -/
def pendingGet (q : List MemTable) (key : Bytes) : Option Bytes := q.reverse.findSome? (·.get key)

/-- `DB::Get`. -/
def get (db : DB) (key : Bytes) : Option Bytes :=
  match db.memtable.get key with
  | some value => hide value
  | none =>
    match pendingGet db.flushQueue key with
    | some value => hide value
    | none =>
      match db.manifest.get key with
      | some value => hide value
      | none => none

/-- The first section of `DB::Put`: the write into the active memtable. -/
def write (db : DB) (key value : Bytes) : DB := { db with memtable := db.memtable.put key value }

/-- The second section: the test, repeated under the write lock, and the swap. -/
def swap (cfg : DBConfig) (db : DB) : DB × Option MemTable :=
  if db.memtable.binarySize > cfg.memtableMaxSize then
    ({ db with memtable := MemTable.empty }, some db.memtable)
  else (db, none)

/-- The third section: the old memtable goes to the end of the queue. -/
def enqueue (db : DB) (t : MemTable) : DB := { db with flushQueue := db.flushQueue ++ [t] }

/-- `DB::Put`. -/
def put (cfg : DBConfig) (db : DB) (key value : Bytes) : DB :=
  let db := db.write key value
  if db.memtable.binarySize ≤ cfg.memtableMaxSize then db
  else
    match db.swap cfg with
    | (db, none) => db
    | (db, some t) => db.enqueue t

/-- `DB::Delete`. -/
def delete (cfg : DBConfig) (db : DB) (key : Bytes) : DB := db.put cfg key tombstoneValue

/-- `DB::ToSST`, with the tables it writes.  The ids are `size_t` in the counter and `int`
in the SST.  An empty memtable has no table.  The tables are values, so this is the code as
long as every table is written under an id that the manifest does not have; a cascade that
goes past level 0 is not such a run (`ToSSTOk`). -/
def toSST (cfg : DBConfig) (db : DB) (t : MemTable) : Option (DB × List Creation) := do
  let id := db.sstId + 1
  let sst ← SST.ofMemTable? cfg.fileSize t (toInt32 id)
  let files := db.files.write sst
  let newManifest := db.manifest.insertAndUpdate sst
  if newManifest.canDoCompaction then
    let (m, cs) ← newManifest.sizeTieredCompactionAll cfg.fileSize (toInt32 (id + 1 : Nat))
    some ({ db with manifest := m, sstId := id + 1, files := files.writeAll cs },
      ⟨db.manifest, sst⟩ :: cs)
  else some ({ db with manifest := newManifest, sstId := id, files := files }, [⟨db.manifest, sst⟩])

/-- One turn of `DB::ToSSTLoop`: the front of the queue becomes a table.  With an empty
queue the thread waits. -/
def flush (cfg : DBConfig) (db : DB) : Option (DB × List Creation) :=
  match db.flushQueue with
  | [] => some (db, [])
  | t :: q => { db with flushQueue := q }.toSST cfg t

/-- Flushing the memtable compacts level 0 and finds level 1 over its limit after that. -/
def secondTurnOf (cfg : DBConfig) (db : DB) (t : MemTable) : Bool :=
  (SST.ofMemTable? cfg.fileSize t (toInt32 (db.sstId + 1 : Nat))).any fun sst =>
    (db.manifest.insertAndUpdate sst).overLimit 0 &&
      ((db.manifest.insertAndUpdate sst).sizeTieredCompaction cfg.fileSize 0
        (toInt32 (db.sstId + 2 : Nat))).any fun r => r.1.overLimit 1

/-- Ids are left for flushing the memtable, and its cascade stops after level 0.  The second turn
of a cascade writes over the file that it reads, and what comes of that the tables, which are
values here, do not say. -/
def ToSSTOk (cfg : DBConfig) (db : DB) (t : MemTable) : Prop :=
  db.sstId + 2 < 2 ^ 31 ∧ db.secondTurnOf cfg t = false

instance (cfg : DBConfig) (db : DB) (t : MemTable) : Decidable (db.ToSSTOk cfg t) :=
  inferInstanceAs (Decidable (_ ∧ _))

/-- The same of the next turn of the flush thread. -/
def FlushOk (cfg : DBConfig) (db : DB) : Prop := ∀ t ∈ db.flushQueue.head?, db.ToSSTOk cfg t

instance (cfg : DBConfig) (db : DB) : Decidable (db.FlushOk cfg) :=
  inferInstanceAs (Decidable (∀ t ∈ _, _))

/-! ### Reads -/

/-- What a lookup finds before tombstones are hidden. -/
def raw (db : DB) (key : Bytes) : Option Bytes :=
  (db.memtable.get key).or ((pendingGet db.flushQueue key).or (db.manifest.get key))

theorem get_eq (db : DB) (key : Bytes) : db.get key = (db.raw key).bind hide := by
  rw [get, raw]
  cases db.memtable.get key with
  | some v => rfl
  | none =>
    cases pendingGet db.flushQueue key with
    | some v => rfl
    | none => cases db.manifest.get key <;> rfl

theorem hide_tombstone : hide tombstoneValue = none := rfl

theorem hide_of_ne {v : Bytes} (h : v ≠ tombstoneValue) : hide v = some v := by
  rw [hide, isTombstone]
  simp [h]

theorem pendingGet_concat (q : List MemTable) (t : MemTable) (k : Bytes) :
    pendingGet (q ++ [t]) k = (t.get k).or (pendingGet q k) := by
  rw [pendingGet, List.reverse_append, List.reverse_singleton, List.singleton_append,
    List.findSome?_cons]
  cases t.get k <;> rfl

theorem pendingGet_append (p q : List MemTable) (k : Bytes) :
    pendingGet (p ++ q) k = (pendingGet q k).or (pendingGet p k) := by
  rw [pendingGet, List.reverse_append, List.findSome?_append]
  rfl

theorem pendingGet_cons (t : MemTable) (q : List MemTable) (k : Bytes) :
    pendingGet (t :: q) k = (pendingGet q k).or (t.get k) := by
  rw [← List.singleton_append, pendingGet_append]
  congr 1
  rw [pendingGet, List.reverse_singleton, List.findSome?_cons]
  cases t.get k <;> rfl

/-! ### Valid states -/

/-- A memtable that can become a table: not empty, and without the empty key. -/
def Flushable (t : MemTable) : Prop := t.entries ≠ [] ∧ ∀ e ∈ t.entries, e.1 ≠ []

/-- What the operations rely on. -/
structure Valid (db : DB) : Prop where
  manifest : db.manifest.WellFormed
  memtable : ∀ e ∈ db.memtable.entries, e.1 ≠ []
  queue : ∀ t ∈ db.flushQueue, Flushable t

theorem memtable_put_keys {t : MemTable} (h : ∀ e ∈ t.entries, e.1 ≠ []) {k : Bytes} (hk : k ≠ [])
    (v : Bytes) : ∀ e ∈ (t.put k v).entries, e.1 ≠ [] := by
  intro e he
  rw [MemTable.entries_put] at he
  rcases Lib.fst_mem_put he with h1 | h1
  · rw [h1]
    exact hk
  · exact h e h1

theorem empty_keys : ∀ e ∈ MemTable.empty.entries, e.1 ≠ [] := by
  simp

/-- The three outcomes of a `Put` are two: the memtable stays, or it goes to the queue. -/
theorem put_eq (cfg : DBConfig) (db : DB) (k v : Bytes) :
    db.put cfg k v =
      if (db.memtable.put k v).binarySize ≤ cfg.memtableMaxSize then db.write k v
      else { db with
        memtable := MemTable.empty, flushQueue := db.flushQueue ++ [db.memtable.put k v] } := by
  rw [put, swap, write]
  by_cases h : (db.memtable.put k v).binarySize ≤ cfg.memtableMaxSize
  · simp only [if_pos h]
  · simp only [if_neg h]
    rw [if_pos (Nat.lt_of_not_le h)]
    rfl

theorem Valid.put {db : DB} (h : db.Valid) (cfg : DBConfig) {k : Bytes} (hk : k ≠ []) (v : Bytes) :
    (db.put cfg k v).Valid := by
  have hkeys := memtable_put_keys h.memtable hk v
  rw [put_eq]
  split
  · exact ⟨h.manifest, hkeys, h.queue⟩
  · refine ⟨h.manifest, empty_keys, ?_⟩
    intro t ht
    rcases List.mem_append.mp ht with ht | ht
    · exact h.queue t ht
    · rw [List.mem_singleton.mp ht]
      exact ⟨MemTable.put_entries_ne_nil _ _ _, hkeys⟩

/-- **A write is what lookups of its key find, and no other lookup changes.** -/
theorem raw_put (cfg : DBConfig) (db : DB) (k v j : Bytes) :
    (db.put cfg k v).raw j = if j = k then some v else db.raw j := by
  rw [put_eq]
  split
  · rw [raw, write, MemTable.get_put, raw]
    split <;> rfl
  · rw [raw, pendingGet_concat, MemTable.get_put, raw]
    split
    · rfl
    · rw [Option.or_assoc]
      rfl

theorem get_put (cfg : DBConfig) (db : DB) (k v j : Bytes) :
    (db.put cfg k v).get j = if j = k then hide v else db.get j := by
  rw [get_eq, raw_put, get_eq]
  split <;> rfl

/-! ### Flushes -/

/-- What `ToSST` does: it inserts a table for the memtable, and may run a cascade. -/
inductive Flushed (cfg : DBConfig) (db : DB) (t : MemTable) : DB → List Creation → Prop
  | plain {sst : SST}
      (hsst : SST.ofMemTable? cfg.fileSize t (toInt32 (db.sstId + 1 : Nat)) = some sst)
      (hstop : (db.manifest.insertAndUpdate sst).overLimit 0 = false) :
      Flushed cfg db t
        { db with
          manifest := db.manifest.insertAndUpdate sst, sstId := db.sstId + 1,
          files := db.files.write sst }
        [⟨db.manifest, sst⟩]
  | compacted {sst : SST} {m : Manifest} {cs : List Creation}
      (hsst : SST.ofMemTable? cfg.fileSize t (toInt32 (db.sstId + 1 : Nat)) = some sst)
      (hover : (db.manifest.insertAndUpdate sst).overLimit 0 = true)
      (heq : (db.manifest.insertAndUpdate sst).sizeTieredCompactionAll cfg.fileSize
        (toInt32 (db.sstId + 2 : Nat)) = some (m, cs))
      (hc : Cascade cfg.fileSize (toInt32 (db.sstId + 2 : Nat)) 0 (db.manifest.insertAndUpdate sst)
        m cs) :
      Flushed cfg db t
        { db with
          manifest := m, sstId := db.sstId + 2, files := (db.files.write sst).writeAll cs }
        (⟨db.manifest, sst⟩ :: cs)

theorem exists_flushed (cfg : DBConfig) (db : DB) (h : db.manifest.Shaped) {t : MemTable}
    (ht : t.entries ≠ []) :
    ∃ db' cs, db.toSST cfg t = some (db', cs) ∧ Flushed cfg db t db' cs := by
  obtain ⟨sst, hsst⟩ := SST.exists_ofMemTable? cfg.fileSize ht (toInt32 (db.sstId + 1 : Nat))
  cases hc : (db.manifest.insertAndUpdate sst).canDoCompaction with
  | false =>
    refine ⟨_, _, ?_, Flushed.plain hsst (by rw [← Manifest.canDoCompaction_eq, hc])⟩
    rw [toSST]
    simp only [hsst, Option.bind_eq_bind, Option.bind_some, hc]
    rfl
  | true =>
    obtain ⟨m, cs, heq, hcas⟩ := (h.insertAndUpdate sst).exists_cascade cfg.fileSize
      (toInt32 (db.sstId + 2 : Nat)) (n := maxLevelSize) (i := 0) (by omega)
    refine ⟨_, _, ?_, Flushed.compacted hsst (by rw [← Manifest.canDoCompaction_eq, hc]) heq hcas⟩
    have heq' : (db.manifest.insertAndUpdate sst).sizeTieredCompactionAll cfg.fileSize
        (toInt32 (db.sstId + 1 + 1 : Nat)) = some (m, cs) := heq
    rw [toSST]
    simp only [hsst, Option.bind_eq_bind, Option.bind_some, hc, heq', if_true]

section

variable {cfg : DBConfig} {db db' : DB} {t : MemTable} {cs : List Creation}

theorem Flushed.memtable_eq (h : Flushed cfg db t db' cs) : db'.memtable = db.memtable := by
  cases h <;> rfl

theorem Flushed.flushQueue_eq (h : Flushed cfg db t db' cs) : db'.flushQueue = db.flushQueue := by
  cases h <;> rfl

theorem Flushed.shaped (h : Flushed cfg db t db' cs) (hm : db.manifest.Shaped) :
    db'.manifest.Shaped := by
  cases h with
  | plain hsst hstop => exact hm.insertAndUpdate _
  | compacted hsst hover heq hc => exact hc.shaped (hm.insertAndUpdate _)

/-- **The flushed memtable is read before the old tables.** -/
theorem Flushed.reads (h : Flushed cfg db t db' cs) (hm : db.manifest.WellFormed)
    (ht : Flushable t) :
    db'.manifest.WellFormed ∧ ∀ k, db'.manifest.get k = (t.get k).or (db.manifest.get k) := by
  have hinsert : ∀ sst, SST.ofMemTable? cfg.fileSize t (toInt32 (db.sstId + 1 : Nat)) = some sst →
      (db.manifest.insertAndUpdate sst).WellFormed ∧
        ∀ k, (db.manifest.insertAndUpdate sst).get k = (t.get k).or (db.manifest.get k) := by
    intro sst hsst
    have hent := (SST.of_ofMemTable? hsst).2.1
    have hk : ∀ e ∈ sst.entries, e.1 ≠ [] := by
      rw [hent]
      exact ht.2
    refine ⟨hm.insertAndUpdate hk, ?_⟩
    intro k
    rw [hm.get_insertAndUpdate hk, hent]
    rfl
  cases h with
  | plain hsst hstop => exact hinsert _ hsst
  | compacted hsst hover heq hc =>
    obtain ⟨hwf, hget⟩ := hinsert _ hsst
    obtain ⟨hwf', hget'⟩ := hc.reads hwf
    exact ⟨hwf', fun k => (hget' k).trans (hget k)⟩

end

/-- **A flush changes no lookup.** -/
theorem Valid.flush {db : DB} (h : db.Valid) (cfg : DBConfig) :
    ∃ db' cs, db.flush cfg = some (db', cs) ∧ db'.Valid ∧ ∀ k, db'.raw k = db.raw k := by
  rw [DB.flush]
  cases hq : db.flushQueue with
  | nil => exact ⟨db, [], rfl, h, fun _ => rfl⟩
  | cons t q =>
    have ht : Flushable t := h.queue t (by rw [hq]; exact List.mem_cons_self)
    obtain ⟨db', cs, heq, hf⟩ :=
      exists_flushed cfg { db with flushQueue := q } h.manifest.toShaped ht.1
    obtain ⟨hwf, hreads⟩ := hf.reads h.manifest ht
    refine ⟨db', cs, heq, ⟨hwf, ?_, ?_⟩, ?_⟩
    · rw [hf.memtable_eq]
      exact h.memtable
    · intro u hu
      rw [hf.flushQueue_eq] at hu
      exact h.queue u (by rw [hq]; exact List.mem_cons_of_mem _ hu)
    · intro k
      rw [raw, hf.memtable_eq, hf.flushQueue_eq, hreads, raw, hq, pendingGet_cons,
        Option.or_assoc]

end DB

end Mokv
