import Mathlib.Algebra.Order.BigOperators.Group.List
import Mathlib.Algebra.Order.Ring.Nat
import Mokv.Lib.Run
import Mokv.KVStore.Ledger

/-!
# The books of a single caller

One caller puts, deletes, batches and clears; the flush thread of the database may run in
between.  After every operation the list of keys is the set of the keys that are present,
the byte counter is the sum of their sizes, and the stored index is the list
(`bookkeeping`), as long as no flush meets the empty key or writes over a file that it reads.
A compaction takes the empty key for no key and may hide another one
(`listed_key_not_found`).
-/

namespace Mokv

open Lib

namespace DBKVStore

/-- What the caller and the flush thread do. -/
inductive Op where
  | put (key value : Bytes)
  | delete (key : Bytes)
  | batch (entries : List Entry)
  | batchDelete (keys : List Bytes)
  | clear
  | flush
deriving DecidableEq

/-- One operation. -/
def step (cfg : DBConfig) (s : DBKVStore) : Op → Option DBKVStore
  | .put key value => some (s.put cfg key value).1
  | .delete key => some (s.delete cfg key).1
  | .batch entries => some (s.batch cfg entries).1
  | .batchDelete keys => some (s.batchDelete cfg keys).1
  | .clear => some (s.clear cfg).1
  | .flush => (s.db.flush cfg).map fun r => { s with db := r.1 }

/-- No value is the tombstone.  A flush is of a valid database, as it is while nobody writes
the empty key, and its cascade stops after level 0. -/
def Op.Ok (cfg : DBConfig) (s : DBKVStore) : Op → Prop
  | .put _ value => value ≠ tombstoneValue
  | .batch entries => ∀ e ∈ entries, e.2 ≠ tombstoneValue
  | .flush => s.db.Valid ∧ s.db.FlushOk cfg
  | _ => True

/-- The operation writes a key. -/
def Op.Writes : Op → Prop
  | .put key _ => isReservedKey key = false
  | .batch entries => ∃ e, entries.head? = some e ∧ isReservedKey e.1 = false
  | _ => False

/-- The bytes of the keys and of their values. -/
def contentSize (s : DBKVStore) : Nat := (s.listKeys.map fun k => entrySize k (s.get k)).sum

theorem get_eq {s : DBKVStore} (h : s.closed = false) (k : Bytes) : s.get k = s.db.get k := by
  rw [get, healthCheck, h]
  rfl

theorem refusal_eq {s : DBKVStore} (h : s.closed = false) (k : Bytes) :
    s.refusal k = if isReservedKey k then
      some (.fail "reserved key prefix is managed by mokv") else none := by
  rw [refusal, healthCheck, h]
  rfl

section

variable (cfg : DBConfig) {s : DBKVStore}

theorem put_eq (h : s.closed = false) (key value : Bytes) :
    (s.put cfg key value).1 =
      if isReservedKey key then s
      else
        let c := Change.put key value (s.db.get key)
        c.note cfg (c.commit cfg s) := by
  rw [put, refusal_eq h]
  by_cases hr : isReservedKey key = true
  · simp only [if_pos hr]
  · simp only [if_neg hr, get_eq h]
    rfl

theorem delete_eq (h : s.closed = false) (key : Bytes) :
    (s.delete cfg key).1 =
      if isReservedKey key then s
      else
        match s.db.get key with
        | none => s
        | some previous =>
          let c := Change.delete key previous
          c.note cfg (c.commit cfg s) := by
  rw [delete, refusal_eq h]
  by_cases hr : isReservedKey key = true
  · simp only [if_pos hr]
  · simp only [if_neg hr, get_eq h]
    cases s.db.get key <;> rfl

theorem Ledger.change (h : Ledger [] s) {c : Change} (hc : c.Ok)
    (hbefore : c.before = s.db.get c.key) : Ledger [] (c.note cfg (c.commit cfg s)) :=
  Ledger.note (a := []) (b := []) (h.commit cfg hc (by rw [hbefore])) cfg (by simp)

theorem Ledger.put (h : Ledger [] s) (key : Bytes) {value : Bytes} (hv : value ≠ tombstoneValue) :
    Ledger [] (s.put cfg key value).1 := by
  rw [put_eq cfg h.healthy]
  split
  · exact h
  · have hkey : isReservedKey key = false := by simpa using ‹¬ isReservedKey key = true›
    exact h.change cfg ⟨hkey, fun he => hv (Option.some.inj he)⟩ rfl

theorem Ledger.delete (h : Ledger [] s) (key : Bytes) : Ledger [] (s.delete cfg key).1 := by
  rw [delete_eq cfg h.healthy]
  split
  · exact h
  · have hkey : isReservedKey key = false := by simpa using ‹¬ isReservedKey key = true›
    split
    · exact h
    · rename_i previous hp
      exact h.change cfg ⟨hkey, by simp [Change.after]⟩ hp.symm

end

theorem untilFailure_induction {α : Type} {call : DBKVStore → α → DBKVStore × KVResult}
    {P : DBKVStore → Prop} {as : List α} (hcall : ∀ s, ∀ a ∈ as, P s → P (call s a).1)
    {s : DBKVStore} (hs : P s) : P (untilFailure call s as).1 := by
  induction as generalizing s with
  | nil => exact hs
  | cons a as ih =>
    have ha : P (call s a).1 := hcall s a List.mem_cons_self hs
    rw [untilFailure]
    show P (if (call s a).2.success then _ else call s a).1
    split
    · exact ih (fun t b hb => hcall t b (List.mem_cons_of_mem _ hb)) ha
    · exact ha

/-! ### Runs -/

theorem ofDB_new (files : LSM.Files) :
    ofDB (DB.new files) = ⟨DB.new files, [], 0, false⟩ := rfl

theorem get_new (files : LSM.Files) (k : Bytes) : (DB.new files).get k = none := rfl

theorem ledger_new (files : LSM.Files) : Ledger [] (ofDB (DB.new files)) := by
  rw [ofDB_new]
  refine ⟨rfl, by simp, List.nodup_nil, by simp, ?_, by simp [lastOn_nil], Nat.two_pow_pos 64, ?_,
    Or.inr ⟨get_new files _, rfl⟩⟩
  · intro k _ _
    rw [get_new]
    simp
  · intro keys _
    have hzero : ∑ k ∈ keys, entrySize k ((DB.new files).get k) = 0 := by
      refine Finset.sum_eq_zero ?_
      intro k _
      rw [get_new]
      rfl
    rw [hzero]
    rfl

section

variable {cfg : DBConfig} {s t : DBKVStore}

/-- **Every operation is made of puts, deletes and flushes.**  What these carry, a step
carries; a flush is seen only through what the database answers. -/
theorem step_induction {P : DBKVStore → Prop}
    (hput : ∀ s key value, value ≠ tombstoneValue → P s → P (s.put cfg key value).1)
    (hdelete : ∀ s key, P s → P (s.delete cfg key).1)
    (hflush : ∀ s db, (∀ k, db.get k = s.db.get k) → P s → P { s with db := db })
    {op : Op} (hop : op.Ok cfg s) (ht : step cfg s op = some t) (h : P s) : P t := by
  cases op with
  | put key value =>
    cases ht
    exact hput s key value hop h
  | delete key =>
    cases ht
    exact hdelete s key h
  | batch entries =>
    cases ht
    exact untilFailure_induction (fun s e he => hput s e.1 e.2 (hop e he)) h
  | batchDelete keys =>
    cases ht
    exact untilFailure_induction (fun s key _ => hdelete s key) h
  | clear =>
    cases ht
    exact untilFailure_induction (fun s key _ => hdelete s key) h
  | flush =>
    obtain ⟨db', cs, heq, -, hraw⟩ := hop.1.flush cfg
    rw [step, heq] at ht
    cases ht
    exact hflush s db' (fun k => by rw [DB.get_eq, hraw, DB.get_eq]) h

theorem Ledger.step (h : Ledger [] s) {op : Op} (hop : op.Ok cfg s)
    (ht : DBKVStore.step cfg s op = some t) : Ledger [] t :=
  step_induction (fun _ key _ hv hs => hs.put cfg key hv) (fun _ key hs => hs.delete cfg key)
    (fun _ _ hget hs => hs.of_get_eq hget) hop ht h

/-- Open, and the stored index is the list of keys. -/
def OpenIndexed (s : DBKVStore) : Prop := s.closed = false ∧ Indexed s

theorem Change.openIndexed (c : Change) (h : s.closed = false) :
    OpenIndexed (c.note cfg (c.commit cfg s)) := by
  refine ⟨?_, c.indexed_note cfg _⟩
  cases c <;> exact h

theorem OpenIndexed.put (h : OpenIndexed s) (key value : Bytes) :
    OpenIndexed (s.put cfg key value).1 := by
  rw [put_eq cfg h.1]
  split
  · exact h
  · exact Change.openIndexed _ h.1

theorem OpenIndexed.delete (h : OpenIndexed s) (key : Bytes) :
    OpenIndexed (s.delete cfg key).1 := by
  rw [delete_eq cfg h.1]
  split
  · exact h
  · split
    · exact h
    · exact Change.openIndexed _ h.1

theorem OpenIndexed.step (h : OpenIndexed s) {op : Op} (hop : op.Ok cfg s)
    (ht : DBKVStore.step cfg s op = some t) : OpenIndexed t :=
  step_induction (fun _ key value _ hs => hs.put key value) (fun _ key hs => hs.delete key)
    (fun _ _ hget hs => ⟨hs.1, (hget kMetaKeyIndex).trans hs.2⟩) hop ht h

theorem openIndexed_put (h : s.closed = false) {key : Bytes} (hk : isReservedKey key = false)
    (value : Bytes) : OpenIndexed (s.put cfg key value).1 := by
  rw [put_eq cfg h, if_neg (by rw [hk]; simp)]
  exact Change.openIndexed _ h

theorem Op.Writes.openIndexed {op : Op} (hw : op.Writes) (h : s.closed = false)
    (ht : DBKVStore.step cfg s op = some t) : OpenIndexed t := by
  cases op with
  | put key value =>
    cases ht
    exact openIndexed_put h hw value
  | batch entries =>
    cases ht
    obtain ⟨e, he, hr⟩ := hw
    cases entries with
    | nil => cases he
    | cons e' entries =>
      obtain rfl : e' = e := Option.some.inj he
      have h1 : OpenIndexed (s.put cfg e'.1 e'.2).1 := openIndexed_put h hr e'.2
      show OpenIndexed (if (s.put cfg e'.1 e'.2).2.success then _ else s.put cfg e'.1 e'.2).1
      split
      · exact untilFailure_induction (fun s e _ hs => hs.put e.1 e.2) h1
      · exact h1
  | delete key => exact hw.elim
  | batchDelete keys => exact hw.elim
  | clear => exact hw.elim
  | flush => exact hw.elim

theorem exists_step (s : DBKVStore) (op : Op) (hop : op.Ok cfg s) :
    ∃ t, step cfg s op = some t := by
  cases op with
  | flush =>
    obtain ⟨db', cs, heq, -, -⟩ := hop.1.flush cfg
    exact ⟨_, by rw [step, heq]; rfl⟩
  | _ => exact ⟨_, rfl⟩

/-! ### Without the empty key -/

/-- The values are no tombstones and the keys are not empty. -/
def Op.Plain : Op → Prop
  | .put key value => key ≠ [] ∧ value ≠ tombstoneValue
  | .delete key => key ≠ []
  | .batch entries => ∀ e ∈ entries, e.1 ≠ [] ∧ e.2 ≠ tombstoneValue
  | .batchDelete keys => ∀ key ∈ keys, key ≠ []
  | .clear => True
  | .flush => True

instance : DecidablePred Op.Plain
  | .put key value => inferInstanceAs (Decidable (key ≠ [] ∧ value ≠ tombstoneValue))
  | .delete key => inferInstanceAs (Decidable (key ≠ []))
  | .batch entries =>
    inferInstanceAs (Decidable (∀ e ∈ entries, e.1 ≠ [] ∧ e.2 ≠ tombstoneValue))
  | .batchDelete keys => inferInstanceAs (Decidable (∀ key ∈ keys, key ≠ []))
  | .clear => isTrue trivial
  | .flush => isTrue trivial

/-- The database is valid and the empty key is not in the list. -/
structure Clean (s : DBKVStore) : Prop where
  valid : s.db.Valid
  known : [] ∉ s.knownKeys

theorem Clean.change (h : Clean s) {c : Change} (hk : c.key ≠ []) :
    Clean (c.note cfg (c.commit cfg s)) := by
  have hmeta : kMetaKeyIndex ≠ [] := by decide
  have hknown : [] ∉ (c.note cfg (c.commit cfg s)).knownKeys := by
    rw [c.mem_note_of_ne cfg _ (Ne.symm hk)]
    exact h.known
  refine ⟨?_, hknown⟩
  cases c <;> exact (h.valid.put cfg hk _).put cfg hmeta _

theorem Clean.put (h : Clean s) {key : Bytes} (hk : key ≠ []) (value : Bytes) :
    Clean (s.put cfg key value).1 := by
  unfold DBKVStore.put
  split
  · exact h
  · exact Clean.change (c := .put key value (s.get key)) h hk

theorem Clean.delete (h : Clean s) {key : Bytes} (hk : key ≠ []) :
    Clean (s.delete cfg key).1 := by
  unfold DBKVStore.delete
  split
  · exact h
  · split
    · exact h
    · exact Clean.change (c := .delete key _) h hk

theorem Clean.step (h : Clean s) {op : Op} (hop : op.Plain)
    (ht : DBKVStore.step cfg s op = some t) : Clean t := by
  cases op with
  | put key value =>
    cases ht
    exact h.put hop.1 value
  | delete key =>
    cases ht
    exact h.delete hop
  | batch entries =>
    cases ht
    exact untilFailure_induction (fun s e he hs => hs.put (hop e he).1 e.2) h
  | batchDelete keys =>
    cases ht
    exact untilFailure_induction (fun s key hk hs => hs.delete (hop key hk)) h
  | clear =>
    cases ht
    exact untilFailure_induction (fun s' key hk hs => hs.delete fun he => h.known (he ▸ hk)) h
  | flush =>
    obtain ⟨db', cs, heq, hv, -⟩ := h.valid.flush cfg
    rw [DBKVStore.step, heq] at ht
    cases ht
    exact ⟨hv, h.known⟩

theorem stepsOk_of_plain (h : Clean s) {ops : List Op} (hops : ∀ op ∈ ops, op.Plain)
    (hturns : StepsOk (DBKVStore.step cfg) (fun s op => op = .flush → s.db.FlushOk cfg) s ops) :
    StepsOk (DBKVStore.step cfg) (Op.Ok cfg) s ops := by
  induction ops generalizing s with
  | nil => trivial
  | cons op ops ih =>
    have hop := hops op List.mem_cons_self
    refine ⟨?_, fun t ht =>
      ih (h.step hop ht) (fun o ho => hops o (List.mem_cons_of_mem _ ho)) (hturns.2 t ht)⟩
    cases op with
    | put key value => exact hop.2
    | batch entries => exact fun e he => (hop e he).2
    | flush => exact ⟨h.valid, hturns.1 rfl⟩
    | _ => trivial

/-! ### What the books say -/

theorem Ledger.mem_listKeys (h : Ledger [] s) (k : Bytes) :
    k ∈ s.listKeys ↔ isReservedKey k = false ∧ (s.get k).isSome := by
  rw [get_eq h.healthy]
  constructor
  · intro hk
    have hr := h.key k hk
    exact ⟨hr, (h.settled k hr (lastOn_nil k)).mp hk⟩
  · intro hk
    exact (h.settled k hk.1 (lastOn_nil k)).mpr hk.2

theorem Ledger.covers (h : Ledger [] s) : Covers s s.knownKeys.toFinset := by
  constructor
  · intro k hk
    exact h.key k (List.mem_toFinset.mp hk)
  · intro k hk hp
    exact List.mem_toFinset.mpr ((h.settled k hk (lastOn_nil k)).mpr hp)

theorem Ledger.bytesSize_eq (h : Ledger [] s) : s.bytesSize = s.contentSize % 2 ^ 64 := by
  have hsum : ∑ k ∈ s.knownKeys.toFinset, entrySize k (s.db.get k) = s.contentSize := by
    rw [contentSize, List.sum_toFinset _ h.nodup]
    simp only [get_eq h.healthy]
    rfl
  have hmod := h.bytes _ h.covers
  rw [hsum, List.map_nil, List.sum_nil, Int.add_zero] at hmod
  have hnat : s.trackedBytesSize % 2 ^ 64 = s.contentSize % 2 ^ 64 := by
    have hmod' : ((s.trackedBytesSize : Int)) % 2 ^ 64 = (s.contentSize : Int) % 2 ^ 64 := hmod
    omega
  rw [← hnat, bytesSize, Nat.mod_eq_of_lt h.fits]

theorem Ledger.entry_le (h : Ledger [] s) {k v : Bytes} (hr : isReservedKey k = false)
    (hv : s.get k = some v) : k.length + v.length ≤ s.contentSize := by
  have hk : k ∈ s.listKeys := (h.mem_listKeys k).mpr ⟨hr, by rw [hv]; rfl⟩
  refine List.le_sum_of_mem (List.mem_map.mpr ⟨k, hk, ?_⟩)
  rw [hv]
  rfl

end

/-- An overwrite, a flush, a batch that meets a reserved key, and a deletion. -/
def sampleOps : List Op :=
  [.put [1] [10], .put [1] [11, 12], .flush, .batch [([2], [20]), (kMetaKeyIndex, []), ([3], [])],
    .delete [1]]

/-- Every put brings two memtables to the queue, its own and the index. -/
def emptyKeyOps : List Op :=
  [.put [65] (List.replicate 1000 7), .flush, .flush, .put [120] [1], .flush, .flush,
    .put [] (List.replicate 1000 7), .flush, .flush]

end DBKVStore

end Mokv
