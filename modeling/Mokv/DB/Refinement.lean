import Mokv.Lib.Run
import Mokv.DB.Basic

/-!
# The database as a map

One client puts, deletes and gets; the flush thread takes the front of the queue as
often as it likes in between.  What the database is for is one sentence: a lookup
answers with the last write of its key.  `lastWrite` is that sentence as a function of
the history, and `run_raw` carries it along every run: what a lookup finds in the
memtables and levels is the value last written, a deletion being the tombstone.
-/

namespace Mokv

open LSM Lib

/-- `DB::DB` on a directory without a manifest. -/
def DB.new (files : Files) : DB := ⟨MemTable.empty, [], Manifest.new, 0, files⟩

/-- What the client and the flush thread do. -/
inductive Op where
  | put (key value : Bytes)
  | delete (key : Bytes)
  | get (key : Bytes)
  | flush
deriving DecidableEq

/-- The keys and values a client may use. -/
def Op.Ok : Op → Prop
  | put key value => key ≠ [] ∧ value ≠ tombstoneValue
  | delete key => key ≠ []
  | get key => key ≠ []
  | flush => True

instance : DecidablePred Op.Ok
  | .put key value => inferInstanceAs (Decidable (key ≠ [] ∧ value ≠ tombstoneValue))
  | .delete key => inferInstanceAs (Decidable (key ≠ []))
  | .get key => inferInstanceAs (Decidable (key ≠ []))
  | .flush => isTrue trivial

/-- One operation. -/
def DB.step (cfg : DBConfig) (db : DB) : Op → Option DB
  | .put key value => some (db.put cfg key value)
  | .delete key => some (db.delete cfg key)
  | .get _ => some db
  | .flush => (db.flush cfg).map Prod.fst

/-! ### The last write -/

/-- A write of some key. -/
inductive Write where
  | put (value : Bytes)
  | delete
deriving DecidableEq

/-- The write of the key that an operation is, if it is one. -/
def Op.writeTo (k : Bytes) : Op → Option Write
  | put key value => if k = key then some (.put value) else none
  | delete key => if k = key then some .delete else none
  | get _ => none
  | flush => none

/-- The last write of a key in a history. -/
def lastWrite (k : Bytes) (ops : List Op) : Option Write := ops.reverse.findSome? (Op.writeTo k)

theorem lastWrite_concat (k : Bytes) (ops : List Op) (op : Op) :
    lastWrite k (ops ++ [op]) = (op.writeTo k).or (lastWrite k ops) := by
  rw [lastWrite, List.reverse_append, List.reverse_singleton, List.singleton_append,
    List.findSome?_cons]
  cases op.writeTo k <;> rfl

/-- The value stored for a write. -/
def Write.stored : Write → Bytes
  | put value => value
  | delete => tombstoneValue

/-- The value a write leaves for readers. -/
def Write.visible : Write → Option Bytes
  | put value => some value
  | delete => none

theorem mem_of_lastWrite {k : Bytes} {ops : List Op} {w : Write} (h : lastWrite k ops = some w) :
    ∃ op ∈ ops, op.writeTo k = some w := by
  obtain ⟨op, hop, hw⟩ := List.exists_of_findSome?_eq_some h
  exact ⟨op, List.mem_reverse.mp hop, hw⟩

theorem hide_stored {k : Bytes} {op : Op} {w : Write} (hop : op.Ok) (h : op.writeTo k = some w) :
    DB.hide w.stored = w.visible := by
  cases w with
  | delete => exact DB.hide_tombstone
  | put value =>
    cases op with
    | put key value' =>
      rw [Op.writeTo] at h
      split at h
      · obtain rfl : value' = value := Write.put.inj (Option.some.inj h)
        exact DB.hide_of_ne hop.2
      · cases h
    | delete key =>
      rw [Op.writeTo] at h
      split at h <;> cases h
    | get key => cases h
    | flush => cases h

/-! ### Runs -/

theorem DB.valid_new (files : Files) : (DB.new files).Valid := by
  refine ⟨⟨⟨by simp [DB.new, Manifest.new], ?_⟩, ?_, ?_⟩, DB.empty_keys, by simp [DB.new]⟩
  · intro i l hi
    cases i with
    | zero => exact (congrArg Level.level (Option.some.inj hi)).symm
    | succ i => simp [DB.new, Manifest.new] at hi
  · simp [DB.new, Manifest.new]
  · simp [DB.new, Manifest.new]

theorem DB.raw_new (files : Files) (k : Bytes) : (DB.new files).raw k = none := rfl

/-- One operation: it succeeds, and only its own key changes. -/
theorem DB.Valid.step {db : DB} (h : db.Valid) (cfg : DBConfig) {op : Op} (hop : op.Ok) :
    ∃ db', db.step cfg op = some db' ∧ db'.Valid ∧
      ∀ k, db'.raw k = ((op.writeTo k).map Write.stored).or (db.raw k) := by
  cases op with
  | put key value =>
    refine ⟨_, rfl, h.put cfg hop.1 value, ?_⟩
    intro k
    rw [DB.raw_put, Op.writeTo]
    split <;> rfl
  | delete key =>
    refine ⟨_, rfl, h.put cfg hop tombstoneValue, ?_⟩
    intro k
    rw [DB.delete, DB.raw_put, Op.writeTo]
    split <;> rfl
  | get key => exact ⟨db, rfl, h, fun _ => rfl⟩
  | flush =>
    obtain ⟨db', cs, heq, hv, hraw⟩ := h.flush cfg
    exact ⟨db', by rw [DB.step, heq]; rfl, hv, hraw⟩

/-- **Along every run a lookup finds what was stored last.** -/
theorem run_raw (cfg : DBConfig) (files : Files) (ops : List Op) (hops : ∀ op ∈ ops, op.Ok) :
    ∃ db, run (DB.step cfg) (DB.new files) ops = some db ∧ db.Valid ∧
      ∀ k, db.raw k = (lastWrite k ops).map Write.stored := by
  induction ops using List.reverseRecOn with
  | nil => exact ⟨_, rfl, DB.valid_new files, DB.raw_new files⟩
  | append_singleton ops op ih =>
    obtain ⟨db, hrun, hv, hraw⟩ := ih fun o ho => hops o (List.mem_append_left _ ho)
    obtain ⟨db', hstep, hv', hraw'⟩ :=
      hv.step cfg (hops op (List.mem_append_right _ (List.mem_singleton_self op)))
    refine ⟨db', run_concat.mpr ⟨db, hrun, hstep⟩, hv', ?_⟩
    intro k
    rw [hraw', hraw, lastWrite_concat]
    cases op.writeTo k <;> rfl

/-- **The database refines a map.**  After any history a lookup answers `v` exactly when
the last write of its key put `v`, and finds nothing when there was none or it was a
deletion. -/
theorem get_eq_lastWrite (cfg : DBConfig) (files : Files) (ops : List Op)
    (hops : ∀ op ∈ ops, op.Ok) :
    ∃ db, run (DB.step cfg) (DB.new files) ops = some db ∧ ∀ k, k ≠ [] →
      (∀ v, db.get k = some v ↔ lastWrite k ops = some (.put v)) ∧
      (db.get k = none ↔ lastWrite k ops = none ∨ lastWrite k ops = some .delete) := by
  obtain ⟨db, hrun, -, hraw⟩ := run_raw cfg files ops hops
  refine ⟨db, hrun, ?_⟩
  intro k _
  have hget : db.get k = (lastWrite k ops).bind Write.visible := by
    rw [DB.get_eq, hraw]
    cases hw : lastWrite k ops with
    | none => rfl
    | some w =>
      obtain ⟨op, hop, hto⟩ := mem_of_lastWrite hw
      exact hide_stored (hops op hop) hto
  rw [hget]
  cases lastWrite k ops with
  | none => simp
  | some w => cases w <;> simp [Write.visible]

/-- With a limit of two bytes every other put here goes through the queue. -/
def sampleOps : List Op :=
  [.put [1] [10], .put [2] [20], .flush, .delete [1], .get [2], .put [2] [21], .flush,
    .put [3] [30]]

theorem get_eq_lastWrite_sample :
    (∀ op ∈ sampleOps, op.Ok) ∧
      ∃ db, run (DB.step ⟨2, payload⟩) (DB.new fun _ => none) sampleOps = some db ∧
        ∀ k, k ≠ [] → (∀ v, db.get k = some v ↔ lastWrite k sampleOps = some (.put v)) ∧
          (db.get k = none ↔ lastWrite k sampleOps = none ∨ lastWrite k sampleOps = some .delete) :=
  ⟨by decide, get_eq_lastWrite ⟨2, payload⟩ (fun _ => none) sampleOps (by decide)⟩

end Mokv
