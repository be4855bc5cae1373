import Mathlib.Data.List.Induction
import Mokv.LSM.MemTable

/-!
# Batched writes

`BatchCommit` and `BatchTransaction` (`mokv/lsm/batch_commit.hpp`): puts and deletes are
recorded while the batch is active and applied to a memtable by `Commit`.

`Recorded log entries`: the calls that the batch received since the latest `Begin` are just
the recording of `entries`.  The batch is active exactly then, and holds `entries`
(`Tracks`); `commit_effect` is what follows for the memtables.
-/

namespace Mokv.LSM

/-- `BatchEntry`. -/
inductive BatchEntry where
  | put (key value : Bytes)
  | delete (key : Bytes)
deriving DecidableEq

/-- `BatchStatus`. -/
inductive BatchStatus where
  | idle
  | active
  | committing
  | rolledBack
deriving DecidableEq

/-- `BatchCommit`. -/
structure BatchCommit where
  status : BatchStatus
  entries : List BatchEntry
  size : Nat
deriving DecidableEq

/-- What `Commit` does with an entry. -/
def BatchEntry.apply (m : MemTable) : BatchEntry → MemTable
  | .put key value => m.put key value
  | .delete key => m.delete key

namespace BatchCommit

/-- `BatchCommit()`. -/
def new : BatchCommit := ⟨.idle, [], 0⟩

/-- `Begin`, in any state. -/
def begin (_ : BatchCommit) : BatchCommit := ⟨.active, [], 0⟩

/-- `BatchPut`. -/
def batchPut (b : BatchCommit) (key value : Bytes) : BatchCommit :=
  if b.status ≠ .active then b
  else { b with
    entries := b.entries ++ [.put key value]
    size := addSize b.size (key.length + value.length) }

/-- `BatchDelete`. -/
def batchDelete (b : BatchCommit) (key : Bytes) : BatchCommit :=
  if b.status ≠ .active then b
  else { b with
    entries := b.entries ++ [.delete key]
    size := addSize b.size key.length }

/-- `Commit`.  The entries stay where they are. -/
def commit (b : BatchCommit) (memtable : MemTable) : BatchCommit × MemTable × Bool :=
  if b.status ≠ .active then (b, memtable, false)
  else
    let b := { b with status := .committing }
    let memtable := b.entries.foldl BatchEntry.apply memtable
    ({ b with status := .idle }, memtable, true)

/-- `Rollback`. -/
def rollback (b : BatchCommit) : BatchCommit :=
  if b.status = .active then ⟨.rolledBack, [], 0⟩ else b

end BatchCommit

/-- The calls of a batch.  `Commit` is given one of the memtables. -/
inductive BatchCall where
  | begin
  | put (key value : Bytes)
  | delete (key : Bytes)
  | commit (table : Nat)
  | rollback
deriving DecidableEq

/-- What a call records. -/
def BatchCall.entry? : BatchCall → Option BatchEntry
  | .put key value => some (.put key value)
  | .delete key => some (.delete key)
  | _ => none

/-- The calls of a transaction.  Its destructor does what `Rollback` does. -/
inductive TransactionCall where
  | put (key value : Bytes)
  | delete (key : Bytes)
  | commit (table : Nat)
  | rollback
deriving DecidableEq

/-- A call of the batch itself, or through its transaction. -/
inductive Call where
  | batch (call : BatchCall)
  | transaction (call : TransactionCall)
deriving DecidableEq

/-- The call that a transaction passes on to its batch. -/
def TransactionCall.toBatch : TransactionCall → BatchCall
  | .put key value => .put key value
  | .delete key => .delete key
  | .commit table => .commit table
  | .rollback => .rollback

/-- A batch, `committed_` of its transaction, the memtables, and the calls that the batch got. -/
structure BatchState where
  batch : BatchCommit
  committed : Bool
  tables : Nat → MemTable
  log : List BatchCall

namespace BatchState

/-- A new batch.  The constructor of `BatchTransaction` begins it. -/
def start (tables : Nat → MemTable) : BatchState := ⟨.new, false, tables, []⟩

/-- A call of the batch, and what `Commit` returns. -/
def receive (s : BatchState) (call : BatchCall) : BatchState × Bool :=
  let s := { s with log := s.log ++ [call] }
  match call with
  | .begin => ({ s with batch := s.batch.begin }, false)
  | .put key value => ({ s with batch := s.batch.batchPut key value }, false)
  | .delete key => ({ s with batch := s.batch.batchDelete key }, false)
  | .commit table =>
    let r := s.batch.commit (s.tables table)
    ({ s with batch := r.1, tables := Function.update s.tables table r.2.1 }, r.2.2)
  | .rollback => ({ s with batch := s.batch.rollback }, false)

/-- `BatchTransaction::Put`, `Delete`, `Commit` and `Rollback`. -/
def transact (s : BatchState) (call : TransactionCall) : BatchState × Bool :=
  match call with
  | .put _ _ | .delete _ => s.receive call.toBatch
  | .commit _ =>
    if s.committed then (s, false)
    else
      let r := s.receive call.toBatch
      ({ r.1 with committed := r.2 }, r.2)
  | .rollback => if s.committed then (s, false) else s.receive call.toBatch

/-- One call. -/
def step (s : BatchState) : Call → BatchState × Bool
  | .batch call => s.receive call
  | .transaction call => s.transact call

/-- The state after some calls. -/
def exec (s : BatchState) (calls : List Call) : BatchState :=
  calls.foldl (fun s call => (s.step call).1) s

end BatchState

/-! ### What a batch of entries does -/

/-- The key of an entry, and what `Get` finds there afterwards. -/
def BatchEntry.key : BatchEntry → Bytes
  | .put key _ => key
  | .delete key => key

def BatchEntry.value? : BatchEntry → Option Bytes
  | .put _ value => some value
  | .delete _ => none

theorem BatchEntry.get_apply (m : MemTable) (e : BatchEntry) (k : Bytes) :
    (e.apply m).get k = if e.key = k then e.value? else m.get k := by
  cases e with
  | put key value =>
    rw [apply, MemTable.get_put]
    exact if_congr eq_comm rfl rfl
  | delete key =>
    rw [apply, MemTable.get_delete]
    exact if_congr eq_comm rfl rfl

/-- **The later entry of a key wins.** -/
theorem get_foldl_apply (entries : List BatchEntry) (m : MemTable) (k : Bytes) :
    (entries.foldl BatchEntry.apply m).get k =
      ((entries.reverse.find? fun e => e.key = k).map BatchEntry.value?).getD (m.get k) := by
  induction entries using List.reverseRecOn with
  | nil => rfl
  | append_singleton entries e ih =>
    rw [List.foldl_append, List.foldl_cons, List.foldl_nil, BatchEntry.get_apply,
      List.reverse_append, List.reverse_singleton, List.singleton_append]
    by_cases hk : e.key = k
    · rw [if_pos hk, List.find?_cons_of_pos (by simpa using hk)]
      rfl
    · rw [if_neg hk, List.find?_cons_of_neg (by simpa using hk), ih]

/-! ### The calls since the latest `Begin` -/

/-- Since the latest `Begin` the batch got nothing but the calls that record `entries`. -/
def Recorded (log : List BatchCall) (entries : List BatchEntry) : Prop :=
  ∃ before after, log = before ++ .begin :: after ∧ after.map BatchCall.entry? = entries.map some

theorem recorded_begin (log : List BatchCall) : Recorded (log ++ [.begin]) [] :=
  ⟨log, [], rfl, rfl⟩

theorem Recorded.concat {log : List BatchCall} {entries : List BatchEntry} {call : BatchCall}
    {e : BatchEntry} (h : Recorded log entries) (he : call.entry? = some e) :
    Recorded (log ++ [call]) (entries ++ [e]) := by
  obtain ⟨before, after, rfl, hafter⟩ := h
  refine ⟨before, after ++ [call], by simp, ?_⟩
  rw [List.map_append, hafter, List.map_append]
  exact congrArg _ (congrArg (fun o => [o]) he)

theorem not_recorded_concat {log : List BatchCall} {call : BatchCall} (hcall : call ≠ .begin)
    (h : call.entry? = none ∨ ∀ entries, ¬Recorded log entries) (entries : List BatchEntry) :
    ¬Recorded (log ++ [call]) entries := by
  rintro ⟨before, after, hlog, hafter⟩
  rcases List.eq_nil_or_concat' after with rfl | ⟨init, last, rfl⟩
  · obtain ⟨-, hlast⟩ := List.append_inj' hlog rfl
    exact hcall (List.singleton_inj.mp hlast)
  · have hsplit : before ++ .begin :: (init ++ [last]) = (before ++ .begin :: init) ++ [last] := by
      simp
    rw [hsplit] at hlog
    obtain ⟨rfl, hlast⟩ := List.append_inj' hlog rfl
    obtain rfl := List.singleton_inj.mp hlast
    rw [List.map_append] at hafter
    obtain ⟨l₁, l₂, rfl, h₁, h₂⟩ := List.map_eq_append_iff.mp hafter.symm
    rcases h with hnone | hrest
    · have hmem : call.entry? ∈ l₂.map some := h₂ ▸ List.mem_singleton_self _
      rw [hnone] at hmem
      simp at hmem
    · exact hrest l₁ ⟨before, init, rfl, h₁.symm⟩

namespace BatchState

/-- The batch is active exactly when the log ends in a record, and holds what was recorded. -/
structure Tracks (s : BatchState) : Prop where
  active : s.batch.status = .active → Recorded s.log s.batch.entries
  inactive : s.batch.status ≠ .active → ∀ entries, ¬Recorded s.log entries

theorem tracks_start (tables : Nat → MemTable) : (start tables).Tracks where
  active h := by cases h
  inactive _ entries := by
    rintro ⟨before, after, hlog, -⟩
    simp [start] at hlog

/-- A call that writes: what the batch records, if it is active. -/
theorem Tracks.write {s : BatchState} (h : s.Tracks) {call : BatchCall} {e : BatchEntry}
    (hcall : call.entry? = some e) {b : BatchCommit}
    (hidle : s.batch.status ≠ .active → b = s.batch)
    (hactive : s.batch.status = .active →
      b.status = .active ∧ b.entries = s.batch.entries ++ [e]) :
    Tracks { s with log := s.log ++ [call], batch := b } := by
  by_cases hs : s.batch.status = .active
  · obtain ⟨hstatus, hentries⟩ := hactive hs
    refine ⟨fun _ => ?_, fun hne => absurd hstatus hne⟩
    show Recorded (s.log ++ [call]) b.entries
    rw [hentries]
    exact (h.active hs).concat hcall
  · obtain rfl := hidle hs
    refine ⟨fun hact => absurd hact hs, fun _ => ?_⟩
    refine not_recorded_concat ?_ (.inr (h.inactive hs))
    rintro rfl
    cases hcall

theorem Tracks.close (s : BatchState) {call : BatchCall} (hcall : call ≠ .begin)
    (hnone : call.entry? = none) {b : BatchCommit} (hb : b.status ≠ .active)
    (tables : Nat → MemTable) :
    Tracks { s with log := s.log ++ [call], batch := b, tables := tables } :=
  ⟨fun hact => absurd hact hb, fun _ => not_recorded_concat hcall (.inl hnone)⟩

/-- **Every call** that the batch gets keeps it in step with its log. -/
theorem Tracks.receive {s : BatchState} (h : s.Tracks) (call : BatchCall) :
    (s.receive call).1.Tracks := by
  cases call with
  | begin => exact ⟨fun _ => recorded_begin s.log, fun hne => absurd rfl hne⟩
  | put key value =>
    refine h.write rfl ?_ ?_
    · intro hs
      exact if_pos hs
    · intro hs
      rw [BatchCommit.batchPut, if_neg (not_not.mpr hs)]
      exact ⟨hs, rfl⟩
  | delete key =>
    refine h.write rfl ?_ ?_
    · intro hs
      exact if_pos hs
    · intro hs
      rw [BatchCommit.batchDelete, if_neg (not_not.mpr hs)]
      exact ⟨hs, rfl⟩
  | commit table =>
    have hcall : BatchCall.commit table ≠ .begin := fun hc => by cases hc
    refine Tracks.close s hcall rfl ?_ _
    rw [BatchCommit.commit]
    split
    · assumption
    · exact fun hc => by cases hc
  | rollback =>
    have hcall : BatchCall.rollback ≠ .begin := fun hc => by cases hc
    refine Tracks.close s hcall rfl ?_ _
    rw [BatchCommit.rollback]
    split
    · exact fun hc => by cases hc
    · assumption

theorem transact_eq (s : BatchState) (call : TransactionCall) :
    s.transact call = (s, false) ∨
      ∃ committed, s.transact call = ({ (s.receive call.toBatch).1 with committed := committed },
        (s.receive call.toBatch).2) := by
  cases call with
  | put key value => exact .inr ⟨_, rfl⟩
  | delete key => exact .inr ⟨_, rfl⟩
  | commit table =>
    rw [transact]
    split
    · exact .inl rfl
    · exact .inr ⟨_, rfl⟩
  | rollback =>
    rw [transact]
    split
    · exact .inl rfl
    · exact .inr ⟨_, rfl⟩

theorem Tracks.step {s : BatchState} (h : s.Tracks) (call : Call) : (s.step call).1.Tracks := by
  cases call with
  | batch call => exact h.receive call
  | transaction call =>
    rcases s.transact_eq call with heq | ⟨committed, heq⟩
    · rw [BatchState.step, heq]
      exact h
    · have hr := h.receive call.toBatch
      rw [BatchState.step, heq]
      exact ⟨hr.active, hr.inactive⟩

theorem tracks_exec (tables : Nat → MemTable) (calls : List Call) :
    ((start tables).exec calls).Tracks := by
  induction calls using List.reverseRecOn with
  | nil => exact tracks_start tables
  | append_singleton calls call ih =>
    rw [exec, List.foldl_append]
    exact ih.step call

/-- What a call does to the memtables: only a `Commit` that returns true changes one, and it
applies the entries recorded since the latest `Begin`, in order and once. -/
structure CommitEffect (s : BatchState) (call : Call) (r : BatchState × Bool) : Prop where
  unchanged : r.2 = false → r.1.tables = s.tables
  applied : r.2 = true → ∃ table entries,
    (call = .batch (.commit table) ∨ call = .transaction (.commit table)) ∧
      Recorded s.log entries ∧
        r.1.tables =
          Function.update s.tables table (entries.foldl BatchEntry.apply (s.tables table)) ∧
        ∀ k, (r.1.tables table).get k =
          ((entries.reverse.find? fun e => e.key = k).map BatchEntry.value?).getD
            ((s.tables table).get k)
  commits : ∀ table, call = .batch (.commit table) →
    (r.2 = true ↔ ∃ entries, Recorded s.log entries)

theorem Tracks.receive_effect {s : BatchState} (h : s.Tracks) (call : BatchCall) :
    s.CommitEffect (.batch call) (s.receive call) := by
  by_cases hcall : ∃ table, call = .commit table
  · obtain ⟨table, rfl⟩ := hcall
    by_cases hs : s.batch.status = .active
    · have hcommit : s.batch.commit (s.tables table) =
          ({ s.batch with status := .idle },
            s.batch.entries.foldl BatchEntry.apply (s.tables table), true) := by
        rw [BatchCommit.commit, if_neg (not_not.mpr hs)]
      have htables : (s.receive (.commit table)).1.tables =
          Function.update s.tables table
            (s.batch.entries.foldl BatchEntry.apply (s.tables table)) := by
        simp only [BatchState.receive, hcommit]
      have htrue : (s.receive (.commit table)).2 = true := by
        simp only [BatchState.receive, hcommit]
      refine ⟨fun hfalse => ?_, fun _ => ?_, fun _ _ => ?_⟩
      · rw [htrue] at hfalse
        cases hfalse
      · refine ⟨table, s.batch.entries, .inl rfl, h.active hs, htables, ?_⟩
        intro k
        rw [htables, Function.update_self, get_foldl_apply]
      · exact iff_of_true htrue ⟨_, h.active hs⟩
    · have hcommit : s.batch.commit (s.tables table) = (s.batch, s.tables table, false) := if_pos hs
      have hfalse : (s.receive (.commit table)).2 = false := by
        simp only [BatchState.receive, hcommit]
      refine ⟨fun _ => ?_, fun htrue => ?_, fun _ _ => ?_⟩
      · simp only [BatchState.receive, hcommit, Function.update_eq_self]
      · rw [hfalse] at htrue
        cases htrue
      · refine iff_of_false (by rw [hfalse]; exact Bool.false_ne_true) ?_
        rintro ⟨entries, hentries⟩
        exact h.inactive hs entries hentries
  · have hsame : (s.receive call).1.tables = s.tables ∧ (s.receive call).2 = false := by
      cases call with
      | commit table => exact absurd ⟨table, rfl⟩ hcall
      | _ => exact ⟨rfl, rfl⟩
    refine ⟨fun _ => hsame.1, fun htrue => ?_, fun table heq => ?_⟩
    · rw [hsame.2] at htrue
      cases htrue
    · exact absurd ⟨table, Call.batch.inj heq⟩ hcall

/-- **Batched operations take effect exactly on commit.**  Whatever was called before, on the
batch or through a transaction, the memtables change only in a `Commit` that returns true,
and it applies what was recorded since the latest `Begin`. -/
theorem commit_effect (tables : Nat → MemTable) (calls : List Call) (call : Call) :
    ((start tables).exec calls).CommitEffect call (((start tables).exec calls).step call) := by
  have h := tracks_exec tables calls
  cases call with
  | batch call => exact h.receive_effect call
  | transaction call =>
    have heffect := h.receive_effect call.toBatch
    rcases ((start tables).exec calls).transact_eq call with heq | ⟨committed, heq⟩
    · rw [step, heq]
      exact ⟨fun _ => rfl, fun htrue => (by cases htrue), fun _ hc => (by cases hc)⟩
    · rw [step, heq]
      refine ⟨heffect.unchanged, fun htrue => ?_, fun _ hc => (by cases hc)⟩
      obtain ⟨table, entries, hcall, hrest⟩ := heffect.applied htrue
      refine ⟨table, entries, .inr ?_, hrest⟩
      rcases hcall with hcall | hcall
      · have hcommit := Call.batch.inj hcall
        cases call with
        | commit table' =>
          obtain rfl := BatchCall.commit.inj hcommit
          rfl
        | _ => cases hcommit
      · cases hcall

end BatchState

end Mokv.LSM
