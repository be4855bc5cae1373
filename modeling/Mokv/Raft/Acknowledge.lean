import Mokv.DB.Concurrent
import Mokv.DB.Session
import Mokv.Raft.Applier

/-!
# Acknowledged writes

`Pod::InnerPut` appends to the log, polls until enough followers have the entry, commits it
and calls `WaitUntilApplied`, which waits for `last_append_`.  But the apply thread counts
an entry before it calls `db_->Put`.

`acknowledged_write_readable`: a wait that returns for an index finds the entries up to it
in the database unless the entry of that very index is still taken; and a put is visible
from its answer on when the waits of the run do not return at such a moment.  The number
of followers does not matter here, so a put may be committed at any time.
-/

namespace Mokv.Raft

open Lib Conc

/-- Where a call of `Pod::Put` on the leader is. -/
inductive PutCall where
  /-- in the loop of `InnerPut` -/
  | polling (nowIdx : Nat) (key value : Bytes)
  /-- in `WaitUntilApplied` -/
  | waiting (nowIdx : Nat) (key value : Bytes)
  /-- answered with code 0 -/
  | acked (nowIdx : Nat) (key value : Bytes)
  /-- answered with code -1 -/
  | refused
deriving DecidableEq

/-- A put that polls does so for an index of at most `n`. -/
def PutCall.isBelow (n : Nat) : PutCall → Bool
  | .polling nowIdx _ _ => nowIdx ≤ n
  | _ => true

/-- `WaitUntilApplied(index)` returns. -/
def RaftLog.waitReturns (l : RaftLog) (index : Nat) : Bool := l.stop || index ≤ l.lastAppend

instance (l : RaftLog) : DecidablePred l.PutOk
  | .put _ _ _ => inferInstanceAs (Decidable (l.accepts = true → l.index + 1 < 2 ^ 64))
  | .putEntry entry =>
    inferInstanceAs (Decidable (l.accepts = true → _ ∧ toSizeT entry.commited ≤ l.index + 1))
  | .updateCommit _ => isTrue trivial
  | .reset => isTrue trivial
  | .apply => isTrue trivial

/-- A log whose counters are in order has not wrapped. -/
theorem RaftLog.Counts.index_eq_add {l : RaftLog} (h : l.Counts) (ho : l.Ordered) :
    l.index = l.startIndex + l.queue.head ∧ l.startIndex + l.queue.head < 2 ^ 64 := by
  have hsize := ho.size_eq
  rw [h.queue.size_eq] at hsize
  have h1 := ho.start_le
  have h2 := ho.last_le
  have h3 := ho.commited_le
  have h4 := h.index_eq
  have h5 : l.index < 2 ^ 64 := by
    rw [h4]
    exact Nat.mod_lt _ (by decide)
  omega

theorem RaftLog.fixed_of_step {l t : RaftLog} {op : Op} (h : l.step op = some t) :
    t.stop = l.stop ∧ t.startIndex = l.startIndex := by
  have hput : ∀ entry, ((l.putEntry entry).getD l).stop = l.stop ∧
      ((l.putEntry entry).getD l).startIndex = l.startIndex := by
    intro entry
    rw [putEntry]
    split
    · exact ⟨rfl, rfl⟩
    · split <;> exact ⟨rfl, rfl⟩
  cases op with
  | put key value term =>
    obtain rfl := Option.some.inj h
    rw [fst_put_getD]
    exact hput _
  | putEntry entry =>
    obtain rfl := Option.some.inj h
    exact hput entry
  | updateCommit leaderCommit =>
    obtain rfl := Option.some.inj h
    exact ⟨rfl, rfl⟩
  | reset =>
    obtain rfl := Option.some.inj h
    rw [reset]
    split <;> exact ⟨rfl, rfl⟩
  | apply =>
    obtain ⟨r, hr, rfl⟩ := Option.map_eq_some_iff.mp h
    rw [apply] at hr
    split at hr
    · obtain rfl := Option.some.inj hr
      exact ⟨rfl, rfl⟩
    · cases hr

/-- What a later state of a log and its thread keeps. -/
structure Applier.Later (s t : Applier) : Prop where
  start : t.log.startIndex = s.log.startIndex
  commited : s.log.commited ≤ t.log.commited
  entries : ∀ i e, i ≤ s.log.commited → s.log.entryAt i = some e → t.log.entryAt i = some e
  puts : s.puts <+: t.puts

theorem Applier.later_of_step {s t : Applier} {b : Act} (h : s.Inv) (hok : s.StampOk b)
    (hb : s.step b = some t) : s.Later t := by
  obtain ⟨-, hstart, hcom, hkeep⟩ := h.step hok hb
  refine ⟨hstart, hcom, hkeep, ?_⟩
  rcases step_cases hb with ⟨op, -, -, -, -, hputs⟩ | ⟨l, e, -, -, -, rfl⟩ | ⟨e, -, -, rfl⟩
  · rw [hputs]
  · exact List.prefix_refl _
  · exact List.prefix_append _ _

theorem RaftLog.PutOk.stampOk {l : RaftLog} {op : Op} (h : l.PutOk op) : l.StampOk op := by
  cases op with
  | putEntry entry =>
    intro ha
    obtain ⟨h1, h2⟩ := h ha
    rw [Nat.mod_eq_of_lt h1]
    exact h2
  | _ => trivial

/-- A log, its apply thread, the database behind it, and the calls of `Pod::Put`. -/
structure Server where
  app : Applier
  db : DB
  calls : List PutCall

namespace Server

/-- What happens at a server. -/
inductive Act where
  /-- a call of the log, or the apply thread's section under the lock -/
  | log (op : RaftLog.Op)
  /-- the apply thread's `db_->Put` -/
  | dbPut
  /-- the flush thread of the database -/
  | flush
  /-- a new `Pod::Put` that reaches the log -/
  | innerPut (key value : Bytes) (term : Int)
  /-- `UpdateCommit` of `InnerPut` -/
  | commit (c : Nat)
  /-- `WaitUntilApplied` of `InnerPut` returns -/
  | wait (c : Nat)
deriving DecidableEq

/-- A log that was just constructed, on a database. -/
def start (saved : Nat) (db : DB) : Server := ⟨Applier.start saved, db, []⟩

/-- One step.  A flush erases the memtable from the queue and enters its tables into the manifest
at once: the moment between the two, when `DB::Get` finds neither, is left out. -/
def step (cfg : DBConfig) (s : Server) : Act → Option Server
  | .log op => (s.app.step (.call op)).map fun app => { s with app := app }
  | .dbPut =>
    match s.app.taken with
    | none => none
    | some e =>
      (s.app.step .dbPut).map fun app => { s with app := app, db := s.db.put cfg e.key e.value }
  | .flush => (s.db.flush cfg).map fun r => { s with db := r.1 }
  | .innerPut key value term =>
    match s.app.log.put key value term with
    | none => some { s with calls := s.calls ++ [.refused] }
    | some (l, nowIdx) =>
      some { s with
        app := { s.app with log := l }, calls := s.calls ++ [.polling nowIdx key value] }
  | .commit c =>
    match s.calls[c]? with
    | some (.polling nowIdx key value) =>
      some { s with
        app := { s.app with log := s.app.log.updateCommit nowIdx }
        calls := s.calls.set c (.waiting nowIdx key value) }
    | _ => none
  | .wait c =>
    match s.calls[c]? with
    | some (.waiting nowIdx key value) =>
      if s.app.log.waitReturns nowIdx then
        some { s with calls := s.calls.set c (.acked nowIdx key value) }
      else none
    | _ => none

/-- The entries up to an index, as `At` reads them, are the first that were put. -/
def Contains (s : Server) (index : Nat) : Prop :=
  (List.range' (s.app.log.startIndex + 1) (index - s.app.log.startIndex)).map
    (fun i => (s.app.log.at i).map Entry.pair) <+: s.app.puts.map some

instance (s : Server) (index : Nat) : Decidable (s.Contains index) :=
  inferInstanceAs (Decidable (_ <+: _))

/-- The entry of this index is counted, and not put yet. -/
def UnderWay (s : Server) (index : Nat) : Prop :=
  s.app.taken.isSome = true ∧ index = s.app.log.lastAppend

instance (s : Server) (index : Nat) : Decidable (s.UnderWay index) :=
  inferInstanceAs (Decidable (_ ∧ _))

/-- What `log` calls the step makes. -/
def Act.op? : Act → Option RaftLog.Op
  | .log op => some op
  | .innerPut key value term => some (.put key value term)
  | _ => none

/-- The commit index of an accepted entry does not exceed the resulting `index_`. -/
def StampOk (s : Server) (a : Act) : Prop := ∀ op, a.op? = some op → s.app.log.StampOk op

/-- **What a step does to the log**: nothing, or one step of the log and its thread. -/
theorem app_of_step {cfg : DBConfig} {s t : Server} {a : Act} (h : s.step cfg a = some t) :
    t.app = s.app ∨ ∃ b, s.app.step b = some t.app ∧ (s.StampOk a → s.app.StampOk b) := by
  cases a with
  | log op =>
    obtain ⟨app, happ, rfl⟩ := Option.map_eq_some_iff.mp h
    exact Or.inr ⟨.call op, happ, fun hok => hok op rfl⟩
  | dbPut =>
    cases htaken : s.app.taken with
    | none =>
      simp only [step, htaken] at h
      cases h
    | some e =>
      simp only [step, htaken] at h
      obtain ⟨app, happ, rfl⟩ := Option.map_eq_some_iff.mp h
      exact Or.inr ⟨.dbPut, happ, fun _ => trivial⟩
  | flush =>
    obtain ⟨r, -, rfl⟩ := Option.map_eq_some_iff.mp h
    exact Or.inl rfl
  | innerPut key value term =>
    cases hput : s.app.log.put key value term with
    | none =>
      simp only [step, hput] at h
      obtain rfl := Option.some.inj h
      exact Or.inl rfl
    | some r =>
      simp only [step, hput] at h
      obtain rfl := Option.some.inj h
      refine Or.inr ⟨.call (.put key value term), ?_, fun hok => hok _ rfl⟩
      simp [Applier.step, RaftLog.step, hput]
  | commit c =>
    simp only [step] at h
    split at h
    · obtain rfl := Option.some.inj h
      exact Or.inr ⟨.call (.updateCommit _), rfl, fun _ => trivial⟩
    · cases h
  | wait c =>
    simp only [step] at h
    split at h
    · split at h
      · obtain rfl := Option.some.inj h
        exact Or.inl rfl
      · cases h
    · cases h

theorem inv_of_run {cfg : DBConfig} {saved : Nat} (hsaved : saved < 2 ^ 64) {db : DB}
    {as : List Act} {s : Server} (hr : run (step cfg) (start saved db) as = some s)
    (hok : StepsOk (step cfg) StampOk (start saved db) as) : s.app.Inv := by
  refine run_invariant (I := fun s => s.app.Inv) (Applier.inv_start hsaved) ?_ hr hok
  intro s a t hs ha ht
  rcases app_of_step ht with heq | ⟨b, hb, hstamp⟩
  · rw [heq]
    exact hs
  · exact (hs.step (hstamp ha) hb).1

/-- **What a wait that returns finds.** -/
theorem contains_iff {s : Server} (h : s.app.Inv) {i : Nat} (hi : i ≤ s.app.log.lastAppend) :
    s.Contains i ↔ ¬ s.UnderWay i := by
  have hhanded := h.handed_eq
  have hlen := congrArg List.length hhanded
  simp only [List.length_map, List.length_range'] at hlen
  have hrange : (List.range' (s.app.log.startIndex + 1) (i - s.app.log.startIndex)).map
      (fun i => (s.app.log.at i).map Entry.pair) <+: s.app.handed.map some := by
    rw [hhanded]
    refine List.IsPrefix.map _ ?_
    obtain ⟨n, hn⟩ : ∃ n, s.app.log.lastAppend - s.app.log.startIndex =
        i - s.app.log.startIndex + n := ⟨_, (Nat.add_sub_of_le (by omega)).symm⟩
    rw [hn, ← List.range'_append_1]
    exact List.prefix_append _ _
  have hputs : s.app.puts.map some <+: s.app.handed.map some := by
    refine List.IsPrefix.map _ ?_
    exact List.prefix_append _ _
  have hle : s.Contains i ↔ i - s.app.log.startIndex ≤ s.app.puts.length := by
    constructor
    · intro hc
      simpa using hc.length_le
    · intro hle
      exact List.prefix_of_prefix_length_le hrange hputs (by simpa using hle)
  rw [hle, UnderWay]
  rw [Applier.handed, List.length_append] at hlen
  cases htaken : s.app.taken with
  | none =>
    rw [htaken] at hlen
    simp only [Option.map_none, Option.toList_none, List.length_nil] at hlen
    simp only [Option.isSome_none, Bool.false_eq_true, false_and, not_false_eq_true, iff_true]
    omega
  | some e =>
    rw [htaken] at hlen
    simp only [Option.map_some, Option.toList_some, List.length_singleton] at hlen
    simp only [Option.isSome_some, true_and]
    omega

/-! ### Puts that were answered -/

/-- A reset finds every entry that a put polls for committed. -/
def SparesPuts (s : Server) : Prop := ∀ call ∈ s.calls, call.isBelow s.app.log.commited = true

instance (s : Server) : Decidable s.SparesPuts := inferInstanceAs (Decidable (∀ _ ∈ _, _))

/-- The wait of this call does not return while its entry is under way. -/
def WaitOk (s : Server) : Option PutCall → Prop
  | some (.waiting nowIdx _ _) => ¬ s.UnderWay nowIdx
  | _ => True

instance (s : Server) : DecidablePred s.WaitOk
  | some (.waiting nowIdx _ _) => inferInstanceAs (Decidable (¬ s.UnderWay nowIdx))
  | none => isTrue trivial
  | some (.polling _ _ _) => isTrue trivial
  | some (.acked _ _ _) => isTrue trivial
  | some .refused => isTrue trivial

/-- What is asked of a step: no commit index beyond the log and no index beyond `2 ^ 64`; a
reset does not remove what a put polls for; the database gets no empty key; and a wait
does not return while the entry it waits for is under way. -/
def AckOk (s : Server) : Act → Prop
  | .log op => s.app.log.PutOk op ∧ (op = .reset → s.SparesPuts)
  | .innerPut key value term => s.app.log.PutOk (.put key value term)
  | .dbPut => ∀ e ∈ s.app.taken, e.key ≠ []
  | .wait c => s.WaitOk s.calls[c]?
  | .flush => True
  | .commit _ => True

instance (s : Server) : DecidablePred s.AckOk
  | .log op => inferInstanceAs (Decidable (s.app.log.PutOk op ∧ (op = .reset → s.SparesPuts)))
  | .innerPut key value term => inferInstanceAs (Decidable (s.app.log.PutOk (.put key value term)))
  | .dbPut => inferInstanceAs (Decidable (∀ e ∈ s.app.taken, e.key ≠ []))
  | .wait c => inferInstanceAs (Decidable (s.WaitOk s.calls[c]?))
  | .flush => isTrue trivial
  | .commit _ => isTrue trivial

/-- What is known about a call. -/
def CallOk (s : Server) : PutCall → Prop
  | .polling nowIdx key value =>
    nowIdx < 2 ^ 64 ∧ ∃ e, s.app.log.entryAt nowIdx = some e ∧ e.pair = (key, value)
  | .waiting nowIdx key value =>
    nowIdx ≤ s.app.log.commited ∧ ∃ e, s.app.log.entryAt nowIdx = some e ∧ e.pair = (key, value)
  | .acked nowIdx key value =>
    s.app.puts[nowIdx - s.app.log.startIndex - 1]? = some (key, value)
  | .refused => True

/-- What holds along the runs of such steps, on a database that held `old`. -/
structure Acks (old : Bytes → Option Bytes) (s : Server) : Prop where
  app : s.app.Inv
  ordered : s.app.log.Ordered
  running : s.app.log.stop = false
  valid : s.db.Valid
  raw : ∀ k, s.db.raw k = (lastWritten s.app.puts k).or (old k)
  calls : ∀ call ∈ s.calls, s.CallOk call

theorem CallOk.mono {s t : Server} (h : s.app.Later t.app) {call : PutCall}
    (hspare : s.app.log.entries <+: t.app.log.entries ∨ call.isBelow s.app.log.commited = true)
    (hc : s.CallOk call) : t.CallOk call := by
  cases call with
  | polling nowIdx key value =>
    obtain ⟨hlt, e, he, hpair⟩ := hc
    refine ⟨hlt, e, ?_, hpair⟩
    rcases hspare with hprefix | hbelow
    · rw [RaftLog.entryAt, h.start]
      exact getElem?_of_isPrefix hprefix he
    · exact h.entries _ _ (of_decide_eq_true hbelow) he
  | waiting nowIdx key value =>
    obtain ⟨hle, e, he, hpair⟩ := hc
    exact ⟨hle.trans h.commited, e, h.entries _ _ hle he, hpair⟩
  | acked nowIdx key value =>
    rw [CallOk, h.start]
    exact getElem?_of_isPrefix h.puts hc
  | refused => trivial

section

variable {old : Bytes → Option Bytes} {cfg : DBConfig} {s : Server}

theorem Acks.log {app : Applier} {op : RaftLog.Op} (h : s.Acks old) (hput : s.app.log.PutOk op)
    (hspare : op = .reset → s.SparesPuts) (happ : s.app.step (.call op) = some app) :
    Acks old { s with app := app } := by
  obtain ⟨hlog, hputs⟩ := Applier.log_of_step happ
  have hstamp : s.app.StampOk (.call op) := hput.stampOk
  have hqueue := h.app.counts.queue
  refine ⟨(h.app.step hstamp happ).1, ?_, ?_, h.valid, ?_, ?_⟩
  · exact (RaftLog.ordered_step_iff hqueue h.ordered hlog).2.mpr hput
  · exact (RaftLog.fixed_of_step hlog).1.trans h.running
  · intro k
    show s.db.raw k = (lastWritten app.puts k).or (old k)
    rw [hputs]
    exact h.raw k
  · intro call hcall
    refine CallOk.mono (Applier.later_of_step h.app hstamp happ) ?_ (h.calls call hcall)
    by_cases hop : op = .reset
    · exact Or.inr (hspare hop call hcall)
    · exact Or.inl (RaftLog.entries_prefix_of_step hqueue hop hlog)

theorem Acks.dbPut {e : Entry} (h : s.Acks old) (htaken : s.app.taken = some e)
    (hkey : e.key ≠ []) :
    Acks old { s with
      app := { s.app with taken := none, puts := s.app.puts ++ [e.pair] }
      db := s.db.put cfg e.key e.value } := by
  have happ : s.app.step .dbPut =
      some { s.app with taken := none, puts := s.app.puts ++ [e.pair] } := by
    rw [Applier.step, htaken]
    rfl
  have hstamp : s.app.StampOk .dbPut := trivial
  refine ⟨(h.app.step hstamp happ).1, h.ordered, h.running, h.valid.put cfg hkey _, ?_, ?_⟩
  · intro k
    show (s.db.put cfg e.key e.value).raw k =
      (lastWritten (s.app.puts ++ [(e.key, e.value)]) k).or (old k)
    rw [DB.raw_put, lastWritten_concat, h.raw]
    split <;> rfl
  · intro call hcall
    exact CallOk.mono (Applier.later_of_step h.app hstamp happ) (Or.inl (List.prefix_refl _))
      (h.calls call hcall)

theorem Acks.flush {db : DB} {cs : List LSM.Creation} (h : s.Acks old)
    (hf : s.db.flush cfg = some (db, cs)) : Acks old { s with db := db } := by
  obtain ⟨hv, hraw⟩ := h.valid.flush_eq hf
  exact ⟨h.app, h.ordered, h.running, hv, fun k => (hraw k).trans (h.raw k), h.calls⟩

theorem Acks.setCall {c : Nat} {call : PutCall} (h : s.Acks old) (hc : s.CallOk call) :
    Acks old { s with calls := s.calls.set c call } := by
  refine ⟨h.app, h.ordered, h.running, h.valid, h.raw, ?_⟩
  intro call' hcall'
  rcases List.mem_or_eq_of_mem_set hcall' with hmem | rfl
  · exact h.calls call' hmem
  · exact hc

theorem Acks.newCall {call : PutCall} (h : s.Acks old) (hc : s.CallOk call) :
    Acks old { s with calls := s.calls ++ [call] } := by
  refine ⟨h.app, h.ordered, h.running, h.valid, h.raw, ?_⟩
  intro call' hcall'
  rcases List.mem_append.mp hcall' with hmem | hmem
  · exact h.calls call' hmem
  · rw [List.mem_singleton.mp hmem]
    exact hc

theorem Acks.entryAt_put {key value : Bytes} {term : Int} {l : RaftLog} {nowIdx : Nat}
    (h : s.Acks old) (hput : s.app.log.PutOk (.put key value term))
    (hl : s.app.log.put key value term = some (l, nowIdx)) :
    l.entryAt nowIdx = some (s.app.log.newEntry key value term) := by
  have hcounts := h.app.counts
  obtain ⟨hindex, -⟩ := hcounts.index_eq_add h.ordered
  obtain ⟨l', hl', heq⟩ := Option.map_eq_some_iff.mp hl
  obtain ⟨rfl, rfl⟩ := Prod.mk.inj heq
  rcases RaftLog.putEntry_eq hcounts.queue (s.app.log.newEntry key value term) with
    ⟨-, hp⟩ | ⟨ha, q, -, hq, hhead, hlist, hp⟩
  · rw [hp] at hl'
    cases hl'
  · obtain rfl := Option.some.inj (hl'.symm.trans hp)
    have hlt := hput ha
    have hplace : (s.app.log.index + 1) % 2 ^ 64 =
        s.app.log.startIndex + 1 + s.app.log.queue.head := by
      rw [Nat.mod_eq_of_lt hlt]
      omega
    show RaftLog.entryAt _ ((s.app.log.index + 1) % 2 ^ 64) = _
    rw [hplace]
    refine (RaftLog.entryAt_add _ (by omega)).trans ?_
    show q.toList[s.app.log.queue.head]? = _
    rw [hlist, ← hcounts.length_entries]
    exact List.getElem?_concat_length

theorem Acks.lt_of_entryAt {i : Nat} {e : Entry} (h : s.Acks old) (hi : i < 2 ^ 64)
    (he : s.app.log.entryAt i = some e) : s.app.log.startIndex < i ∧ i ≤ s.app.log.index := by
  have hcounts := h.app.counts
  have hhead := hcounts.queue.head_lt
  have hsize := RingBufferQueue.ringBufferSize_eq
  obtain ⟨hindex, hlt⟩ := hcounts.index_eq_add h.ordered
  have hk := (List.getElem?_eq_some_iff.mp he).1
  rw [hcounts.length_entries] at hk
  omega

theorem Acks.put_of_contains {i : Nat} {e : Entry} {key value : Bytes} (h : s.Acks old)
    (hc : s.Contains i) (hi : i ≤ s.app.log.commited) (he : s.app.log.entryAt i = some e)
    (hpair : e.pair = (key, value)) :
    s.app.puts[i - s.app.log.startIndex - 1]? = some (key, value) := by
  have hcounts := h.app.counts
  have hlt : i < 2 ^ 64 := Nat.lt_of_le_of_lt hi hcounts.commited_lt
  obtain ⟨hstart, -⟩ := h.lt_of_entryAt hlt he
  have hread : ((List.range' (s.app.log.startIndex + 1) (i - s.app.log.startIndex)).map
      (fun i => (s.app.log.at i).map Entry.pair))[i - s.app.log.startIndex - 1]? =
        some (some (key, value)) := by
    have hplace : s.app.log.startIndex + 1 + 1 * (i - s.app.log.startIndex - 1) = i := by omega
    rw [List.getElem?_map, List.getElem?_range' (by omega), hplace, Option.map_some,
      hcounts.at_eq hlt he, Option.map_some, hpair]
  have hput := getElem?_of_isPrefix hc hread
  rw [List.getElem?_map] at hput
  obtain ⟨p, hp, heq⟩ := Option.map_eq_some_iff.mp hput
  rw [hp, heq]

theorem Acks.step {t : Server} {a : Act} (h : s.Acks old) (hok : s.AckOk a)
    (hstep : s.step cfg a = some t) : t.Acks old := by
  cases a with
  | log op =>
    obtain ⟨app, happ, rfl⟩ := Option.map_eq_some_iff.mp hstep
    exact h.log hok.1 hok.2 happ
  | dbPut =>
    cases htaken : s.app.taken with
    | none =>
      simp only [Server.step, htaken] at hstep
      cases hstep
    | some e =>
      simp only [Server.step, Applier.step, htaken, Option.map_some] at hstep
      obtain rfl := Option.some.inj hstep
      exact h.dbPut htaken (hok e htaken)
  | flush =>
    obtain ⟨r, hr, rfl⟩ := Option.map_eq_some_iff.mp hstep
    exact h.flush hr
  | innerPut key value term =>
    cases hput : s.app.log.put key value term with
    | none =>
      simp only [Server.step, hput] at hstep
      obtain rfl := Option.some.inj hstep
      exact h.newCall trivial
    | some r =>
      obtain ⟨l, nowIdx⟩ := r
      simp only [Server.step, hput] at hstep
      obtain rfl := Option.some.inj hstep
      have happ : s.app.step (.call (.put key value term)) = some { s.app with log := l } := by
        simp [Applier.step, RaftLog.step, hput]
      have hputOk : s.app.log.PutOk (.put key value term) := hok
      have hnew := h.log hputOk (fun heq => by cases heq) happ
      refine hnew.newCall ⟨?_, _, h.entryAt_put hputOk hput, rfl⟩
      obtain ⟨l', hl', heq⟩ := Option.map_eq_some_iff.mp hput
      obtain ⟨rfl, rfl⟩ := Prod.mk.inj heq
      exact hnew.app.counts.index_eq ▸ Nat.mod_lt _ (by decide)
  | commit c =>
    simp only [Server.step] at hstep
    split at hstep
    · rename_i nowIdx key value hcall
      obtain rfl := Option.some.inj hstep
      obtain ⟨hlt, e, he, hpair⟩ := h.calls _ (List.mem_of_getElem? hcall)
      have happ : s.app.step (.call (.updateCommit nowIdx)) =
          some { s.app with log := s.app.log.updateCommit nowIdx } := rfl
      have hputOk : s.app.log.PutOk (.updateCommit nowIdx) := trivial
      have hnew := h.log hputOk (fun heq => by cases heq) happ
      have hle := (h.lt_of_entryAt hlt he).2
      refine hnew.setCall ⟨?_, e, he, hpair⟩
      show nowIdx ≤ max s.app.log.commited (min s.app.log.index nowIdx)
      omega
    · cases hstep
  | wait c =>
    simp only [Server.step] at hstep
    split at hstep
    · rename_i nowIdx key value hcall
      split at hstep
      · rename_i hret
        obtain rfl := Option.some.inj hstep
        obtain ⟨hle, e, he, hpair⟩ := h.calls _ (List.mem_of_getElem? hcall)
        have hlast : nowIdx ≤ s.app.log.lastAppend := by
          simpa [RaftLog.waitReturns, h.running] using hret
        have hunder : ¬ s.UnderWay nowIdx := by
          have hwait : s.WaitOk s.calls[c]? := hok
          rw [hcall] at hwait
          exact hwait
        exact h.setCall (h.put_of_contains ((contains_iff h.app hlast).mpr hunder) hle he hpair)
      · cases hstep
    · cases hstep

end

theorem acks_start {saved : Nat} (hsaved : saved < 2 ^ 64) {db : DB} (hdb : db.Valid) :
    (start saved db).Acks db.raw where
  app := Applier.inv_start hsaved
  ordered := (RaftLog.inv_load saved).2
  running := rfl
  valid := hdb
  raw _ := rfl
  calls := by
    intro call hcall
    cases hcall

theorem startIndex_of_run {cfg : DBConfig} {saved : Nat} {db : DB} {as : List Act} {s : Server}
    (hr : run (step cfg) (start saved db) as = some s) : s.app.log.startIndex = saved := by
  refine run_invariant (I := fun s => s.app.log.startIndex = saved) rfl ?_ hr
    (stepsOk_true _ _)
  intro s a t hs _ ht
  rcases app_of_step ht with heq | ⟨b, hb, -⟩
  · rw [heq]
    exact hs
  · cases b with
    | call op => exact (RaftLog.fixed_of_step (Applier.log_of_step hb).1).2.trans hs
    | dbPut =>
      obtain ⟨e, -, heq⟩ := Option.map_eq_some_iff.mp hb
      rw [← heq]
      exact hs

theorem exists_lastWritten {ws : List (Bytes × Bytes)} {k v : Bytes} (h : (k, v) ∈ ws) :
    ∃ v', lastWritten ws k = some v' := by
  cases hl : lastWritten ws k with
  | some v' => exact ⟨v', rfl⟩
  | none =>
    have hne := List.lookup_eq_none_iff.mp hl (k, v) (List.mem_reverse.mpr h)
    simp at hne

/-- **A put that was answered is visible.**  A wait that returns finds what it waited for
exactly when the entry of its index is not under way; so along a run in which no wait
returns at such a moment, a put that was answered with code 0 is among those the database
got, and a lookup finds the last of these. -/
theorem acknowledged_write_readable (cfg : DBConfig) (saved : Nat) (hsaved : saved < 2 ^ 64)
    (db : DB)
    (hdb : db.Valid) (as : List Act) (s : Server)
    (hr : run (step cfg) (start saved db) as = some s) :
    (StepsOk (step cfg) StampOk (start saved db) as →
      ∀ i, s.app.log.waitReturns i = true → s.app.log.stop = false →
        (s.Contains i ↔ ¬ s.UnderWay i)) ∧
    (StepsOk (step cfg) AckOk (start saved db) as →
      ∀ nowIdx key value, .acked nowIdx key value ∈ s.calls →
        s.app.puts[nowIdx - saved - 1]? = some (key, value) ∧
        ∃ v, lastWritten s.app.puts key = some v ∧ s.db.get key = DB.hide v) := by
  constructor
  · intro hok i hret hrun
    refine contains_iff (inv_of_run hsaved hr hok) ?_
    simpa [RaftLog.waitReturns, hrun] using hret
  · intro hok nowIdx key value hcall
    have hacks : s.Acks db.raw := run_invariant (acks_start hsaved hdb)
      (fun s a t hs ha ht => hs.step ha ht) hr hok
    have hput := hacks.calls _ hcall
    rw [CallOk, startIndex_of_run hr] at hput
    refine ⟨hput, ?_⟩
    obtain ⟨v, hv⟩ := exists_lastWritten (List.mem_of_getElem? hput)
    refine ⟨v, hv, ?_⟩
    rw [DB.get_eq, hacks.raw, hv]
    rfl

/-- **An answered put is not found**: the only node of a cluster answers a put after its
apply thread counted the entry, and a lookup then does not find it. -/
theorem acknowledged_put_not_found :
    ∃ s, run (step ⟨1024, LSM.plainFileSize fun _ => 152⟩) (start 0 (DB.new fun _ => none))
        [.innerPut [1] [10] 1, .commit 0, .log .apply, .wait 0] = some s ∧
      s.app.log.stop = false ∧ s.app.log.waitReturns 1 = true ∧ ¬ s.Contains 1 ∧
      s.calls = [.acked 1 [1] [10]] ∧ s.db.get [1] = none :=
  ⟨_, rfl, rfl, rfl, by decide, rfl, rfl⟩

/-- Two puts of one key; the second wait returns after the database got the entry. -/
def sampleActs : List Act :=
  [.innerPut [1] [10] 1, .commit 0, .innerPut [1] [20] 1, .log .apply, .dbPut, .flush, .wait 0,
    .commit 1, .log .apply, .dbPut, .wait 1]

theorem acknowledged_write_readable_sample :
    ∃ s, run (step ⟨1, LSM.plainFileSize fun _ => 152⟩) (start 0 (DB.new fun _ => none))
        sampleActs = some s ∧
      .acked 2 [1] [20] ∈ s.calls ∧ s.app.puts[2 - 0 - 1]? = some ([1], [20]) ∧
      ∃ v, lastWritten s.app.puts [1] = some v ∧ s.db.get [1] = DB.hide v := by
  refine ⟨_, rfl, by decide, ?_⟩
  exact (acknowledged_write_readable ⟨1, LSM.plainFileSize fun _ => 152⟩ 0 (by decide)
    (DB.new fun _ => none) (DB.valid_new _) sampleActs _ rfl).2 (by decide) 2 [1] [20] (by decide)

end Server

end Mokv.Raft
