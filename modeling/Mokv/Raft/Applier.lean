import Mokv.Lib.Quorum
import Mokv.Raft.RaftLog

/-!
# The apply thread

The thread of `RaftLog::RaftLog` copies the entry after `last_append_` and counts it under
the lock, and calls `db_->Put` after it released the lock.  Between the two the entry is
`taken`.

`applied_in_order`: whatever is put, committed and reset in between, the calls of
`db_->Put` are the entries after `start_index_` in order, each once, and an entry at a
committed index stays.  `index_` is a `size_t` and may wrap; then the log commits nothing
any more.
-/

namespace Mokv.Raft

open Lib

/-- What an entry asks the database to store. -/
def Entry.pair (e : Entry) : Bytes × Bytes := (e.key, e.value)

/-- A log with its apply thread, and the calls of `db_->Put` that returned. -/
structure Applier where
  log : RaftLog
  taken : Option Entry
  puts : List (Bytes × Bytes)

namespace RaftLog

/-- The entry at an index, if there is one.  Indices are counted from `start_index_` on. -/
def entryAt (l : RaftLog) (index : Nat) : Option Entry :=
  l.entries[(index + 2 ^ 64 - (l.startIndex + 1)) % 2 ^ 64]?

theorem entryAt_add (l : RaftLog) {k : Nat} (hk : k < 2 ^ 64) :
    l.entryAt (l.startIndex + 1 + k) = l.entries[k]? := by
  have hplace : (l.startIndex + 1 + k + 2 ^ 64 - (l.startIndex + 1)) % 2 ^ 64 = k := by omega
  rw [entryAt, hplace]

/-- An accepted entry carries a commit index that does not exceed the resulting `index_`, as
`size_t`. -/
def StampOk (l : RaftLog) : Op → Prop
  | .putEntry entry => l.accepts = true → toSizeT entry.commited ≤ (l.index + 1) % 2 ^ 64
  | _ => True

instance (l : RaftLog) : DecidablePred l.StampOk
  | .putEntry entry =>
    inferInstanceAs (Decidable (l.accepts = true → toSizeT entry.commited ≤ _))
  | .put _ _ _ => isTrue trivial
  | .updateCommit _ => isTrue trivial
  | .reset => isTrue trivial
  | .apply => isTrue trivial

/-- The counters are in order, up to the wrap of `index_`. -/
structure Counts (l : RaftLog) : Prop where
  queue : l.queue.Ok
  start_le : l.startIndex ≤ l.lastAppend
  last_le : l.lastAppend ≤ l.commited
  commited_le : l.commited ≤ l.startIndex + l.queue.head
  commited_lt : l.commited < 2 ^ 64
  index_eq : l.index = (l.startIndex + l.queue.head) % 2 ^ 64

theorem counts_load {saved : Nat} (h : saved < 2 ^ 64) : (load saved).Counts :=
  ⟨RingBufferQueue.ok_empty _, Nat.le_refl _, Nat.le_refl _, Nat.le_refl _, h,
    (Nat.mod_eq_of_lt h).symm⟩

/-- What a step other than the apply thread's does to the entries: those at committed
indices stay. -/
structure Keeps (l t : RaftLog) : Prop where
  start : t.startIndex = l.startIndex
  last : t.lastAppend = l.lastAppend
  commited : l.commited ≤ t.commited
  entries : ∀ i e, i ≤ l.commited → l.entryAt i = some e → t.entryAt i = some e

namespace Keeps

theorem refl (l : RaftLog) : l.Keeps l := ⟨rfl, rfl, Nat.le_refl _, fun _ _ _ he => he⟩

theorem of_prefix {l t : RaftLog} (hstart : t.startIndex = l.startIndex)
    (hlast : t.lastAppend = l.lastAppend) (hcom : l.commited ≤ t.commited)
    (hentries : l.entries <+: t.entries) : l.Keeps t := by
  refine ⟨hstart, hlast, hcom, ?_⟩
  intro i e _ he
  rw [entryAt, hstart]
  exact getElem?_of_isPrefix hentries he

theorem take_eq {l t : RaftLog} (h : l.Keeps t) (hc : l.Counts) {n : Nat}
    (hn : n ≤ l.commited - l.startIndex) : t.entries.take n = l.entries.take n := by
  have hcom := hc.commited_le
  have hlt := hc.commited_lt
  refine List.ext_getElem? ?_
  intro k
  rw [List.getElem?_take, List.getElem?_take]
  split
  · rename_i hk
    have hk64 : k < 2 ^ 64 := by omega
    have hget : l.entries[k]? = some (l.queue.at k) := hc.queue.getElem?_toList (by omega)
    have hget' := h.entries _ _ (by omega) ((l.entryAt_add hk64).trans hget)
    rw [← h.start, t.entryAt_add hk64] at hget'
    rw [hget, hget']
  · rfl

end Keeps

namespace Counts

variable {l : RaftLog}

theorem length_entries (h : l.Counts) : l.entries.length = l.queue.head := by
  rw [entries, RingBufferQueue.length_toList, h.queue.size_eq]

theorem putEntry (h : l.Counts) {entry : Entry}
    (hok : l.accepts = true → toSizeT entry.commited ≤ (l.index + 1) % 2 ^ 64) :
    ((l.putEntry entry).getD l).Counts ∧ l.Keeps ((l.putEntry entry).getD l) := by
  obtain ⟨hq, h1, h2, h3, h4, h5⟩ := h
  rcases putEntry_eq hq entry with ⟨ha, hp⟩ | ⟨ha, q, -, hq', hhead, hlist, hp⟩
  · rw [hp]
    exact ⟨⟨hq, h1, h2, h3, h4, h5⟩, Keeps.refl l⟩
  · rw [hp, Option.getD_some]
    have hstamp := hok ha
    have hindex : (l.index + 1) % 2 ^ 64 = (l.startIndex + (l.queue.head + 1)) % 2 ^ 64 := by
      rw [h5]
      omega
    have hle : (l.index + 1) % 2 ^ 64 ≤ l.startIndex + (l.queue.head + 1) := by
      rw [hindex]
      exact Nat.mod_le _ _
    refine ⟨⟨hq', h1, ?_, ?_, ?_, ?_⟩, Keeps.of_prefix rfl rfl (Nat.le_max_left _ _) ?_⟩
    · exact h2.trans (Nat.le_max_left _ _)
    · simp only [hhead]
      omega
    · exact Nat.max_lt.mpr ⟨h4, toSizeT_lt _⟩
    · simp only [hhead]
      exact hindex
    · exact ⟨[entry], hlist.symm⟩

theorem updateCommit (h : l.Counts) (n : Nat) :
    (l.updateCommit n).Counts ∧ l.Keeps (l.updateCommit n) := by
  obtain ⟨hq, h1, h2, h3, h4, h5⟩ := h
  have hle : l.index ≤ l.startIndex + l.queue.head := by
    rw [h5]
    exact Nat.mod_le _ _
  have hlt : l.index < 2 ^ 64 := by
    rw [h5]
    exact Nat.mod_lt _ (by decide)
  refine ⟨⟨hq, h1, ?_, ?_, ?_, h5⟩,
    Keeps.of_prefix rfl rfl (Nat.le_max_left _ _) (List.prefix_refl _)⟩ <;>
    simp only [RaftLog.updateCommit] <;> omega

/-- `Reset(commited())` removes nothing when `index_` has wrapped, and only entries after
the commit index before that. -/
theorem reset (h : l.Counts) : (l.reset l.commited).Counts ∧ l.Keeps (l.reset l.commited) := by
  obtain ⟨hq, h1, h2, h3, h4, h5⟩ := h
  have hhead := hq.head_lt
  have hsize := RingBufferQueue.ringBufferSize_eq
  rw [RaftLog.reset]
  split
  · rename_i hgt
    obtain ⟨g1, g2, g3⟩ := hq.truncate (l.index - l.commited)
    have hindex : l.index = l.startIndex + l.queue.head := by omega
    have hnew : (l.queue.truncate (l.index - l.commited)).1.head = l.commited - l.startIndex := by
      rw [g3]
      omega
    refine ⟨⟨g1, h1, h2, ?_, h4, ?_⟩, rfl, rfl, Nat.le_refl _, ?_⟩
    · simp only [hnew]
      omega
    · simp only [hnew, g2]
      omega
    · intro i e hi he
      have hk := (List.getElem?_eq_some_iff.mp he).1
      rw [RaftLog.entries, RingBufferQueue.length_toList, hq.size_eq] at hk
      have hlt : (i + 2 ^ 64 - (l.startIndex + 1)) % 2 ^ 64 < l.commited - l.startIndex := by omega
      rw [entryAt, RaftLog.entries, hq.getElem?_toList hk] at he
      rw [entryAt, RaftLog.entries]
      rw [g1.getElem?_toList (by rw [hnew]; exact hlt), ← he]
      rw [RingBufferQueue.at, RingBufferQueue.at, g1.tail_eq, hq.tail_eq]
      rw [RingBufferQueue.truncate]
      split <;> rfl
  · exact ⟨⟨hq, h1, h2, h3, h4, h5⟩, Keeps.refl l⟩

theorem at_eq (h : l.Counts) {i : Nat} (hi : i < 2 ^ 64) {e : Entry} (he : l.entryAt i = some e) :
    l.at i = some e := by
  obtain ⟨hq, h1, h2, h3, h4, h5⟩ := h
  have hhead := hq.head_lt
  have hsize := RingBufferQueue.ringBufferSize_eq
  have hk := (List.getElem?_eq_some_iff.mp he).1
  rw [RaftLog.entries, RingBufferQueue.length_toList, hq.size_eq] at hk
  rw [at_eq_of_place hq hi hk (by omega)]
  exact he

theorem apply (h : l.Counts) {t : RaftLog} {e : Entry} (ha : l.apply = some (t, e)) :
    t.Counts ∧ t.entries = l.entries ∧ t.startIndex = l.startIndex ∧ t.commited = l.commited ∧
      t.lastAppend = l.lastAppend + 1 ∧ l.entries[l.lastAppend - l.startIndex]? = some e := by
  obtain ⟨hq, h1, h2, h3, h4, h5⟩ := h
  rw [RaftLog.apply] at ha
  split at ha
  · rename_i hlt
    obtain ⟨rfl, rfl⟩ := Prod.mk.injEq .. ▸ Option.some.inj ha
    refine ⟨⟨hq, ?_, ?_, h3, h4, h5⟩, rfl, rfl, rfl, rfl, hq.getElem?_toList (by omega)⟩
    · exact h1.trans (Nat.le_succ _)
    · exact hlt
  · cases ha

end Counts

theorem Counts.step {l t : RaftLog} {op : Op} (h : l.Counts) (hop : op ≠ .apply)
    (hok : l.StampOk op) (hstep : l.step op = some t) : t.Counts ∧ l.Keeps t := by
  cases op with
  | put key value term =>
    obtain rfl := Option.some.inj hstep
    rw [fst_put_getD]
    exact h.putEntry fun _ => Nat.zero_le _
  | putEntry entry =>
    obtain rfl := Option.some.inj hstep
    exact h.putEntry hok
  | updateCommit leaderCommit =>
    obtain rfl := Option.some.inj hstep
    exact h.updateCommit leaderCommit
  | reset =>
    obtain rfl := Option.some.inj hstep
    exact h.reset
  | apply => exact absurd rfl hop

theorem entries_prefix_of_step {l t : RaftLog} {op : Op} (h : l.queue.Ok) (hop : op ≠ .reset)
    (hstep : l.step op = some t) : l.entries <+: t.entries := by
  have hput : ∀ entry, l.entries <+: ((l.putEntry entry).getD l).entries := by
    intro entry
    rcases putEntry_eq h entry with ⟨-, hp⟩ | ⟨-, q, -, -, -, hlist, hp⟩
    · rw [hp]
      exact List.prefix_refl _
    · rw [hp]
      exact ⟨[entry], hlist.symm⟩
  cases op with
  | put key value term =>
    obtain rfl := Option.some.inj hstep
    rw [fst_put_getD]
    exact hput _
  | putEntry entry =>
    obtain rfl := Option.some.inj hstep
    exact hput entry
  | updateCommit leaderCommit =>
    obtain rfl := Option.some.inj hstep
    exact List.prefix_refl _
  | reset => exact absurd rfl hop
  | apply =>
    obtain ⟨r, hr, rfl⟩ := Option.map_eq_some_iff.mp hstep
    rw [apply] at hr
    split at hr
    · obtain rfl := Option.some.inj hr
      exact List.prefix_refl _
    · cases hr

end RaftLog

namespace Applier

/-! ### Steps -/

/-- What happens at a log.  `.call .apply` is the section of the apply thread under the
lock. -/
inductive Act where
  | call (op : RaftLog.Op)
  | dbPut
deriving DecidableEq

/-- A log that was just constructed. -/
def start (saved : Nat) : Applier := ⟨RaftLog.load saved, none, []⟩

/-- One step. -/
def step (s : Applier) : Act → Option Applier
  | .call .apply =>
    match s.taken with
    | some _ => none
    | none => s.log.apply.map fun r => { s with log := r.1, taken := some r.2 }
  | .call op => (s.log.step op).map fun l => { s with log := l }
  | .dbPut => s.taken.map fun e => { s with taken := none, puts := s.puts ++ [e.pair] }

/-- The calls of `db_->Put`, with the one that is under way. -/
def handed (s : Applier) : List (Bytes × Bytes) := s.puts ++ (s.taken.map Entry.pair).toList

/-- The commit index of an accepted entry does not exceed the resulting `index_`. -/
def StampOk (s : Applier) : Act → Prop
  | .call op => s.log.StampOk op
  | .dbPut => True

instance (s : Applier) : DecidablePred s.StampOk
  | .call op => inferInstanceAs (Decidable (s.log.StampOk op))
  | .dbPut => isTrue trivial

/-- **What a step can be.** -/
theorem step_cases {s t : Applier} {a : Act} (h : s.step a = some t) :
    (∃ op, a = .call op ∧ op ≠ .apply ∧ s.log.step op = some t.log ∧ t.taken = s.taken ∧
        t.puts = s.puts) ∨
      (∃ l e, a = .call .apply ∧ s.taken = none ∧ s.log.apply = some (l, e) ∧
        t = { s with log := l, taken := some e }) ∨
      ∃ e, a = .dbPut ∧ s.taken = some e ∧
        t = { s with taken := none, puts := s.puts ++ [e.pair] } := by
  cases a with
  | dbPut =>
    obtain ⟨e, he, rfl⟩ := Option.map_eq_some_iff.mp h
    exact Or.inr (Or.inr ⟨e, rfl, he, rfl⟩)
  | call op =>
    by_cases hop : op = .apply
    · subst hop
      cases htaken : s.taken with
      | some e =>
        simp only [step, htaken] at h
        cases h
      | none =>
        simp only [step, htaken] at h
        obtain ⟨⟨l, e⟩, hl, rfl⟩ := Option.map_eq_some_iff.mp h
        exact Or.inr (Or.inl ⟨l, e, rfl, rfl, hl, rfl⟩)
    · have hcall : s.step (.call op) = (s.log.step op).map fun l => { s with log := l } := by
        cases op with
        | apply => exact absurd rfl hop
        | _ => rfl
      rw [hcall] at h
      obtain ⟨l, hl, rfl⟩ := Option.map_eq_some_iff.mp h
      exact Or.inl ⟨op, rfl, hop, hl, rfl, rfl⟩

/-- A step of the applier is one of the log, unless it is the thread's `db_->Put`. -/
theorem log_of_step {s t : Applier} {op : RaftLog.Op} (h : s.step (.call op) = some t) :
    s.log.step op = some t.log ∧ t.puts = s.puts := by
  rcases step_cases h with ⟨op', heq, -, hlog, -, hputs⟩ | ⟨l, e, heq, -, ha, rfl⟩ | ⟨e, heq, -⟩
  · obtain rfl := Act.call.inj heq
    exact ⟨hlog, hputs⟩
  · obtain rfl := Act.call.inj heq
    refine ⟨?_, rfl⟩
    rw [RaftLog.step, ha]
    rfl
  · cases heq

/-! ### Order -/

/-- What was handed to the database is a part of the log, from its first entry on. -/
structure Inv (s : Applier) : Prop where
  counts : s.log.Counts
  handed : s.handed =
    (s.log.entries.take (s.log.lastAppend - s.log.startIndex)).map Entry.pair

theorem inv_start {saved : Nat} (h : saved < 2 ^ 64) : (start saved).Inv := by
  refine ⟨RaftLog.counts_load h, ?_⟩
  have hzero : (start saved).log.lastAppend - (start saved).log.startIndex = 0 := Nat.sub_self saved
  rw [hzero]
  rfl

theorem Inv.step {s t : Applier} {a : Act} (h : s.Inv) (hok : s.StampOk a)
    (hstep : s.step a = some t) : t.Inv ∧ t.log.startIndex = s.log.startIndex ∧
      s.log.commited ≤ t.log.commited ∧
      ∀ i e, i ≤ s.log.commited → s.log.entryAt i = some e → t.log.entryAt i = some e := by
  obtain ⟨hc, hh⟩ := h
  rcases step_cases hstep with ⟨op, rfl, hop, hlog, htaken, hputs⟩ | ⟨l, e, rfl, hnone, ha, rfl⟩ |
    ⟨e, rfl, hsome, rfl⟩
  · obtain ⟨hc', hk⟩ := hc.step hop hok hlog
    refine ⟨⟨hc', ?_⟩, hk.start, hk.commited, hk.entries⟩
    have hlast := hc.last_le
    rw [hk.last, hk.start, hk.take_eq hc (by omega), ← hh, Applier.handed, Applier.handed, htaken,
      hputs]
  · obtain ⟨hc', hentries, hstart, hcom, hlast, hget⟩ := hc.apply ha
    have hle := hc.start_le
    refine ⟨⟨hc', ?_⟩, hstart, hcom.ge, ?_⟩
    · have hsucc : s.log.lastAppend + 1 - s.log.startIndex =
          s.log.lastAppend - s.log.startIndex + 1 := by omega
      rw [Applier.handed, hnone] at hh
      rw [hentries, hstart, hlast, hsucc, List.take_add_one, hget, List.map_append, ← hh]
      simp [Applier.handed]
    · intro i e _ he
      rw [RaftLog.entryAt, hentries, hstart]
      exact he
  · refine ⟨⟨hc, ?_⟩, rfl, Nat.le_refl _, fun i e _ he => he⟩
    rw [← hh, Applier.handed, Applier.handed, hsome]
    simp

theorem Inv.of_run {s t : Applier} {as : List Act} (h : s.Inv) (hr : run Applier.step s as = some t)
    (hok : StepsOk Applier.step StampOk s as) : t.Inv ∧ t.log.startIndex = s.log.startIndex ∧
      s.log.commited ≤ t.log.commited ∧
      ∀ i e, i ≤ s.log.commited → s.log.entryAt i = some e → t.log.entryAt i = some e := by
  refine run_invariant (I := fun t => t.Inv ∧ t.log.startIndex = s.log.startIndex ∧
      s.log.commited ≤ t.log.commited ∧
      ∀ i e, i ≤ s.log.commited → s.log.entryAt i = some e → t.log.entryAt i = some e)
    ⟨h, rfl, Nat.le_refl _, fun i e _ he => he⟩ ?_ hr hok
  rintro u a v ⟨hu, hstart, hcom, hkeep⟩ ha hv
  obtain ⟨hv', hstart', hcom', hkeep'⟩ := hu.step ha hv
  refine ⟨hv', hstart'.trans hstart, hcom.trans hcom', ?_⟩
  intro i e hi he
  exact hkeep' i e (hi.trans hcom) (hkeep i e hi he)

theorem Inv.handed_eq {s : Applier} (h : s.Inv) :
    s.handed.map some =
      (List.range' (s.log.startIndex + 1) (s.log.lastAppend - s.log.startIndex)).map
        fun i => (s.log.at i).map Entry.pair := by
  obtain ⟨hc, hh⟩ := h
  have hlast := hc.last_le
  have hcom := hc.commited_le
  have hlt := hc.commited_lt
  refine List.ext_getElem? ?_
  intro k
  rw [hh, List.getElem?_map, List.getElem?_map, List.getElem?_take, List.getElem?_map]
  by_cases hk : k < s.log.lastAppend - s.log.startIndex
  · have hget : s.log.entries[k]? = some (s.log.queue.at k) := hc.queue.getElem?_toList (by omega)
    have hat := hc.at_eq (by omega) ((s.log.entryAt_add (by omega)).trans hget)
    rw [if_pos hk, hget, List.getElem?_range' hk, Nat.one_mul]
    simp only [Option.map_some, hat]
  · rw [if_neg hk, List.getElem?_eq_none (by rw [List.length_range']; omega)]
    rfl

theorem Inv.refuses {s : Applier} (h : s.Inv)
    (hfull : s.log.entries.length + 1 = RingBufferQueue.ringBufferSize) (entry : Entry) :
    s.log.putEntry entry = none := by
  rw [h.counts.length_entries] at hfull
  rcases RaftLog.putEntry_eq h.counts.queue entry with ⟨-, hp⟩ | ⟨ha, -⟩
  · exact hp
  · rw [RaftLog.accepts, hfull] at ha
    simp at ha

/-- **Committed entries reach the database in order, exactly once.**  Entries at committed
indices are neither removed nor replaced, and a put into a full log changes nothing. -/
theorem applied_in_order (saved : Nat) (hsaved : saved < 2 ^ 64) (as : List Act) (s : Applier)
    (hr : run step (start saved) as = some s) (hok : StepsOk step StampOk (start saved) as) :
    s.log.startIndex = saved ∧
    s.handed.map some =
      (List.range' (s.log.startIndex + 1) (s.log.lastAppend - s.log.startIndex)).map
        (fun i => (s.log.at i).map Entry.pair) ∧
    (∀ more t, run step s more = some t → StepsOk step StampOk s more →
      ∀ i e, i ≤ s.log.commited → s.log.entryAt i = some e →
        s.log.at i = some e ∧ t.log.entryAt i = some e ∧ t.log.at i = some e) ∧
    (s.log.entries.length + 1 = RingBufferQueue.ringBufferSize →
      (∀ key value term, s.log.put key value term = none ∧
        s.step (.call (.put key value term)) = some s) ∧
      ∀ entry, s.log.putEntry entry = none ∧ s.step (.call (.putEntry entry)) = some s) := by
  obtain ⟨hi, hstart, -, -⟩ := (inv_start hsaved).of_run hr hok
  refine ⟨hstart, hi.handed_eq, ?_, ?_⟩
  · intro more t ht hmore i e hle he
    obtain ⟨hi', -, -, hkeep⟩ := hi.of_run ht hmore
    have hlt : i < 2 ^ 64 := Nat.lt_of_le_of_lt hle hi.counts.commited_lt
    have he' := hkeep i e hle he
    exact ⟨hi.counts.at_eq hlt he, he', hi'.counts.at_eq hlt he'⟩
  · intro hfull
    constructor
    · intro key value term
      have hnone : s.log.put key value term = none := by
        rw [RaftLog.put, hi.refuses hfull]
        rfl
      refine ⟨hnone, ?_⟩
      simp [step, RaftLog.step, hnone]
    · intro entry
      have hnone := hi.refuses hfull entry
      refine ⟨hnone, ?_⟩
      simp [step, RaftLog.step, hnone]

/-- Three entries, of which a reset removes the last and a follower's put brings another. -/
def sampleActs : List Act :=
  [.call (.put [1] [10] 1), .call (.put [2] [20] 1), .call (.put [3] [30] 1),
    .call (.updateCommit 7), .call .apply, .call .reset, .dbPut,
    .call .apply, .dbPut,
    .call (.putEntry ⟨2, 8, [4], [40], 0, 8⟩), .call .apply]

theorem applied_in_order_sample :
    ∃ s, run step (start 5) sampleActs = some s ∧
      s.handed = [([1], [10]), ([2], [20]), ([4], [40])] ∧ s.log.lastAppend = 8 ∧
      s.handed.map some =
        (List.range' (s.log.startIndex + 1) (s.log.lastAppend - s.log.startIndex)).map
          (fun i => (s.log.at i).map Entry.pair) :=
  ⟨_, rfl, by decide, by decide,
    (applied_in_order 5 (by decide) sampleActs _ rfl (by decide)).2.1⟩

end Applier

end Mokv.Raft
