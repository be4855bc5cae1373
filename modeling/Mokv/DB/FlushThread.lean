import Mokv.DB.Handover
import Mokv.Lib.CondVar

/-!
# The flush thread

In `Handover` the flush thread takes a memtable whenever one is queued.  Here it is the loop of
`ToSSTLoop`: it sleeps in `to_sst_cv_`, empties the queue when it was woken, and ends when it
finds the queue empty after `to_sst_stop_flag_` is set.  `Put` and the destructor notify inside
their sections under `flush_mutex_`.  There is one thread to wake, so `notify_one` wakes
whom `notify_all` does.

Nobody calls a database that is being destroyed, and the destructor starts when the last call
has returned.

* `queue_is_flushed`: the loop is a run of `Handover`, memtables are flushed in the order of the
  queue, and **the thread never sleeps while there is something to do.**
* `destruction_ends`: after the destructor's section the thread ends after a number of steps that
  is known at that moment, and every memtable that was queued has been flushed.
-/

namespace Mokv

open LSM Lib

/-- Where `ToSSTLoop` is. -/
inductive FlushLoop where
  /-- before the lock of the outer loop -/
  | ready
  /-- inside `to_sst_cv_.wait` -/
  | waiting
  /-- in `ToSST`, without the lock -/
  | flushing
  /-- before the lock of the inner loop -/
  | relocking
  | exited
deriving DecidableEq

/-- The threads of a `DB`, with the flush thread at work.  `flushed` are the memtables that it
has made tables of. -/
structure FlushThread where
  db : Handover
  loop : FlushLoop
  cv : CondVar Unit
  flushed : List Nat

namespace FlushThread

/-- The steps. -/
inductive Act where
  /-- a section of a writer or of the destructor -/
  | call (move : Handover.Move)
  /-- the thread wakes up for no reason -/
  | wake
  /-- the thread's section, from the lock or from a wake-up on -/
  | look
  | toSST
  /-- the test of the inner loop -/
  | relock
  | join
deriving DecidableEq

/-- A `DB` on a directory with this manifest. -/
def start (manifest : Manifest) (sstId : Nat) (files : Files) : FlushThread :=
  ⟨.init manifest sstId files, .ready, .idle, []⟩

/-- `to_sst_stop_flag_`. -/
def stopFlag (s : FlushThread) : Bool := s.db.teardown = .stopped ∨ s.db.teardown = .joined

/-- Who may be in which section: writers before the destructor, the destructor after them. -/
def MayCall (s : FlushThread) : Handover.Move → Prop
  | .put .. => s.db.teardown = .alive
  | .check _ | .swap _ | .enqueue _ | .stop => True
  | .take => s.db.overLimit = [] ∧ s.db.pendingFlush = []
  | .dequeue | .toSST | .join => False

instance (s : FlushThread) : DecidablePred s.MayCall
  | .put .. => inferInstanceAs (Decidable (_ = _))
  | .check _ => isTrue trivial
  | .swap _ => isTrue trivial
  | .enqueue _ => isTrue trivial
  | .stop => isTrue trivial
  | .take => inferInstanceAs (Decidable (_ ∧ _))
  | .dequeue => isFalse id
  | .toSST => isFalse id
  | .join => isFalse id

/-- Whom the section notifies. -/
def notify (cv : CondVar Unit) : Handover.Move → CondVar Unit
  | .enqueue _ | .stop => cv.wakeAll
  | _ => cv

/-- `while (!flush_queue_.empty())`. -/
def drain (cfg : DBConfig) (s : FlushThread) : Option FlushThread :=
  if s.db.flushQueue.isEmpty then some { s with loop := .ready }
  else (s.db.step cfg .dequeue).map fun db => { s with db := db, loop := .flushing }

/-- The test of `wait` and what follows it. -/
def test (cfg : DBConfig) (s : FlushThread) : Option FlushThread :=
  if s.stopFlag || !s.db.flushQueue.isEmpty then
    let s := { s with cv := s.cv.leave () }
    if s.stopFlag && s.db.flushQueue.isEmpty then some { s with loop := .exited }
    else s.drain cfg
  else some { s with loop := .waiting, cv := s.cv.sleep () }

/-- One step. -/
def step (cfg : DBConfig) (s : FlushThread) : Act → Option FlushThread
  | .call move =>
    if s.MayCall move then
      (s.db.step cfg move).map fun db => { s with db := db, cv := notify s.cv move }
    else none
  | .wake => if () ∈ s.cv.asleep then some { s with cv := s.cv.wake () } else none
  | .look =>
    match s.loop with
    | .ready => s.test cfg
    | .waiting => if () ∈ s.cv.woken then s.test cfg else none
    | _ => none
  | .toSST =>
    if s.loop = .flushing then
      (s.db.step cfg .toSST).map fun db =>
        { s with db := db, loop := .relocking, flushed := s.flushed ++ s.db.flushing.toList }
    else none
  | .relock => if s.loop = .relocking then s.drain cfg else none
  | .join =>
    if s.loop = .exited then (s.db.step cfg .join).map fun db => { s with db := db } else none

/-! ### What a step does -/

section

variable {cfg : DBConfig} {s t : FlushThread}

theorem drain_cases (h : s.drain cfg = some t) :
    (s.db.flushQueue = [] ∧ t = { s with loop := .ready }) ∨
      ∃ db, s.db.step cfg .dequeue = some db ∧ t = { s with db := db, loop := .flushing } := by
  rw [drain] at h
  split at h
  · exact Or.inl ⟨List.isEmpty_iff.mp ‹_›, (Option.some.inj h).symm⟩
  · obtain ⟨db, hdb, rfl⟩ := Option.map_eq_some_iff.mp h
    exact Or.inr ⟨db, hdb, rfl⟩

theorem dequeue_cases {db : Handover} (h : s.db.step cfg .dequeue = some db) :
    ∃ a q, s.db.flushing = none ∧ s.db.flushQueue = a :: q ∧
      db = { s.db with flushQueue := q, flushing := some a } := by
  cases Handover.stepped_of_step h with
  | dequeue hf hq => exact ⟨_, _, hf, hq, rfl⟩

/-- **What the thread's section does**: it takes a memtable, falls asleep or ends. -/
theorem test_cases (h : s.test cfg = some t) :
    (∃ db, s.db.step cfg .dequeue = some db ∧
        t = { s with db := db, loop := .flushing, cv := s.cv.leave () }) ∨
      (s.db.flushQueue = [] ∧ s.stopFlag = false ∧
        t = { s with loop := .waiting, cv := s.cv.sleep () }) ∨
      (s.db.flushQueue = [] ∧ s.stopFlag = true ∧
        t = { s with loop := .exited, cv := s.cv.leave () }) := by
  rw [test] at h
  split at h
  · dsimp only at h
    split at h
    · rename_i hend
      obtain ⟨hstop, hempty⟩ := Bool.and_eq_true_iff.mp hend
      exact Or.inr (Or.inr ⟨List.isEmpty_iff.mp hempty, hstop, (Option.some.inj h).symm⟩)
    · rename_i hwork hend
      rcases drain_cases h with ⟨hempty, -⟩ | ⟨db, hdb, rfl⟩
      · -- the predicate held, so the queue was not empty
        have hempty' : s.db.flushQueue = [] := hempty
        rw [hempty', List.isEmpty_nil, Bool.not_true, Bool.or_false] at hwork
        exact absurd (Bool.and_eq_true_iff.mpr ⟨hwork, List.isEmpty_iff.mpr hempty⟩) hend
      · exact Or.inl ⟨db, hdb, rfl⟩
  · rename_i hidle
    have hno : s.stopFlag = false ∧ s.db.flushQueue = [] := by simpa using hidle
    exact Or.inr (Or.inl ⟨hno.2, hno.1, (Option.some.inj h).symm⟩)

theorem look_cases (h : s.step cfg .look = some t) :
    s.test cfg = some t ∧ (s.loop = .ready ∨ s.loop = .waiting ∧ () ∈ s.cv.woken) := by
  rw [step] at h
  split at h
  · exact ⟨h, Or.inl ‹_›⟩
  · split at h
    · exact ⟨h, Or.inr ⟨‹_›, ‹_›⟩⟩
    · cases h
  · cases h

theorem join_cases {db : Handover} (h : s.db.step cfg .join = some db) :
    s.db.teardown = .stopped ∧ db = { s.db with teardown := .joined } := by
  cases Handover.stepped_of_step h with
  | join hstopped => exact ⟨hstopped, rfl⟩

/-! ### The calls -/

/-- When the destructor has started, no call is under way. -/
def Unused (db : Handover) : Prop :=
  db.teardown ≠ .alive → db.reading = [] ∧ db.overLimit = [] ∧ db.pendingFlush = []

theorem alive_of_stepped {move : Handover.Move} {db : Handover} (hu : Unused s.db)
    (hmay : s.MayCall move) (h : Handover.Stepped cfg s.db move db) :
    s.db.teardown = .alive ∨ move = .stop ∧ ∃ p, s.db.teardown = .taken p := by
  by_contra hno
  have hno' := not_or.mp hno
  obtain ⟨hreading, hover, hpending⟩ := hu hno'.1
  cases h with
  | put hidle => exact hno'.1 hmay
  | check hi =>
    rw [hreading] at hi
    cases hi
  | keep hi =>
    rw [hover] at hi
    cases hi
  | swap hi =>
    rw [hover] at hi
    cases hi
  | enqueue hsplit =>
    rw [hpending] at hsplit
    exact absurd (congrArg List.length hsplit) (by simp)
  | dequeue => exact hmay
  | toSST => exact hmay
  | take halive => exact hno'.1 halive
  | takeNone halive => exact hno'.1 halive
  | stop hp => exact hno'.2 ⟨rfl, _, hp⟩
  | join => exact hmay

/-- What a section of a call leaves for the flush thread. -/
structure Called (s t : FlushThread) : Prop where
  loop : t.loop = s.loop
  flushed : t.flushed = s.flushed
  flushing : t.db.flushing = s.db.flushing
  notStopped : s.stopFlag = false
  unused : Unused t.db
  notJoined : t.db.teardown ≠ .joined
  /-- What it queues, it tells. -/
  queue : ∃ l, t.db.flushQueue = s.db.flushQueue ++ l ∧ t.db.queued = s.db.queued ++ l ∧
    (t.cv = s.cv.wakeAll ∨ t.cv = s.cv ∧ l = [] ∧ t.stopFlag = false)

/-- The sections that neither queue a memtable nor tear the database down. -/
def Keeps : Handover.Move → Prop
  | .put .. | .check _ | .swap _ => True
  | _ => False

theorem keeps_of_stepped {move : Handover.Move} {d e : Handover} (hk : Keeps move)
    (h : Handover.Stepped cfg d move e) :
    e.flushing = d.flushing ∧ e.flushQueue = d.flushQueue ∧ e.queued = d.queued ∧
      e.teardown = d.teardown := by
  cases h with
  | put | check | keep | swap => exact ⟨rfl, rfl, rfl, rfl⟩
  | enqueue | dequeue | toSST | take | takeNone | stop | join => exact absurd hk id

theorem called_of_step {move : Handover.Move} (hu : Unused s.db)
    (h : s.step cfg (.call move) = some t) : s.db.step cfg move = some t.db ∧ Called s t := by
  rw [step] at h
  split at h
  · rename_i hmay
    obtain ⟨db, hdb, rfl⟩ := Option.map_eq_some_iff.mp h
    refine ⟨hdb, ?_⟩
    have hstepped := Handover.stepped_of_step hdb
    have hearly := alive_of_stepped hu hmay hstepped
    have hflag : s.stopFlag = false := by
      rcases hearly with halive | ⟨-, p, hp⟩
      · simp [stopFlag, halive]
      · simp [stopFlag, hp]
    have hkeeps : Keeps move → notify s.cv move = s.cv →
        Called s { s with db := db, cv := notify s.cv move } := by
      intro hk hcv
      obtain ⟨hflushing, hqueue, hqueued, hteardown⟩ := keeps_of_stepped hk hstepped
      have halive : db.teardown = .alive := by
        rw [hteardown]
        exact hearly.resolve_right fun ⟨hstop, _⟩ => by rw [hstop] at hk; exact hk
      refine ⟨rfl, rfl, hflushing, hflag, fun hne => absurd halive hne, by simp [halive], [], ?_,
        ?_, Or.inr ⟨hcv, rfl, by simp [stopFlag, halive]⟩⟩
      · rw [List.append_nil]
        exact hqueue
      · rw [List.append_nil]
        exact hqueued
    cases move with
    | put i key value => exact hkeeps trivial rfl
    | check i => exact hkeeps trivial rfl
    | swap i => exact hkeeps trivial rfl
    | enqueue i =>
      have halive := hearly.resolve_right (by simp)
      cases hstepped with
      | enqueue hsplit =>
        exact ⟨rfl, rfl, rfl, hflag, fun hne => absurd halive hne, by simp [halive], _, rfl, rfl,
          Or.inl rfl⟩
    | dequeue => exact absurd hmay id
    | toSST => exact absurd hmay id
    | take =>
      have hreading : s.db.reading = [] := by
        rw [Handover.step] at hdb
        split at hdb
        · exact (‹_ ∧ _› : _ ∧ _).2
        · cases hdb
      obtain ⟨hover, hpending⟩ := hmay
      cases hstepped with
      | take | takeNone =>
        exact ⟨rfl, rfl, rfl, hflag, fun _ => ⟨hreading, hover, hpending⟩, by simp, [],
          (List.append_nil _).symm, (List.append_nil _).symm, Or.inr ⟨rfl, rfl, by simp [stopFlag]⟩⟩
    | stop =>
      cases hstepped with
      | stop hp =>
        have hunused := hu (by simp [hp])
        exact ⟨rfl, rfl, rfl, hflag, fun _ => hunused, by simp, _, rfl, rfl, Or.inl rfl⟩
    | join => exact absurd hmay id
  · cases h

/-! ### What holds in every state -/

/-- What the thread waits for. -/
def HasWork (s : FlushThread) (_ : Unit) : Prop := s.stopFlag = true ∨ s.db.flushQueue ≠ []

structure Inv (cfg : DBConfig) (d : Handover) (s : FlushThread) : Prop where
  /-- The sections are those of `Handover`. -/
  reached : ∃ moves, run (Handover.step cfg) d moves = some s.db
  order : s.db.queued = s.flushed ++ (s.db.flushing.toList ++ s.db.flushQueue)
  flushing : s.loop = .flushing ↔ s.db.flushing ≠ none
  unused : Unused s.db
  apart : s.cv.Apart
  waiting : s.loop = .waiting ↔ () ∈ s.cv.waiting
  noneDue : s.cv.all = 0
  alert : s.cv.Alert s.HasWork
  exited : s.loop = .exited → s.stopFlag = true ∧ s.db.flushQueue = []
  joined : s.db.teardown = .joined → s.loop = .exited

theorem inv_start (manifest : Manifest) (sstId : Nat) (files : Files) :
    Inv cfg (.init manifest sstId files) (start manifest sstId files) where
  reached := ⟨[], rfl⟩
  order := rfl
  flushing := by simp [start, Handover.init]
  unused := fun h => absurd rfl h
  apart := CondVar.apart_idle
  waiting := by simp [start, CondVar.waiting, CondVar.idle]
  noneDue := rfl
  alert := CondVar.alert_idle _
  exited := by simp [start]
  joined := by simp [start, Handover.init]

variable {d : Handover}

theorem Inv.reached_step (h : Inv cfg d s) {move : Handover.Move} {db : Handover}
    (hs : s.db.step cfg move = some db) : ∃ moves, run (Handover.step cfg) d moves = some db := by
  obtain ⟨moves, hm⟩ := h.reached
  exact ⟨moves ++ [move], run_concat.mpr ⟨s.db, hm, hs⟩⟩

theorem Inv.call (h : Inv cfg d s) {move : Handover.Move} (ht : s.step cfg (.call move) = some t) :
    Inv cfg d t := by
  obtain ⟨hdb, hc⟩ := called_of_step h.unused ht
  obtain ⟨l, hqueue, hqueued, hcv⟩ := hc.queue
  have hwaiting : t.cv.waiting = s.cv.waiting ∧ t.cv.Apart ∧ t.cv.all = s.cv.all := by
    rcases hcv with hcv | ⟨hcv, -⟩
    · rw [hcv]
      refine ⟨?_, by simp [CondVar.Apart, CondVar.wakeAll], rfl⟩
      rw [CondVar.waiting, CondVar.waiting, CondVar.wakeAll, Finset.empty_union, Finset.union_comm]
    · rw [hcv]
      exact ⟨rfl, h.apart, rfl⟩
  refine ⟨h.reached_step hdb, ?_, ?_, hc.unused, hwaiting.2.1, ?_, ?_, ?_, ?_, ?_⟩
  · rw [hqueued, hqueue, hc.flushed, hc.flushing, h.order]
    simp only [List.append_assoc]
  · rw [hc.loop, hc.flushing]
    exact h.flushing
  · rw [hc.loop, hwaiting.1]
    exact h.waiting
  · rw [hwaiting.2.2]
    exact h.noneDue
  · rcases hcv with hcv | ⟨hcv, hl, hflag⟩
    · rw [hcv]
      exact CondVar.alert_wakeAll _ _
    · rw [hcv]
      refine h.alert.anti ?_
      intro _ hwork
      refine Or.inr ?_
      rw [HasWork, hflag, hqueue, hl, List.append_nil] at hwork
      exact hwork.resolve_left Bool.false_ne_true
  · intro hexit
    rw [hc.loop] at hexit
    exact absurd (h.exited hexit).1 (by simp [hc.notStopped])
  · exact fun hj => absurd hj hc.notJoined

theorem Inv.awake (h : Inv cfg d s) (hloop : s.loop ≠ .waiting) : () ∉ s.cv.waiting :=
  fun hm => hloop (h.waiting.mpr hm)

theorem Inv.idle (h : Inv cfg d s) (hloop : s.loop ≠ .flushing) : s.db.flushing = none :=
  not_not.mp fun hne => hloop (h.flushing.mpr hne)

theorem Inv.notJoined (h : Inv cfg d s) (hloop : s.loop ≠ .exited) : s.db.teardown ≠ .joined :=
  fun hj => hloop (h.joined hj)

theorem Inv.take (h : Inv cfg d s) (hexit : s.loop ≠ .exited) {db : Handover}
    (hdb : s.db.step cfg .dequeue = some db) {cv : CondVar Unit} (hcv : () ∉ cv.waiting)
    (hapart : cv.Apart) (hdue : cv.all = 0) :
    Inv cfg d { s with db := db, loop := .flushing, cv := cv } := by
  obtain ⟨a, q, hf, hq, rfl⟩ := dequeue_cases hdb
  refine ⟨h.reached_step hdb, ?_, by simp, h.unused, hapart, by simpa using hcv, hdue, ?_, by simp,
    fun hj => absurd hj (h.notJoined hexit)⟩
  · rw [h.order, hf, hq]
    rfl
  · exact Or.inr fun _ hm => absurd (Finset.mem_union_left _ hm) hcv

theorem Inv.test (h : Inv cfg d s) (hasleep : () ∉ s.cv.asleep) (hloop : s.loop ≠ .flushing)
    (hexit : s.loop ≠ .exited) (ht : s.test cfg = some t) : Inv cfg d t := by
  have hnone := h.idle hloop
  have hnotJoined := h.notJoined hexit
  have hleave : () ∉ (s.cv.leave ()).waiting := by
    rw [CondVar.waiting_leave hasleep]
    exact Finset.notMem_erase _ _
  rcases test_cases ht with ⟨db, hdb, rfl⟩ | ⟨hempty, hflag, rfl⟩ | ⟨hempty, hflag, rfl⟩
  · exact h.take hexit hdb hleave (h.apart.leave _) h.noneDue
  · refine ⟨h.reached, h.order, by simp [hnone], h.unused, h.apart.sleep _, ?_, h.noneDue, ?_,
      by simp, fun hj => absurd hj hnotJoined⟩
    · simp [CondVar.waiting_sleep]
    · refine h.alert.sleep ?_
      rintro (hstop | hne)
      · rw [hflag] at hstop
        cases hstop
      · exact hne hempty
  · exact ⟨h.reached, h.order, by simp [hnone], h.unused, h.apart.leave _, by simpa using hleave,
      h.noneDue, h.alert, fun _ => ⟨hflag, hempty⟩, fun hj => absurd hj hnotJoined⟩

theorem Inv.relock (h : Inv cfg d s) (ht : s.step cfg .relock = some t) : Inv cfg d t := by
  rw [FlushThread.step] at ht
  split at ht
  · rename_i hloop
    have hexit : s.loop ≠ .exited := by simp [hloop]
    have hawake := h.awake (by simp [hloop])
    rcases drain_cases ht with ⟨hempty, rfl⟩ | ⟨db, hdb, rfl⟩
    · exact ⟨h.reached, h.order, by simp [h.idle (by simp [hloop])], h.unused, h.apart,
        by simpa using hawake, h.noneDue, h.alert, by simp,
        fun hj => absurd hj (h.notJoined hexit)⟩
    · exact h.take hexit hdb hawake h.apart h.noneDue
  · cases ht

theorem Inv.toSST (h : Inv cfg d s) (ht : s.step cfg .toSST = some t) : Inv cfg d t := by
  rw [FlushThread.step] at ht
  split at ht
  · rename_i hloop
    obtain ⟨db, hdb, rfl⟩ := Option.map_eq_some_iff.mp ht
    have hawake := h.awake (by simp [hloop])
    have hnotJoined := h.notJoined (by simp [hloop])
    refine ⟨h.reached_step hdb, ?_, ?_, ?_, h.apart, by simpa using hawake, h.noneDue,
      Or.inr fun _ hm => absurd (Finset.mem_union_left _ hm) hawake, by simp, ?_⟩
    all_goals cases Handover.stepped_of_step hdb with
      | toSST hf hr => ?_
    · show s.db.queued = s.flushed ++ s.db.flushing.toList ++ _
      rw [h.order, List.append_assoc]
      rfl
    · simp
    · exact h.unused
    · exact fun hj => absurd hj hnotJoined
  · cases ht

theorem Inv.join (h : Inv cfg d s) (ht : s.step cfg .join = some t) : Inv cfg d t := by
  rw [FlushThread.step] at ht
  split at ht
  · rename_i hloop
    obtain ⟨db, hdb, rfl⟩ := Option.map_eq_some_iff.mp ht
    have hreached := h.reached_step hdb
    obtain ⟨hstopped, rfl⟩ := join_cases hdb
    have hunused := h.unused (by simp [hstopped])
    have hempty := (h.exited hloop).2
    have hawake := h.awake (by simp [hloop])
    exact ⟨hreached, h.order, h.flushing, fun _ => hunused, h.apart, h.waiting, h.noneDue,
      Or.inr fun _ hm => absurd (Finset.mem_union_left _ hm) hawake,
      fun _ => ⟨by simp [stopFlag], hempty⟩, fun _ => hloop⟩
  · cases ht

/-- **Every step keeps the thread awake while it has work.** -/
theorem Inv.step (h : Inv cfg d s) {a : Act} (ht : s.step cfg a = some t) : Inv cfg d t := by
  cases a with
  | call move => exact h.call ht
  | wake =>
    rw [FlushThread.step] at ht
    split at ht
    · rename_i hasleep
      obtain rfl := Option.some.inj ht
      refine ⟨h.reached, h.order, h.flushing, h.unused, h.apart.wake _, ?_, h.noneDue,
        h.alert.wake _, h.exited, h.joined⟩
      rw [CondVar.waiting_wake hasleep]
      exact h.waiting
    · cases ht
  | look =>
    obtain ⟨htest, hloop⟩ := look_cases ht
    refine h.test ?_ ?_ ?_ htest
    · rcases hloop with hready | ⟨-, hwoken⟩
      · exact fun hm => h.awake (by simp [hready]) (Finset.mem_union_left _ hm)
      · exact fun hm => h.apart _ hm hwoken
    · rcases hloop with hloop | ⟨hloop, -⟩ <;> simp [hloop]
    · rcases hloop with hloop | ⟨hloop, -⟩ <;> simp [hloop]
  | toSST => exact h.toSST ht
  | relock => exact h.relock ht
  | join => exact h.join ht

theorem inv_of_run {manifest : Manifest} {sstId : Nat} {files : Files} {as : List Act}
    (hr : run (FlushThread.step cfg) (start manifest sstId files) as = some s) :
    Inv cfg (.init manifest sstId files) s :=
  run_invariant (inv_start manifest sstId files) (fun _ _ _ h _ ht => h.step ht) hr
    (stepsOk_true _ as)

/-! ### The next step -/

/-- A step of the loop. -/
def Act.isLoop : Act → Bool
  | .look | .toSST | .relock => true
  | _ => false

/-- The loop can go on, unless `ToSST` throws. -/
def CanMove (cfg : DBConfig) (s : FlushThread) : Prop :=
  ∃ a, a.isLoop = true ∧ ((s.step cfg a).isSome ∨
    a = .toSST ∧ ∃ m ∈ s.db.flushing, s.db.db.toSST cfg (s.db.heap m) = none)

theorem Inv.not_asleep (h : Inv cfg d s) (hwork : s.HasWork ()) : () ∉ s.cv.asleep := by
  intro hm
  rcases h.alert with hdue | hno
  · rw [h.noneDue] at hdue
    cases hdue
  · exact hno () hm hwork

theorem Inv.isSome_drain (h : Inv cfg d s) (hloop : s.loop ≠ .flushing) (hexit : s.loop ≠ .exited)
    (cv : CondVar Unit) : (FlushThread.drain cfg { s with cv := cv }).isSome := by
  rw [drain]
  cases hq : s.db.flushQueue with
  | nil => rfl
  | cons a q =>
    rw [if_neg (by simp), Option.isSome_map, Handover.step]
    simp [h.idle hloop, hq, h.notJoined hexit]

theorem Inv.isSome_test (h : Inv cfg d s) (hloop : s.loop ≠ .flushing) (hexit : s.loop ≠ .exited) :
    (s.test cfg).isSome := by
  rw [FlushThread.test]
  split
  · dsimp only
    split
    · rfl
    · exact h.isSome_drain hloop hexit _
  · rfl

/-- **A thread with work can go on.** -/
theorem Inv.canMove (h : Inv cfg d s) (hwork : s.HasWork ()) (hexit : s.loop ≠ .exited) :
    CanMove cfg s := by
  cases hloop : s.loop with
  | ready =>
    refine ⟨.look, rfl, Or.inl ?_⟩
    rw [FlushThread.step]
    simp only [hloop]
    exact h.isSome_test (by simp [hloop]) hexit
  | waiting =>
    have hwoken : () ∈ s.cv.woken :=
      (Finset.mem_union.mp (h.waiting.mp hloop)).resolve_left (h.not_asleep hwork)
    refine ⟨.look, rfl, Or.inl ?_⟩
    rw [FlushThread.step]
    simp only [hloop, hwoken, if_true]
    exact h.isSome_test (by simp [hloop]) hexit
  | flushing =>
    obtain ⟨m, hm⟩ := Option.ne_none_iff_exists'.mp (h.flushing.mp hloop)
    refine ⟨.toSST, rfl, ?_⟩
    cases hsst : s.db.db.toSST cfg (s.db.heap m) with
    | none => exact Or.inr ⟨rfl, m, hm, hsst⟩
    | some r =>
      refine Or.inl ?_
      rw [FlushThread.step, if_pos hloop, Option.isSome_map, Handover.step]
      simp only [hm, hsst]
      rfl
  | relocking =>
    refine ⟨.relock, rfl, Or.inl ?_⟩
    rw [FlushThread.step, if_pos hloop]
    exact h.isSome_drain (by simp [hloop]) hexit s.cv
  | exited => exact absurd hloop hexit

/-! ### The way to the end -/

/-- How many steps the loop takes from here once the flag is set. -/
def rest (s : FlushThread) : Nat :=
  match s.loop with
  | .ready | .waiting => if s.db.flushQueue = [] then 1 else 2 * s.db.flushQueue.length + 2
  | .flushing => 2 * s.db.flushQueue.length + 3
  | .relocking => 2 * s.db.flushQueue.length + 2
  | .exited => 0

theorem rest_dequeue {db : Handover} (hdb : s.db.step cfg .dequeue = some db) (cv : CondVar Unit)
    (hloop : s.loop = .ready ∨ s.loop = .waiting ∨ s.loop = .relocking) :
    1 + rest { s with db := db, loop := .flushing, cv := cv } = s.rest := by
  obtain ⟨a, q, -, hq, rfl⟩ := dequeue_cases hdb
  rcases hloop with hloop | hloop | hloop
  all_goals
    simp only [rest, hloop, hq, List.length_cons, reduceCtorEq, if_false]
    omega

/-- **Once the flag is set, only the loop moves, and every step is counted.** -/
theorem Inv.rest_step (h : Inv cfg d s) (hflag : s.stopFlag = true) {a : Act}
    (ht : s.step cfg a = some t) :
    t.stopFlag = true ∧ (if a.isLoop then 1 else 0) + t.rest = s.rest := by
  cases a with
  | call move =>
    have hno := (called_of_step h.unused ht).2.notStopped
    rw [hflag] at hno
    cases hno
  | wake =>
    rw [FlushThread.step, if_neg (h.not_asleep (Or.inl hflag))] at ht
    cases ht
  | look =>
    obtain ⟨htest, hloop⟩ := look_cases ht
    have hloop' : s.loop = .ready ∨ s.loop = .waiting := hloop.imp id And.left
    rcases test_cases htest with ⟨db, hdb, rfl⟩ | ⟨-, hno, -⟩ | ⟨hempty, -, rfl⟩
    · refine ⟨?_, rest_dequeue hdb _ (hloop'.imp id Or.inl)⟩
      obtain ⟨a, q, -, -, rfl⟩ := dequeue_cases hdb
      exact hflag
    · rw [hflag] at hno
      cases hno
    · refine ⟨hflag, ?_⟩
      rcases hloop' with hloop' | hloop' <;> simp [rest, hloop', hempty, Act.isLoop]
  | toSST =>
    rw [FlushThread.step] at ht
    split at ht
    · rename_i hloop
      obtain ⟨db, hdb, rfl⟩ := Option.map_eq_some_iff.mp ht
      cases Handover.stepped_of_step hdb with
      | toSST hf hr =>
        refine ⟨hflag, ?_⟩
        simp only [rest, hloop, Act.isLoop, if_true]
        omega
    · cases ht
  | relock =>
    rw [FlushThread.step] at ht
    split at ht
    · rename_i hloop
      rcases drain_cases ht with ⟨hempty, rfl⟩ | ⟨db, hdb, rfl⟩
      · exact ⟨hflag, by simp [rest, hloop, hempty, Act.isLoop]⟩
      · refine ⟨?_, rest_dequeue hdb _ (Or.inr (Or.inr hloop))⟩
        obtain ⟨a, q, -, -, rfl⟩ := dequeue_cases hdb
        exact hflag
    · cases ht
  | join =>
    rw [FlushThread.step] at ht
    split at ht
    · rename_i hloop
      obtain ⟨db, hdb, rfl⟩ := Option.map_eq_some_iff.mp ht
      obtain ⟨-, rfl⟩ := join_cases hdb
      refine ⟨by simp [stopFlag], ?_⟩
      simp [rest, hloop, Act.isLoop]
    · cases ht

theorem Inv.rest_run (h : Inv cfg d s) (hflag : s.stopFlag = true) {bs : List Act}
    (hr : run (FlushThread.step cfg) s bs = some t) :
    Inv cfg d t ∧ t.stopFlag = true ∧ bs.countP Act.isLoop + t.rest = s.rest := by
  induction bs generalizing s with
  | nil =>
    obtain rfl := Option.some.inj hr
    exact ⟨h, hflag, by simp⟩
  | cons a bs ih =>
    obtain ⟨u, hu, hr⟩ := Option.bind_eq_some_iff.mp hr
    obtain ⟨huflag, hcount⟩ := h.rest_step hflag hu
    obtain ⟨hinv, htflag, hrest⟩ := ih (h.step hu) huflag hr
    refine ⟨hinv, htflag, ?_⟩
    rw [List.countP_cons]
    omega

end

/-- **The queue is flushed in its order, and the thread never sleeps while there is something to
do.**  A memtable is in the queue, with the thread or flushed; the thread falls asleep only on an
empty queue, and whenever a memtable is queued or the flag is set it has a next step. -/
theorem queue_is_flushed (cfg : DBConfig) (manifest : Manifest) (sstId : Nat) (files : Files)
    (as : List Act) (s : FlushThread)
    (hr : run (step cfg) (start manifest sstId files) as = some s) :
    (∃ moves, run (Handover.step cfg) (.init manifest sstId files) moves = some s.db) ∧
      s.db.queued = s.flushed ++ (s.db.flushing.toList ++ s.db.flushQueue) ∧
      (() ∈ s.cv.asleep → s.stopFlag = false ∧ s.db.flushQueue = []) ∧
      (s.loop = .exited → s.stopFlag = true ∧ s.db.flushQueue = []) ∧
      (s.stopFlag = true ∨ s.db.flushQueue ≠ [] → s.loop ≠ .exited → CanMove cfg s) := by
  have h : Inv cfg _ s := inv_of_run hr
  refine ⟨h.reached, h.order, ?_, h.exited, h.canMove⟩
  intro hm
  obtain ⟨hflag, hqueue⟩ := not_or.mp fun hwork => h.not_asleep hwork hm
  exact ⟨Bool.eq_false_iff.mpr hflag, not_not.mp hqueue⟩

/-- The thread sleeps when the first writer comes.  The second memtable is queued while the first
becomes a table. -/
def twoFlushes : List Act :=
  [.look, .call (.put 0 [1] [2, 3]), .call (.check 0), .call (.swap 0), .call (.enqueue 0), .look,
    .call (.put 0 [3] [4, 5]), .call (.check 0), .call (.swap 0), .call (.enqueue 0), .toSST]

theorem queue_is_flushed_sample :
    ∃ s, run (step ⟨2, plainFileSize fun _ => 152⟩) (start Manifest.new 0 fun _ => none)
        twoFlushes = some s ∧ s.db.queued = [0, 1] ∧ s.flushed = [0] ∧
      CanMove ⟨2, plainFileSize fun _ => 152⟩ s := by
  have hrun : (run (step ⟨2, plainFileSize fun _ => 152⟩) (start Manifest.new 0 fun _ => none)
      twoFlushes).map (fun s => (s.db.queued, s.flushed, s.db.flushQueue, s.loop)) =
        some ([0, 1], [0], [1], .relocking) := by decide +kernel
  obtain ⟨s, hs, heq⟩ := Option.map_eq_some_iff.mp hrun
  obtain ⟨hqueued, hflushed, hqueue, hloop⟩ : s.db.queued = [0, 1] ∧ s.flushed = [0] ∧
      s.db.flushQueue = [1] ∧ s.loop = .relocking := by simpa using heq
  obtain ⟨-, -, -, -, hmove⟩ := queue_is_flushed ⟨2, plainFileSize fun _ => 152⟩ Manifest.new 0
    (fun _ => none) twoFlushes s hs
  exact ⟨s, hs, hqueued, hflushed, hmove (Or.inr (by simp [hqueue])) (by simp [hloop])⟩

/-- **The destruction ends with an empty queue.**  After the destructor's section the loop takes
`rest` steps and no more, it can go on as long as it has not ended, and when it has, every
memtable that was queued is flushed and the destructor can join it. -/
theorem destruction_ends (cfg : DBConfig) (manifest : Manifest) (sstId : Nat) (files : Files)
    (as bs : List Act) (s t : FlushThread)
    (hr : run (step cfg) (start manifest sstId files) as = some s) (hflag : s.stopFlag = true)
    (hr' : run (step cfg) s bs = some t) :
    bs.countP Act.isLoop + t.rest = s.rest ∧ (t.loop ≠ .exited → CanMove cfg t) ∧
      (t.loop = .exited → t.flushed = t.db.queued ∧
        (t.db.teardown = .joined ∨ (t.step cfg .join).isSome)) ∧
      (t.db.teardown = .joined → t.loop = .exited) := by
  obtain ⟨h, htflag, hcount⟩ := (inv_of_run hr).rest_run hflag hr'
  refine ⟨hcount, h.canMove (Or.inl htflag), ?_, h.joined⟩
  intro hexit
  have hidle := h.idle (by simp [hexit])
  have hempty := (h.exited hexit).2
  refine ⟨?_, ?_⟩
  · rw [h.order, hidle, hempty, Option.toList_none, List.append_nil, List.append_nil]
  · by_cases hj : t.db.teardown = .joined
    · exact Or.inl hj
    · have hstopped : t.db.teardown = .stopped := by
        have := of_decide_eq_true htflag
        exact this.resolve_right hj
      refine Or.inr ?_
      rw [step, if_pos hexit, Option.isSome_map, Handover.step]
      simp [hstopped, hidle, hempty]

/-- The destructor finds a third memtable with one entry. -/
def thirdFlush : List Act :=
  [.call (.put 1 [5] []), .relock, .call (.check 1), .call .take, .call .stop]

theorem destruction_ends_sample :
    ∃ s t, run (step ⟨2, plainFileSize fun _ => 152⟩) (start Manifest.new 0 fun _ => none)
        (twoFlushes ++ thirdFlush) = some s ∧ s.rest = 5 ∧
      run (step ⟨2, plainFileSize fun _ => 152⟩) s
        [.toSST, .relock, .toSST, .relock, .look, .join] = some t ∧
      t.loop = .exited ∧ t.flushed = t.db.queued ∧ t.rest = 0 := by
  have hrun : (run (step ⟨2, plainFileSize fun _ => 152⟩) (start Manifest.new 0 fun _ => none)
      (twoFlushes ++ thirdFlush)).all (fun s => s.stopFlag && s.rest == 5 &&
        (run (step ⟨2, plainFileSize fun _ => 152⟩) s
          [.toSST, .relock, .toSST, .relock, .look, .join]).any
          fun t => t.loop == .exited) = true := by decide +kernel
  obtain ⟨s, hs⟩ := Option.isSome_iff_exists.mp (show (run
    (step ⟨2, plainFileSize fun _ => 152⟩) (start Manifest.new 0 fun _ => none)
      (twoFlushes ++ thirdFlush)).isSome = true by decide +kernel)
  rw [hs, Option.all_some, Bool.and_eq_true, Bool.and_eq_true, Option.any_eq_true] at hrun
  obtain ⟨⟨hflag, hrest⟩, t, ht, hexit⟩ := hrun
  obtain ⟨hcount, -, hend, -⟩ := destruction_ends ⟨2, plainFileSize fun _ => 152⟩ Manifest.new 0
    (fun _ => none) (twoFlushes ++ thirdFlush) _ s t hs hflag ht
  have hloop : t.loop = .exited := by simpa using hexit
  have hrest5 : s.rest = 5 := by simpa using hrest
  refine ⟨s, t, hs, hrest5, ht, hloop, (hend hloop).1, ?_⟩
  have hsteps : [Act.toSST, .relock, .toSST, .relock, .look, .join].countP Act.isLoop = 5 := by
    decide
  omega

end FlushThread

end Mokv
