import Mathlib.Algebra.BigOperators.Fin
import Mokv.Lib.CondVar
import Mokv.Lib.Run

/-!
# The thread pool

`ThreadPool` (`mokv/pool/thread_pool.hpp`): a queue of tasks, workers that take them from its
front, and a destructor that lets the workers empty the queue.  The steps are the sections
under `queue_mutex_`, the tasks themselves, and the notifications, which come after the
sections.  A task is what its `packaged_task` calls; the value that the call leaves in the
future may be an exception.

`started_in_order`: tasks start in the order of the queue, each once, and a future holds what
its own task gave.  `no_idle_worker`: while a worker sleeps, every waiting task has a worker or
a notification on its way.  `concurrentRun_eq`: the results come in the order of the functions,
and until they are there the pool is not stuck.  `destructor_drains`: after the destructor's
section the workers stop after a bounded number of steps, and not before every task has run.
-/

namespace Mokv

open Lib

/-- Where a worker is. -/
inductive Worker (α : Type) where
  /-- before its section -/
  | ready
  /-- inside `condition_.wait` -/
  | waiting
  | busy (task : Nat × α)
  | exited
deriving DecidableEq

/-- `ThreadPool` with `n` workers.  A task is known by the number of its future.  `accepted`
are the tasks of all calls of `Enqueue` and `MultiEnqueue`, `started` those that a worker took,
and `futures` the values set so far. -/
structure ThreadPool (n : Nat) (α β : Type) where
  tasks : List (Nat × α)
  stop : Bool
  freeWorkerNum : Nat
  queueSize : Nat
  workers : Fin n → Worker α
  condition : CondVar (Fin n)
  accepted : List (Nat × α)
  started : List (Nat × α)
  futures : List (Nat × β)

/-- The steps. -/
inductive ThreadPool.Act (n : Nat) (α : Type) where
  /-- the section of `Enqueue` -/
  | enqueue (task : α)
  /-- the section of `MultiEnqueue` -/
  | multiEnqueue (functions : List α)
  /-- a `notify_one` of these calls -/
  | notifyOne (chosen : Option (Fin n))
  /-- the section of `~ThreadPool` -/
  | stop
  /-- the `notify_all` of `~ThreadPool` -/
  | notifyAll
  /-- a sleeping worker wakes up for no reason -/
  | wake (i : Fin n)
  /-- a worker's section, from the lock or from a wake-up on -/
  | look (i : Fin n)
  /-- a worker's task returns -/
  | finish (i : Fin n)
deriving DecidableEq

namespace ThreadPool

variable {n : Nat} {α β : Type}

/-- The constructor. -/
def start : ThreadPool n α β := ⟨[], false, 0, 0, fun _ => .ready, .idle, [], [], []⟩

/-- The futures of the next tasks. -/
def numbered (p : ThreadPool n α β) (functions : List α) : List (Nat × α) :=
  functions.zipIdx p.accepted.length |>.map Prod.swap

/-- The section that both calls share; it throws on a stopped pool. -/
def accept (p : ThreadPool n α β) (functions : List α) : Option (ThreadPool n α β) :=
  if p.stop then none
  else some { p with
    tasks := p.tasks ++ p.numbered functions
    queueSize := p.queueSize + functions.length
    condition := p.condition.oweOne functions.length
    accepted := p.accepted ++ p.numbered functions }

/-- The test of `wait` and what follows it. -/
def test (p : ThreadPool n α β) (i : Fin n) : ThreadPool n α β :=
  if p.stop || !p.tasks.isEmpty then
    let p := { p with freeWorkerNum := p.freeWorkerNum - 1, condition := p.condition.leave i }
    match p.tasks with
    | [] => { p with workers := Function.update p.workers i .exited }
    | task :: tasks =>
      { p with
        tasks := tasks
        queueSize := p.queueSize - 1
        workers := Function.update p.workers i (.busy task)
        started := p.started ++ [task] }
  else
    { p with
      workers := Function.update p.workers i .waiting
      condition := p.condition.sleep i }

/-- One step.  `call` is what a task gives. -/
def step (call : α → β) (p : ThreadPool n α β) : Act n α → Option (ThreadPool n α β)
  | .enqueue task => p.accept [task]
  | .multiEnqueue functions => p.accept functions
  | .notifyOne chosen => (p.condition.notifyOne chosen).map fun c => { p with condition := c }
  | .stop => if p.stop then none else some { p with stop := true, condition := p.condition.oweAll }
  | .notifyAll => p.condition.notifyAll.map fun c => { p with condition := c }
  | .wake i =>
    if i ∈ p.condition.asleep then some { p with condition := p.condition.wake i } else none
  | .look i =>
    match p.workers i with
    | .ready => some ({ p with freeWorkerNum := p.freeWorkerNum + 1 }.test i)
    | .waiting => if i ∈ p.condition.woken then some (p.test i) else none
    | _ => none
  | .finish i =>
    match p.workers i with
    | .busy task =>
      some { p with
        workers := Function.update p.workers i .ready
        futures := p.futures ++ [(task.1, call task.2)] }
    | _ => none

/-- `ConcurrentRun`: the values of the futures, in the order of the functions. -/
def results (p : ThreadPool n α β) (futures : List Nat) : Option (List β) :=
  futures.mapM fun id => p.futures.lookup id

/-! ### What a step does -/

section

variable {call : α → β} {p q : ThreadPool n α β}

theorem accept_eq {functions : List α} (hq : p.accept functions = some q) :
    p.stop = false ∧ q = { p with
      tasks := p.tasks ++ p.numbered functions
      queueSize := p.queueSize + functions.length
      condition := p.condition.oweOne functions.length
      accepted := p.accepted ++ p.numbered functions } := by
  rw [accept] at hq
  split at hq
  · cases hq
  · exact ⟨Bool.eq_false_iff.mpr ‹_›, (Option.some.inj hq).symm⟩

theorem stop_eq (hq : p.step call .stop = some q) :
    q = { p with stop := true, condition := p.condition.oweAll } := by
  rw [step] at hq
  split at hq
  · cases hq
  · exact (Option.some.inj hq).symm

theorem wake_eq {i : Fin n} (hq : p.step call (.wake i) = some q) :
    i ∈ p.condition.asleep ∧ q = { p with condition := p.condition.wake i } := by
  rw [step] at hq
  split at hq
  · exact ⟨‹_›, (Option.some.inj hq).symm⟩
  · cases hq

theorem look_eq {i : Fin n} (hq : p.step call (.look i) = some q) :
    ∃ free, q = ThreadPool.test { p with freeWorkerNum := free } i ∧
      ((p.workers i = .ready ∧ free = p.freeWorkerNum + 1) ∨
        (p.workers i = .waiting ∧ i ∈ p.condition.woken ∧ free = p.freeWorkerNum)) := by
  rw [step] at hq
  cases hi : p.workers i with
  | ready =>
    simp only [hi] at hq
    exact ⟨_, (Option.some.inj hq).symm, Or.inl ⟨rfl, rfl⟩⟩
  | waiting =>
    simp only [hi] at hq
    split at hq
    · exact ⟨_, (Option.some.inj hq).symm, Or.inr ⟨rfl, ‹_›, rfl⟩⟩
    · cases hq
  | busy task =>
    simp only [hi] at hq
    cases hq
  | exited =>
    simp only [hi] at hq
    cases hq

theorem finish_eq {i : Fin n} (hq : p.step call (.finish i) = some q) :
    ∃ task, p.workers i = .busy task ∧ q = { p with
      workers := Function.update p.workers i .ready
      futures := p.futures ++ [(task.1, call task.2)] } := by
  rw [step] at hq
  cases hi : p.workers i with
  | busy task =>
    simp only [hi] at hq
    exact ⟨task, rfl, (Option.some.inj hq).symm⟩
  | ready =>
    simp only [hi] at hq
    cases hq
  | waiting =>
    simp only [hi] at hq
    cases hq
  | exited =>
    simp only [hi] at hq
    cases hq

end

/-! ### The tasks -/

/-- What every state keeps about the tasks. -/
structure Tasks (call : α → β) (p : ThreadPool n α β) : Prop where
  fifo : p.accepted = p.started ++ p.tasks
  numbers : p.accepted.map Prod.fst = List.range p.accepted.length
  queueSize : p.queueSize = p.tasks.length
  /-- A started task is with one worker, or its future is set. -/
  running : ∀ id, id ∈ p.started.map Prod.fst ↔
    id ∈ p.futures.map Prod.fst ∨ ∃ i task, p.workers i = .busy task ∧ task.1 = id
  busy : ∀ i task, p.workers i = .busy task →
    task ∈ p.started ∧ task.1 ∉ p.futures.map Prod.fst
  apart : ∀ i j s t, p.workers i = .busy s → p.workers j = .busy t → s.1 = t.1 → i = j
  once : (p.futures.map Prod.fst).Nodup
  genuine : ∀ id v, (id, v) ∈ p.futures → ∃ job, (id, job) ∈ p.started ∧ v = call job
  exits : ∀ i, p.workers i = .exited → p.stop = true ∧ p.tasks = []

section

variable {call : α → β} {p q : ThreadPool n α β}

theorem tasks_start : Tasks call (start : ThreadPool n α β) where
  fifo := rfl
  numbers := rfl
  queueSize := rfl
  running := by simp [start]
  busy := by simp [start]
  apart := by simp [start]
  once := List.nodup_nil
  genuine := by simp [start]
  exits := by simp [start]

theorem map_fst_numbered (p : ThreadPool n α β) (functions : List α) :
    (p.numbered functions).map Prod.fst = List.range' p.accepted.length functions.length := by
  rw [numbered, List.map_map]
  exact List.zipIdx_map_snd _ _

theorem length_numbered (p : ThreadPool n α β) (functions : List α) :
    (p.numbered functions).length = functions.length := by
  rw [numbered, List.length_map, List.length_zipIdx]

theorem Tasks.not_started (h : Tasks call p) {task : Nat × α} {tasks : List (Nat × α)}
    (ht : p.tasks = task :: tasks) : task.1 ∉ p.started.map Prod.fst := by
  have hnodup : (p.accepted.map Prod.fst).Nodup := by
    rw [h.numbers]
    exact List.nodup_range
  rw [h.fifo, ht, List.map_append, List.map_cons] at hnodup
  intro hmem
  exact (List.nodup_append.mp hnodup).2.2 _ hmem _ List.mem_cons_self rfl

theorem Tasks.accept (h : Tasks call p) {functions : List α} (hq : p.accept functions = some q) :
    Tasks call q := by
  obtain ⟨hstop, rfl⟩ := accept_eq hq
  refine ⟨?_, ?_, ?_, h.running, h.busy, h.apart, h.once, h.genuine, ?_⟩
  · rw [h.fifo, List.append_assoc]
  · rw [List.map_append, h.numbers, map_fst_numbered, List.length_append, length_numbered,
      List.range_eq_range', List.range_eq_range', ← List.range'_append_1, Nat.zero_add]
  · rw [List.length_append, length_numbered, h.queueSize]
  · intro i hi
    exact absurd (h.exits i hi).1 (by simp [hstop])

theorem update_eq_busy {f : Fin n → Worker α} {i : Fin n} {w : Worker α}
    (hi : ∀ task, f i ≠ .busy task) (hw : ∀ task, w ≠ .busy task) (j : Fin n) (task : Nat × α) :
    Function.update f i w j = .busy task ↔ f j = .busy task := by
  by_cases hji : j = i
  · rw [hji, Function.update_self]
    exact iff_of_false (hw task) (hi task)
  · rw [Function.update_of_ne hji]

theorem update_busy {f : Fin n → Worker α} {i : Fin n} {task : Nat × α}
    (hi : ∀ task, f i ≠ .busy task) (j : Fin n) (t : Nat × α) :
    Function.update f i (.busy task) j = .busy t ↔ (j = i ∧ t = task) ∨ f j = .busy t := by
  by_cases hji : j = i
  · rw [hji, Function.update_self, Worker.busy.injEq]
    simp [hi t, eq_comm]
  · rw [Function.update_of_ne hji]
    simp [hji]

theorem Tasks.take (h : Tasks call p) {i : Fin n} (hi : ∀ task, p.workers i ≠ .busy task)
    {task : Nat × α} {tasks : List (Nat × α)} (ht : p.tasks = task :: tasks) (free : Nat)
    (c : CondVar (Fin n)) :
    Tasks call { p with
      tasks := tasks, queueSize := p.queueSize - 1, freeWorkerNum := free, condition := c,
      workers := Function.update p.workers i (.busy task), started := p.started ++ [task] } := by
  have hnew := h.not_started ht
  have hfuture : task.1 ∉ p.futures.map Prod.fst := fun hmem =>
    hnew ((h.running task.1).mpr (Or.inl hmem))
  have hidle : ∀ j t, p.workers j = .busy t → t.1 ≠ task.1 := by
    intro j t hj he
    exact hnew (he ▸ List.mem_map_of_mem (h.busy j t hj).1)
  refine ⟨?_, h.numbers, ?_, ?_, ?_, ?_, h.once, ?_, ?_⟩
  · rw [h.fifo, ht, List.append_assoc]
    rfl
  · simp only [h.queueSize, ht, List.length_cons, Nat.add_sub_cancel]
  · intro id
    simp only [update_busy hi]
    rw [List.map_append, List.mem_append, h.running id, List.map_singleton, List.mem_singleton]
    constructor
    · rintro ((hf | ⟨j, t, hj, he⟩) | rfl)
      · exact Or.inl hf
      · exact Or.inr ⟨j, t, Or.inr hj, he⟩
      · exact Or.inr ⟨i, task, Or.inl ⟨rfl, rfl⟩, rfl⟩
    · rintro (hf | ⟨j, t, ⟨-, rfl⟩ | hj, rfl⟩)
      · exact Or.inl (Or.inl hf)
      · exact Or.inr rfl
      · exact Or.inl (Or.inr ⟨j, t, hj, rfl⟩)
  · intro j t hj
    rcases (update_busy hi j t).mp hj with ⟨-, rfl⟩ | hj
    · exact ⟨List.mem_append_right _ (List.mem_singleton_self _), hfuture⟩
    · exact ⟨List.mem_append_left _ (h.busy j t hj).1, (h.busy j t hj).2⟩
  · intro j k s t hj hk he
    rcases (update_busy hi j s).mp hj with ⟨hji, rfl⟩ | hj' <;>
      rcases (update_busy hi k t).mp hk with ⟨hki, rfl⟩ | hk'
    · rw [hji, hki]
    · exact absurd he.symm (hidle k t hk')
    · exact absurd he (hidle j s hj')
    · exact h.apart j k s t hj' hk' he
  · intro id v hmem
    obtain ⟨job, hjob, hv⟩ := h.genuine id v hmem
    exact ⟨job, List.mem_append_left _ hjob, hv⟩
  · intro j hj
    by_cases hji : j = i
    · simp only [hji, Function.update_self] at hj
      cases hj
    · simp only [Function.update_of_ne hji] at hj
      rw [(h.exits j hj).2] at ht
      cases ht

theorem Tasks.move (h : Tasks call p) {i : Fin n} (hi : ∀ task, p.workers i ≠ .busy task)
    {w : Worker α} (hw : ∀ task, w ≠ .busy task)
    (hexit : w = .exited → p.stop = true ∧ p.tasks = []) (free : Nat) (c : CondVar (Fin n)) :
    Tasks call { p with
      freeWorkerNum := free, condition := c, workers := Function.update p.workers i w } := by
  refine ⟨h.fifo, h.numbers, h.queueSize, ?_, ?_, ?_, h.once, h.genuine, ?_⟩
  · intro id
    simp only [update_eq_busy hi hw]
    exact h.running id
  · intro j t hj
    exact h.busy j t ((update_eq_busy hi hw j t).mp hj)
  · intro j k s t hj hk
    exact h.apart j k s t ((update_eq_busy hi hw j s).mp hj) ((update_eq_busy hi hw k t).mp hk)
  · intro j hj
    by_cases hji : j = i
    · simp only [hji, Function.update_self] at hj
      exact hexit hj
    · simp only [Function.update_of_ne hji] at hj
      exact h.exits j hj

theorem Tasks.test (h : Tasks call p) {i : Fin n} (hi : ∀ task, p.workers i ≠ .busy task) :
    Tasks call (p.test i) := by
  rw [ThreadPool.test]
  split
  · rename_i hwake
    cases ht : p.tasks with
    | nil =>
      have hstop : p.stop = true := by simpa [ht] using hwake
      have hmove := h.move (w := .exited) hi (by simp) (fun _ => ⟨hstop, ht⟩)
        (p.freeWorkerNum - 1) (p.condition.leave i)
      rw [ht] at hmove
      exact hmove
    | cons task tasks => exact h.take hi ht _ _
  · exact h.move (w := .waiting) hi (by simp) (by simp) _ _

theorem Tasks.finish (h : Tasks call p) {i : Fin n} {task : Nat × α}
    (hi : p.workers i = .busy task) :
    Tasks call { p with
      workers := Function.update p.workers i .ready
      futures := p.futures ++ [(task.1, call task.2)] } := by
  obtain ⟨hstarted, hfuture⟩ := h.busy i task hi
  have hbusy : ∀ j t, Function.update p.workers i .ready j = .busy t ↔
      j ≠ i ∧ p.workers j = .busy t := by
    intro j t
    by_cases hji : j = i
    · simp [hji]
    · simp [hji]
  refine ⟨h.fifo, h.numbers, h.queueSize, ?_, ?_, ?_, ?_, ?_, ?_⟩
  · intro id
    simp only [hbusy]
    rw [h.running id, List.map_append, List.mem_append, List.map_singleton, List.mem_singleton]
    constructor
    · rintro (hf | ⟨j, t, hj, rfl⟩)
      · exact Or.inl (Or.inl hf)
      · by_cases hji : j = i
        · subst hji
          obtain rfl : t = task := Worker.busy.inj (hj.symm.trans hi)
          exact Or.inl (Or.inr rfl)
        · exact Or.inr ⟨j, t, ⟨hji, hj⟩, rfl⟩
    · rintro ((hf | rfl) | ⟨j, t, ⟨-, hj⟩, rfl⟩)
      · exact Or.inl hf
      · exact Or.inr ⟨i, task, hi, rfl⟩
      · exact Or.inr ⟨j, t, hj, rfl⟩
  · intro j t hj
    obtain ⟨hji, hj⟩ := (hbusy j t).mp hj
    refine ⟨(h.busy j t hj).1, ?_⟩
    rw [List.map_append, List.mem_append, List.map_singleton, List.mem_singleton]
    rintro (hf | he)
    · exact (h.busy j t hj).2 hf
    · exact hji (h.apart j i t task hj hi he)
  · intro j k s t hj hk
    exact h.apart j k s t ((hbusy j s).mp hj).2 ((hbusy k t).mp hk).2
  · rw [List.map_append]
    refine List.nodup_append.mpr ⟨h.once, List.nodup_singleton _, ?_⟩
    intro a ha b hb
    rw [List.map_singleton, List.mem_singleton] at hb
    rintro rfl
    exact hfuture (hb ▸ ha)
  · intro id v hmem
    rcases List.mem_append.mp hmem with hmem | hmem
    · exact h.genuine id v hmem
    · obtain ⟨rfl, rfl⟩ := Prod.mk.inj (List.mem_singleton.mp hmem)
      exact ⟨task.2, hstarted, rfl⟩
  · intro j hj
    by_cases hji : j = i
    · simp only [hji, Function.update_self] at hj
      cases hj
    · simp only [Function.update_of_ne hji] at hj
      exact h.exits j hj

/-- **Every step keeps the tasks in order.** -/
theorem Tasks.step (h : Tasks call p) {a : Act n α} (hq : p.step call a = some q) :
    Tasks call q := by
  cases a with
  | enqueue task => exact h.accept hq
  | multiEnqueue functions => exact h.accept hq
  | notifyOne chosen =>
    obtain ⟨c, -, rfl⟩ := Option.map_eq_some_iff.mp hq
    exact ⟨h.fifo, h.numbers, h.queueSize, h.running, h.busy, h.apart, h.once, h.genuine, h.exits⟩
  | stop =>
    obtain rfl := stop_eq hq
    exact ⟨h.fifo, h.numbers, h.queueSize, h.running, h.busy, h.apart, h.once, h.genuine,
      fun i hi => ⟨rfl, (h.exits i hi).2⟩⟩
  | notifyAll =>
    obtain ⟨c, -, rfl⟩ := Option.map_eq_some_iff.mp hq
    exact ⟨h.fifo, h.numbers, h.queueSize, h.running, h.busy, h.apart, h.once, h.genuine, h.exits⟩
  | wake i =>
    obtain ⟨-, rfl⟩ := wake_eq hq
    exact ⟨h.fifo, h.numbers, h.queueSize, h.running, h.busy, h.apart, h.once, h.genuine, h.exits⟩
  | look i =>
    obtain ⟨free, rfl, hi⟩ := look_eq hq
    have h' : Tasks call { p with freeWorkerNum := free } :=
      ⟨h.fifo, h.numbers, h.queueSize, h.running, h.busy, h.apart, h.once, h.genuine, h.exits⟩
    refine h'.test ?_
    rcases hi with ⟨hi, -⟩ | ⟨hi, -⟩ <;> simp [hi]
  | finish i =>
    obtain ⟨task, hi, rfl⟩ := finish_eq hq
    exact h.finish hi

end

/-! ### Waiting -/

/-- What every state keeps about the workers that wait. -/
structure Waits (p : ThreadPool n α β) : Prop where
  apart : p.condition.Apart
  waiting : ∀ i, p.workers i = .waiting ↔ i ∈ p.condition.waiting
  free : p.freeWorkerNum = p.condition.waiting.card
  covers : CondVar.Covers p.tasks.length p.condition
  alert : CondVar.Alert (fun _ => p.stop = true) p.condition

section

variable {call : α → β} {p q : ThreadPool n α β}

theorem waits_start : Waits (start : ThreadPool n α β) where
  apart := CondVar.apart_idle
  waiting := by simp [start, CondVar.waiting, CondVar.idle]
  free := rfl
  covers := CondVar.covers_idle _
  alert := CondVar.alert_idle _

theorem Waits.accept (h : Waits p) {functions : List α} (hq : p.accept functions = some q) :
    Waits q := by
  obtain ⟨-, rfl⟩ := accept_eq hq
  refine ⟨h.apart, h.waiting, h.free, ?_, h.alert⟩
  rw [List.length_append, length_numbered]
  exact h.covers.oweOne functions.length

theorem update_waiting {f : Fin n → Worker α} {i : Fin n} {w : Worker α} {s : Finset (Fin n)}
    (hw : w ≠ .waiting) (hf : ∀ j, j ≠ i → (f j = .waiting ↔ j ∈ s)) (j : Fin n) :
    Function.update f i w j = .waiting ↔ j ∈ s.erase i := by
  by_cases hji : j = i
  · simp [hji, hw]
  · rw [Function.update_of_ne hji, hf j hji]
    simp [hji]

theorem Waits.test {i : Fin n} (happart : p.condition.Apart) (hi : i ∉ p.condition.asleep)
    (hwaiting : ∀ j, j ≠ i → (p.workers j = .waiting ↔ j ∈ p.condition.waiting))
    (hfree : p.freeWorkerNum = (insert i p.condition.waiting).card)
    (hcovers : CondVar.Covers p.tasks.length p.condition)
    (halert : CondVar.Alert (fun _ => p.stop = true) p.condition) : Waits (p.test i) := by
  have hcount : p.freeWorkerNum - 1 = (p.condition.leave i).waiting.card := by
    rw [hfree, CondVar.waiting_leave hi, ← Finset.erase_insert_eq_erase,
      Finset.card_erase_of_mem (Finset.mem_insert_self _ _)]
  have hleave : ∀ w : Worker α, w ≠ .waiting → ∀ j,
      Function.update p.workers i w j = .waiting ↔ j ∈ (p.condition.leave i).waiting := by
    intro w hw j
    rw [CondVar.waiting_leave hi]
    exact update_waiting hw hwaiting j
  rw [ThreadPool.test]
  split
  · cases ht : p.tasks with
    | nil =>
      refine ⟨happart.leave i, hleave .exited (by simp), hcount, CondVar.covers_zero _, halert⟩
    | cons task tasks =>
      rw [ht] at hcovers
      exact ⟨happart.leave i, hleave (.busy task) (by simp), hcount, hcovers.leave i, halert⟩
  · rename_i hwake
    have hno : p.stop = false ∧ p.tasks = [] := by simpa using hwake
    refine ⟨happart.sleep i, ?_, ?_, ?_, halert.sleep (by simp [hno.1])⟩
    · intro j
      rw [CondVar.waiting_sleep]
      by_cases hji : j = i
      · simp [hji]
      · simp only [Function.update_of_ne hji, Finset.mem_insert, hji, false_or]
        exact hwaiting j hji
    · rw [CondVar.waiting_sleep, hfree]
    · rw [hno.2]
      exact CondVar.covers_zero _

/-- **Every step keeps the workers waiting for a reason.** -/
theorem Waits.step (h : Waits p) {a : Act n α} (hq : p.step call a = some q) : Waits q := by
  have hnot : ∀ i, p.workers i ≠ .waiting → i ∉ p.condition.waiting :=
    fun i hi hm => hi ((h.waiting i).mpr hm)
  cases a with
  | enqueue task => exact h.accept hq
  | multiEnqueue functions => exact h.accept hq
  | notifyOne chosen =>
    obtain ⟨c, hc, rfl⟩ := Option.map_eq_some_iff.mp hq
    have hsame := CondVar.waiting_notifyOne hc
    exact ⟨h.apart.notifyOne hc, by rw [hsame]; exact h.waiting, by rw [hsame]; exact h.free,
      h.covers.notifyOne h.apart hc, h.alert.notifyOne hc⟩
  | stop =>
    obtain rfl := stop_eq hq
    exact ⟨h.apart, h.waiting, h.free, h.covers, CondVar.alert_oweAll _ _⟩
  | notifyAll =>
    obtain ⟨c, hc, rfl⟩ := Option.map_eq_some_iff.mp hq
    have hsame := CondVar.waiting_notifyAll hc
    exact ⟨CondVar.Apart.notifyAll hc, by rw [hsame]; exact h.waiting, by rw [hsame]; exact h.free,
      CondVar.Covers.notifyAll hc, CondVar.Alert.notifyAll hc⟩
  | wake i =>
    obtain ⟨hi, rfl⟩ := wake_eq hq
    have hsame := CondVar.waiting_wake hi
    exact ⟨h.apart.wake i, by rw [hsame]; exact h.waiting, by rw [hsame]; exact h.free,
      h.covers.wake i, h.alert.wake i⟩
  | look i =>
    obtain ⟨free, rfl, ⟨hi, rfl⟩ | ⟨hi, hw, rfl⟩⟩ := look_eq hq
    · have hout := hnot i (by simp [hi])
      refine Waits.test h.apart (fun hm => hout (Finset.mem_union_left _ hm))
        (fun j _ => h.waiting j) ?_ h.covers h.alert
      rw [Finset.card_insert_of_notMem hout, h.free]
    · have hmem : i ∈ p.condition.waiting := Finset.mem_union_right _ hw
      refine Waits.test h.apart (fun hm => h.apart i hm hw) (fun j _ => h.waiting j) ?_ h.covers
        h.alert
      rw [Finset.insert_eq_of_mem hmem, h.free]
  | finish i =>
    obtain ⟨task, hi, rfl⟩ := finish_eq hq
    refine ⟨h.apart, ?_, h.free, h.covers, h.alert⟩
    intro j
    have hup := update_waiting (w := .ready) (by simp) (fun j _ => h.waiting j) (i := i) j
    rwa [Finset.erase_eq_of_notMem (hnot i (by simp [hi]))] at hup

theorem invariant_of_run {as : List (Act n α)} (hr : run (step call) start as = some p) :
    Tasks call p ∧ Waits p := by
  refine run_invariant (I := fun p => Tasks call p ∧ Waits p)
    ⟨tasks_start, waits_start⟩ ?_ hr (stepsOk_true _ _)
  intro p a q h _ hq
  exact ⟨h.1.step hq, h.2.step hq⟩

/-! ### Order and results -/

theorem Tasks.getElem?_accepted (h : Tasks call p) {id : Nat} {job : α} :
    (id, job) ∈ p.accepted ↔ p.accepted[id]? = some (id, job) := by
  refine ⟨?_, List.mem_of_getElem?⟩
  intro hmem
  obtain ⟨k, hk, he⟩ := List.getElem_of_mem hmem
  have hfst : (p.accepted.map Prod.fst)[k]? = some k := by
    rw [h.numbers, List.getElem?_range hk]
  rw [List.getElem?_map, List.getElem?_eq_getElem hk, he, Option.map_some] at hfst
  obtain rfl : id = k := Option.some.inj hfst
  rw [List.getElem?_eq_getElem hk, he]

theorem Tasks.value_eq (h : Tasks call p) {id : Nat} {job : α} (hjob : (id, job) ∈ p.accepted)
    {v : β} (hv : (id, v) ∈ p.futures) : v = call job := by
  obtain ⟨job', hjob', rfl⟩ := h.genuine id v hv
  have hmem : (id, job') ∈ p.accepted := by
    rw [h.fifo]
    exact List.mem_append_left _ hjob'
  have heq := (h.getElem?_accepted.mp hjob).symm.trans (h.getElem?_accepted.mp hmem)
  rw [(Prod.mk.inj (Option.some.inj heq)).2]

theorem Tasks.all_run (h : Tasks call p) (hn : 0 < n) (hexit : ∀ i, p.workers i = .exited)
    {id : Nat} {job : α} (hjob : (id, job) ∈ p.accepted) : (id, call job) ∈ p.futures := by
  have hstarted : id ∈ p.started.map Prod.fst := by
    rw [h.fifo, (h.exits ⟨0, hn⟩ (hexit _)).2, List.append_nil] at hjob
    exact List.mem_map_of_mem hjob
  rcases (h.running id).mp hstarted with hf | ⟨i, task, hi, -⟩
  · obtain ⟨⟨id', v⟩, hv, rfl⟩ := List.mem_map.mp hf
    rw [← h.value_eq hjob hv]
    exact hv
  · rw [hexit i] at hi
    cases hi

theorem test_accepted (p : ThreadPool n α β) (i : Fin n) :
    (p.test i).accepted = p.accepted ∧ (p.test i).stop = p.stop := by
  rw [test]
  split
  · cases p.tasks <;> exact ⟨rfl, rfl⟩
  · exact ⟨rfl, rfl⟩

/-- Tasks are only added, and a stopped pool stays so and gets none. -/
theorem accepted_step {a : Act n α} (hq : p.step call a = some q) :
    p.accepted <+: q.accepted ∧ (p.stop = true → q.stop = true ∧ q.accepted = p.accepted) := by
  have haccept : ∀ functions, p.accept functions = some q →
      p.accepted <+: q.accepted ∧ (p.stop = true → q.stop = true ∧ q.accepted = p.accepted) := by
    intro functions hq
    obtain ⟨hstop, rfl⟩ := accept_eq hq
    exact ⟨List.prefix_append _ _, fun hs => absurd hs (by simp [hstop])⟩
  cases a with
  | enqueue task => exact haccept _ hq
  | multiEnqueue functions => exact haccept _ hq
  | notifyOne chosen =>
    obtain ⟨c, -, rfl⟩ := Option.map_eq_some_iff.mp hq
    exact ⟨List.prefix_refl _, fun hs => ⟨hs, rfl⟩⟩
  | stop =>
    obtain rfl := stop_eq hq
    exact ⟨List.prefix_refl _, fun _ => ⟨rfl, rfl⟩⟩
  | notifyAll =>
    obtain ⟨c, -, rfl⟩ := Option.map_eq_some_iff.mp hq
    exact ⟨List.prefix_refl _, fun hs => ⟨hs, rfl⟩⟩
  | wake i =>
    obtain ⟨-, rfl⟩ := wake_eq hq
    exact ⟨List.prefix_refl _, fun hs => ⟨hs, rfl⟩⟩
  | look i =>
    obtain ⟨free, rfl, -⟩ := look_eq hq
    obtain ⟨hacc, hst⟩ := test_accepted { p with freeWorkerNum := free } i
    rw [hacc, hst]
    exact ⟨List.prefix_refl _, fun hs => ⟨hs, rfl⟩⟩
  | finish i =>
    obtain ⟨task, -, rfl⟩ := finish_eq hq
    exact ⟨List.prefix_refl _, fun hs => ⟨hs, rfl⟩⟩

theorem accepted_run {as : List (Act n α)} (hr : run (step call) p as = some q) :
    p.accepted <+: q.accepted ∧ (p.stop = true → q.stop = true ∧ q.accepted = p.accepted) := by
  induction as generalizing p with
  | nil =>
    obtain rfl := Option.some.inj hr
    exact ⟨List.prefix_refl _, fun hs => ⟨hs, rfl⟩⟩
  | cons a as ih =>
    obtain ⟨t, ht, hr⟩ := Option.bind_eq_some_iff.mp hr
    obtain ⟨h1, h2⟩ := accepted_step ht
    obtain ⟨h3, h4⟩ := ih hr
    refine ⟨h1.trans h3, ?_⟩
    intro hs
    obtain ⟨hst, hacc⟩ := h2 hs
    obtain ⟨hst', hacc'⟩ := h4 hst
    exact ⟨hst', hacc'.trans hacc⟩

theorem results_eq {functions : List α} {k : Nat} {rs : List β}
    (hval : ∀ j job v, functions[j]? = some job → p.futures.lookup (k + j) = some v → v = call job)
    (hrs : p.results (List.range' k functions.length) = some rs) : rs = functions.map call := by
  induction functions generalizing k rs with
  | nil =>
    obtain rfl := Option.some.inj hrs
    rfl
  | cons job functions ih =>
    rw [results, List.length_cons, List.range'_succ, List.mapM_cons] at hrs
    obtain ⟨v, hv, hrs⟩ := Option.bind_eq_some_iff.mp hrs
    obtain ⟨vs, hvs, hrs⟩ := Option.bind_eq_some_iff.mp hrs
    obtain rfl := Option.some.inj hrs
    rw [List.map_cons, hval 0 job v rfl hv]
    congr 1
    refine ih ?_ hvs
    intro j job' v' hj hv'
    refine hval (j + 1) job' v' hj ?_
    rw [← hv', Nat.add_assoc, Nat.add_comm 1 j]

theorem exists_results {futures : List Nat} (hset : ∀ id ∈ futures, id ∈ p.futures.map Prod.fst) :
    ∃ rs, p.results futures = some rs := by
  induction futures with
  | nil => exact ⟨[], rfl⟩
  | cons id futures ih =>
    obtain ⟨rs, hrs⟩ := ih fun id' hid' => hset id' (List.mem_cons_of_mem _ hid')
    obtain ⟨v, hv⟩ : ∃ v, p.futures.lookup id = some v := by
      refine Option.ne_none_iff_exists'.mp fun hnone => ?_
      obtain ⟨⟨id', v⟩, hmem, rfl⟩ := List.mem_map.mp (hset id List.mem_cons_self)
      exact bne_iff_ne.mp (List.lookup_eq_none_iff.mp hnone _ hmem) rfl
    refine ⟨v :: rs, ?_⟩
    rw [results] at hrs ⊢
    rw [List.mapM_cons, hv, hrs]
    rfl

end

/-- **Tasks start in order, each once, and a future holds what its own task gave.**  When all
workers have stopped, no task is left.  `queue_size_` and `free_worker_num_` are the numbers
they are meant to be. -/
theorem started_in_order (call : α → β) (as : List (Act n α)) (p : ThreadPool n α β)
    (hr : run (step call) start as = some p) :
    p.accepted = p.started ++ p.tasks ∧ (p.futures.map Prod.fst).Nodup ∧
      (∀ id v, (id, v) ∈ p.futures → ∃ job, (id, job) ∈ p.started ∧ v = call job) ∧
      (0 < n → (∀ i, p.workers i = .exited) →
        ∀ id job, (id, job) ∈ p.accepted → (id, call job) ∈ p.futures) ∧
      p.queueSize = p.tasks.length ∧
      ∃ waiting : Finset (Fin n), (∀ i, i ∈ waiting ↔ p.workers i = .waiting) ∧
        p.freeWorkerNum = waiting.card := by
  obtain ⟨ht, hw⟩ := invariant_of_run hr
  exact ⟨ht.fifo, ht.once, ht.genuine, fun hn hexit id job hjob => ht.all_run hn hexit hjob,
    ht.queueSize, p.condition.waiting, fun i => (hw.waiting i).symm, hw.free⟩

/-- Two workers and three tasks; the destructor comes while one waits. -/
def sampleTasks (i j : Fin 2) : List (Act 2 Nat) :=
  [.look i, .look j, .multiEnqueue [10, 20], .notifyOne (some j), .look j, .enqueue 30,
    .notifyOne (some i), .look i, .stop]

/-- The workers empty the queue. -/
def sampleDrain (i j : Fin 2) : List (Act 2 Nat) :=
  [.finish j, .look j, .notifyAll, .finish j, .look j, .finish i, .look i]

theorem started_in_order_sample :
    ∃ p : ThreadPool 2 Nat Nat,
      run (step (· + 1)) start (sampleTasks 0 1 ++ sampleDrain 0 1) = some p ∧
      ∀ id job, (id, job) ∈ p.accepted → (id, job + 1) ∈ p.futures := by
  obtain ⟨p, hp⟩ := Option.isSome_iff_exists.mp (show (run (step (n := 2) (· + 1)) start
    (sampleTasks 0 1 ++ sampleDrain 0 1)).isSome = true by decide)
  have hall : (run (step (n := 2) (· + 1)) start (sampleTasks 0 1 ++ sampleDrain 0 1)).all
      (fun p => decide (∀ i, p.workers i = .exited)) = true := by decide
  rw [hp] at hall
  exact ⟨p, hp, (started_in_order (· + 1) _ p hp).2.2.2.1 (by decide) (of_decide_eq_true hall)⟩

/-! ### Progress -/

/-- What a worker does. -/
def Act.ofWorker : Act n α → Bool
  | .look _ => true
  | .finish _ => true
  | _ => false

/-- What wakes workers. -/
def Act.notifies : Act n α → Bool
  | .notifyOne _ => true
  | .notifyAll => true
  | _ => false

section

variable {call : α → β} {p q : ThreadPool n α β}

theorem Waits.exists_step (h : Waits p) (call : α → β) {i : Fin n} (hsleep : i ∉ p.condition.asleep)
    (hexit : p.workers i ≠ .exited) :
    ∃ a : Act n α, a.ofWorker = true ∧ ∃ q, p.step call a = some q := by
  cases hi : p.workers i with
  | ready =>
    refine ⟨.look i, rfl, ?_⟩
    simp [ThreadPool.step, hi]
  | waiting =>
    have hwoken : i ∈ p.condition.woken :=
      (Finset.mem_union.mp ((h.waiting i).mp hi)).resolve_left hsleep
    refine ⟨.look i, rfl, ?_⟩
    simp [ThreadPool.step, hi, hwoken]
  | busy task =>
    refine ⟨.finish i, rfl, ?_⟩
    simp [ThreadPool.step, hi]
  | exited => exact absurd hi hexit

theorem Waits.exists_progress (h : Waits p) (ht : Tasks call p) (hn : 0 < n) {id : Nat} {job : α}
    (hjob : (id, job) ∈ p.accepted) (hunset : id ∉ p.futures.map Prod.fst) :
    ∃ a : Act n α, (a.ofWorker = true ∨ a.notifies = true) ∧ ∃ q, p.step call a = some q := by
  rw [ht.fifo] at hjob
  rcases List.mem_append.mp hjob with hstarted | htask
  · -- some worker has the task
    rcases (ht.running id).mp (List.mem_map_of_mem hstarted) with hf | ⟨i, task, hi, -⟩
    · exact absurd hf hunset
    · exact ⟨.finish i, Or.inl rfl, by simp [ThreadPool.step, hi]⟩
  · have hexit : ∀ i, p.workers i ≠ .exited := by
      intro i hi
      rw [(ht.exits i hi).2] at htask
      cases htask
    by_cases hsleep : p.condition.asleep = ∅
    · obtain ⟨a, ha, hq⟩ := h.exists_step call (i := ⟨0, hn⟩) (by simp [hsleep]) (hexit _)
      exact ⟨a, Or.inl ha, hq⟩
    · have hle := h.covers.resolve_left hsleep
      have hpos := List.length_pos_of_mem htask
      obtain ⟨i, hi⟩ := Finset.nonempty_of_ne_empty hsleep
      by_cases hone : p.condition.one = 0
      · obtain ⟨j, hj⟩ : p.condition.woken.Nonempty := Finset.card_pos.mp (by omega)
        obtain ⟨a, ha, hq⟩ := h.exists_step call (fun hs => h.apart j hs hj) (hexit j)
        exact ⟨a, Or.inl ha, hq⟩
      · obtain ⟨m, hm⟩ := Nat.exists_eq_succ_of_ne_zero hone
        refine ⟨.notifyOne (some i), Or.inr rfl, ?_⟩
        simp [ThreadPool.step, CondVar.notifyOne, hm, hi]

end

/-- **No worker is idle while tasks wait**: if one sleeps, every waiting task has a woken worker
or a notification that is due.  So the pool is not stuck as long as a future is not set. -/
theorem no_idle_worker (call : α → β) (hn : 0 < n) (as : List (Act n α)) (p : ThreadPool n α β)
    (hr : run (step call) start as = some p) :
    (p.condition.asleep ≠ ∅ → p.tasks.length ≤ p.condition.woken.card + p.condition.one) ∧
    ∀ id job, (id, job) ∈ p.accepted → id ∉ p.futures.map Prod.fst →
      ∃ a : Act n α, (a.ofWorker = true ∨ a.notifies = true) ∧ ∃ q, p.step call a = some q := by
  obtain ⟨ht, hw⟩ := invariant_of_run hr
  exact ⟨fun hne => hw.covers.resolve_left hne,
    fun id job hjob hunset => hw.exists_progress ht hn hjob hunset⟩

theorem no_idle_worker_sample :
    ∃ p : ThreadPool 2 Nat Nat,
      run (step (· + 1)) start [.look 0, .look 1, .multiEnqueue [10, 20, 30], .notifyOne (some 1)] =
        some p ∧ p.condition.asleep ≠ ∅ ∧
      p.tasks.length ≤ p.condition.woken.card + p.condition.one := by
  obtain ⟨p, hp⟩ := Option.isSome_iff_exists.mp (show (run (step (n := 2) (· + 1)) start
    [.look 0, .look 1, .multiEnqueue [10, 20, 30], .notifyOne (some 1)]).isSome = true by decide)
  have hall : (run (step (n := 2) (· + 1)) start
      [.look 0, .look 1, .multiEnqueue [10, 20, 30], .notifyOne (some 1)]).all
      (fun p => decide (p.condition.asleep ≠ ∅)) = true := by decide
  rw [hp] at hall
  have hsleep := of_decide_eq_true hall
  exact ⟨p, hp, hsleep, (no_idle_worker (· + 1) (by decide) _ p hp).1 hsleep⟩

/-- **`ConcurrentRun` returns the results in the order of its functions**, whatever else the pool
is given: what it finds in its futures are the functions' values, and as long as one of them is
not set, a worker or a notification has a step to take. -/
theorem concurrentRun_eq (call : α → β) (hn : 0 < n) (as bs : List (Act n α))
    (p q : ThreadPool n α β) (functions : List α) (hr : run (step call) start as = some p)
    (hr' : run (step call) p (.multiEnqueue functions :: bs) = some q) :
    q.results (List.range' p.accepted.length functions.length) = some (functions.map call) ∨
      (q.results (List.range' p.accepted.length functions.length) = none ∧
        ∃ a : Act n α, (a.ofWorker = true ∨ a.notifies = true) ∧ ∃ t, q.step call a = some t) := by
  have hrun : run (step call) start (as ++ .multiEnqueue functions :: bs) = some q := by
    rw [run_append, hr]
    exact hr'
  obtain ⟨hq, hw⟩ := invariant_of_run hrun
  obtain ⟨p', hp', hr'⟩ := Option.bind_eq_some_iff.mp hr'
  obtain ⟨-, rfl⟩ := accept_eq hp'
  have haccepted : ∀ job ∈ p.numbered functions, job ∈ q.accepted := fun job hjob =>
    (accepted_run hr').1.subset (List.mem_append_right _ hjob)
  cases hrs : q.results (List.range' p.accepted.length functions.length) with
  | some rs =>
    refine Or.inl (congrArg some (results_eq ?_ hrs))
    intro j job v hj hv
    obtain ⟨l₁, l₂, hsplit, -⟩ := List.lookup_eq_some_iff.mp hv
    have hjob : (p.accepted.length + j, job) ∈ p.numbered functions := by
      refine List.mem_of_getElem? (i := j) ?_
      rw [numbered, List.getElem?_map, List.getElem?_zipIdx, hj]
      rfl
    have hvalue : (p.accepted.length + j, v) ∈ q.futures := by
      rw [hsplit]
      exact List.mem_append_right _ List.mem_cons_self
    exact hq.value_eq (haccepted _ hjob) hvalue
  | none =>
    refine Or.inr ⟨rfl, ?_⟩
    -- some future of the call is not set, and its task is in the pool
    have hunset : ∃ id ∈ List.range' p.accepted.length functions.length,
        id ∉ q.futures.map Prod.fst := by
      by_contra hset
      push Not at hset
      obtain ⟨rs, hrs'⟩ := exists_results hset
      rw [hrs] at hrs'
      cases hrs'
    obtain ⟨id, hid, hunset⟩ := hunset
    rw [← map_fst_numbered] at hid
    obtain ⟨⟨id, job⟩, hjob, rfl⟩ := List.mem_map.mp hid
    exact hw.exists_progress hq hn (haccepted _ hjob) hunset

/-- In the middle of the call one future is not set; at the end both are. -/
theorem concurrentRun_eq_sample :
    ∃ p q q' : ThreadPool 2 Nat Nat,
      run (step (· + 1)) start [.look 0, .enqueue 5, .notifyOne (some 0)] = some p ∧
      run (step (· + 1)) p [.multiEnqueue [10, 20], .look 0, .look 1, .finish 1] = some q ∧
      run (step (· + 1)) p [.multiEnqueue [10, 20], .look 0, .look 1, .finish 1, .look 1,
        .finish 1, .finish 0] = some q' ∧
      (∃ a : Act 2 Nat, (a.ofWorker = true ∨ a.notifies = true) ∧
        ∃ t, q.step (· + 1) a = some t) ∧
      q'.results (List.range' p.accepted.length 2) = some [11, 21] := by
  obtain ⟨p, hp⟩ := Option.isSome_iff_exists.mp (show (run (step (n := 2) (· + 1)) start
    [.look 0, .enqueue 5, .notifyOne (some 0)]).isSome = true by decide)
  have hall : (run (step (n := 2) (· + 1)) start [.look 0, .enqueue 5, .notifyOne (some 0)]).all
      (fun p => ((run (step (· + 1)) p [.multiEnqueue [10, 20], .look 0, .look 1,
        .finish 1]).any fun q => (q.results (List.range' p.accepted.length 2)).isNone) &&
        (run (step (· + 1)) p [.multiEnqueue [10, 20], .look 0, .look 1, .finish 1, .look 1,
          .finish 1, .finish 0]).any fun q =>
            (q.results (List.range' p.accepted.length 2)).isSome) = true := by decide
  rw [hp, Option.all_some, Bool.and_eq_true, Option.any_eq_true, Option.any_eq_true] at hall
  obtain ⟨⟨q, hq, hnone⟩, q', hq', hsome⟩ := hall
  have hmid := concurrentRun_eq (· + 1) (by decide) _ _ p q [10, 20] hp hq
  have hend := concurrentRun_eq (· + 1) (by decide) _ _ p q' [10, 20] hp hq'
  refine ⟨p, q, q', hp, hq, hq', ?_, ?_⟩
  · refine (hmid.resolve_left fun hs => ?_).2
    rw [List.length_cons, List.length_singleton] at hs
    rw [hs] at hnone
    cases hnone
  · refine hend.resolve_right fun hs => ?_
    have hs := hs.1
    rw [List.length_cons, List.length_singleton] at hs
    rw [hs] at hsome
    cases hsome

/-! ### The destructor -/

/-- The steps that a worker still makes once it finds the queue empty. -/
def stepsLeft : Worker α → Nat
  | .ready => 1
  | .waiting => 1
  | .busy _ => 2
  | .exited => 0

/-- The steps that the workers still make once the pool is stopped. -/
def remaining (p : ThreadPool n α β) : Nat :=
  2 * p.tasks.length + ∑ i, stepsLeft (p.workers i)

section

variable {call : α → β} {p q : ThreadPool n α β}

theorem sum_update {f : Fin n → Worker α} {i : Fin n} {w : Worker α} {a b : Nat}
    (ha : stepsLeft (f i) = a) (hb : stepsLeft w = b) :
    (∑ j, stepsLeft (Function.update f i w j)) + a = (∑ j, stepsLeft (f j)) + b := by
  have hcomp : (fun j => stepsLeft (Function.update f i w j)) =
      Function.update (fun j => stepsLeft (f j)) i (stepsLeft w) := by
    funext j
    by_cases hji : j = i
    · simp [hji]
    · simp [hji]
  rw [hcomp, Finset.sum_update_of_mem (Finset.mem_univ i),
    ← Finset.add_sum_erase Finset.univ (fun j => stepsLeft (f j)) (Finset.mem_univ i),
    Finset.sdiff_singleton_eq_erase, ha, hb]
  omega

theorem remaining_step (hstop : p.stop = true) {a : Act n α} (hq : p.step call a = some q) :
    q.remaining + (if a.ofWorker then 1 else 0) = p.remaining := by
  cases a with
  | enqueue task =>
    obtain ⟨hno, -⟩ := accept_eq hq
    rw [hstop] at hno
    cases hno
  | multiEnqueue functions =>
    obtain ⟨hno, -⟩ := accept_eq hq
    rw [hstop] at hno
    cases hno
  | notifyOne chosen =>
    obtain ⟨c, -, rfl⟩ := Option.map_eq_some_iff.mp hq
    rfl
  | stop =>
    obtain rfl := stop_eq hq
    rfl
  | notifyAll =>
    obtain ⟨c, -, rfl⟩ := Option.map_eq_some_iff.mp hq
    rfl
  | wake i =>
    obtain ⟨-, rfl⟩ := wake_eq hq
    rfl
  | look i =>
    obtain ⟨free, rfl, hi⟩ := look_eq hq
    have hone : stepsLeft (p.workers i) = 1 := by
      rcases hi with ⟨hi, -⟩ | ⟨hi, -⟩ <;> rw [hi, stepsLeft]
    rw [test]
    simp only [hstop, Bool.true_or, if_true]
    cases ht : p.tasks with
    | nil =>
      have hsum := sum_update (w := .exited) (b := 0) hone rfl
      simp only [remaining, ht, List.length_nil, Act.ofWorker, if_true]
      omega
    | cons task tasks =>
      have hsum := sum_update (w := .busy task) (b := 2) hone rfl
      simp only [remaining, ht, List.length_cons, Act.ofWorker, if_true]
      omega
  | finish i =>
    obtain ⟨task, hi, rfl⟩ := finish_eq hq
    have htwo : stepsLeft (p.workers i) = 2 := by rw [hi, stepsLeft]
    have hsum := sum_update (w := .ready) (b := 1) htwo rfl
    simp only [remaining, Act.ofWorker, if_true]
    omega

theorem remaining_run (hstop : p.stop = true) {as : List (Act n α)}
    (hr : run (step call) p as = some q) : as.countP Act.ofWorker + q.remaining = p.remaining := by
  induction as generalizing p with
  | nil =>
    obtain rfl := Option.some.inj hr
    simp
  | cons a as ih =>
    obtain ⟨t, ht, hr⟩ := Option.bind_eq_some_iff.mp hr
    have hstep := remaining_step hstop ht
    have hrest := ih ((accepted_step ht).2 hstop).1 hr
    rw [List.countP_cons]
    omega

theorem Waits.exists_drain (h : Waits p) (hstop : p.stop = true) {i : Fin n}
    (hi : p.workers i ≠ .exited) :
    ∃ a : Act n α, (a.ofWorker = true ∨ a.notifies = true) ∧ ∃ q, p.step call a = some q := by
  by_cases hsleep : i ∈ p.condition.asleep
  · -- the `notify_all` of the destructor is still to come
    have hall := h.alert.resolve_right fun hno => hno i hsleep hstop
    obtain ⟨m, hm⟩ := Nat.exists_eq_succ_of_ne_zero hall.ne'
    refine ⟨.notifyAll, Or.inr rfl, ?_⟩
    simp [ThreadPool.step, CondVar.notifyAll, hm]
  · obtain ⟨a, ha, hq⟩ := h.exists_step call hsleep hi
    exact ⟨a, Or.inl ha, hq⟩

end

/-- **The destructor ends**: once the pool is stopped, the workers make exactly `remaining` more
steps, and as long as one of them has not stopped, some step is possible.  When all have
stopped, every task that was accepted has run. -/
theorem destructor_drains (call : α → β) (hn : 0 < n) (as bs : List (Act n α))
    (p q : ThreadPool n α β) (hr : run (step call) start as = some p) (hstop : p.stop = true)
    (hr' : run (step call) p bs = some q) :
    bs.countP Act.ofWorker + q.remaining = p.remaining ∧
      ((∃ i, q.workers i ≠ .exited) →
        ∃ a : Act n α, (a.ofWorker = true ∨ a.notifies = true) ∧ ∃ t, q.step call a = some t) ∧
      ((∀ i, q.workers i = .exited) →
        ∀ id job, (id, job) ∈ p.accepted → (id, call job) ∈ q.futures) := by
  have hrun : run (step call) start (as ++ bs) = some q := by
    rw [run_append, hr]
    exact hr'
  obtain ⟨ht, hw⟩ := invariant_of_run hrun
  obtain ⟨-, hkeep⟩ := accepted_run hr'
  obtain ⟨hstop', haccepted⟩ := hkeep hstop
  refine ⟨remaining_run hstop hr', fun ⟨i, hi⟩ => hw.exists_drain hstop' hi, ?_⟩
  intro hexit id job hjob
  exact ht.all_run hn hexit (haccepted ▸ hjob)

theorem destructor_drains_sample :
    ∃ p q : ThreadPool 2 Nat Nat, run (step (· + 1)) start (sampleTasks 0 1) = some p ∧
      run (step (· + 1)) p (sampleDrain 0 1) = some q ∧ (∀ i, q.workers i = .exited) ∧
      ∀ id job, (id, job) ∈ p.accepted → (id, job + 1) ∈ q.futures := by
  obtain ⟨p, hp⟩ := Option.isSome_iff_exists.mp
    (show (run (step (n := 2) (· + 1)) start (sampleTasks 0 1)).isSome = true by decide)
  have hall : (run (step (n := 2) (· + 1)) start (sampleTasks 0 1)).all (fun p => p.stop &&
      (run (step (· + 1)) p (sampleDrain 0 1)).any
        fun q => decide (∀ i, q.workers i = .exited)) = true := by
    decide
  rw [hp, Option.all_some, Bool.and_eq_true, Option.any_eq_true] at hall
  obtain ⟨hstop, q, hq, hexit⟩ := hall
  have hexit' := of_decide_eq_true hexit
  exact ⟨p, q, hp, hq, hexit',
    (destructor_drains (· + 1) (by decide) (sampleTasks 0 1) (sampleDrain 0 1) p q hp hstop
      hq).2.2 hexit'⟩

end ThreadPool

end Mokv
