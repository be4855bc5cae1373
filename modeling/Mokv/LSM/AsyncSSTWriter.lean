import Mokv.Bytes
import Mokv.Lib.Run

/-!
# The asynchronous SST writer

`AsyncSSTWriter` (`mokv/lsm/async_sst_writer.cpp`): requests wait in a queue for one writer
thread, `Flush` polls the queue, and the destructor clears `running_` and joins the thread.
The steps are the sections under `write_queue_mutex_`, the tests of `running_` outside them,
the writes and the callbacks.

`loses_nothing`: nothing is lost as long as the destructor finds no request that the thread
will not take any more, and no `Flush` returns while a request from before it is being
written.
-/

namespace Mokv.LSM

open Lib

/-- `WriteRequest`. -/
structure WriteRequest (M C : Type) where
  memtable : M
  sstId : Nat
  /-- none for an empty function -/
  callback : Option C
deriving DecidableEq

/-- `AsyncWriteResult`. -/
structure AsyncWriteResult (S : Type) where
  sst : Option S
  success : Bool
  errorMessage : String
deriving DecidableEq

/-- Where `WriterThread` is. -/
inductive WriterThread (M S C : Type) where
  /-- before the test of the outer loop -/
  | loop
  /-- before the section that waits -/
  | waiting
  /-- with a request to write -/
  | popped (request : WriteRequest M C)
  /-- with the result for the callback -/
  | wrote (request : WriteRequest M C) (result : AsyncWriteResult S)
  | exited
deriving DecidableEq

/-- A call of `Flush`. -/
structure Flush where
  /-- how many requests were enqueued before it -/
  before : Nat
  returned : Bool
deriving DecidableEq

/-- How far the destructor is. -/
inductive Destructor where
  | notCalled
  | joining
  | returned
deriving DecidableEq

/-- `Stats`. -/
structure AsyncSSTWriter.Stats where
  totalWrites : Nat := 0
  successfulWrites : Nat := 0
  failedWrites : Nat := 0
  totalBytes : Nat := 0

/-- `AsyncSSTWriter`, with its callers.  `accepted` are the requests of all calls of
`WriteAsync`, `written` those that were written, and `called` are the callbacks. -/
structure AsyncSSTWriter (M S C : Type) where
  running : Bool
  writeQueue : List (WriteRequest M C)
  stats : AsyncSSTWriter.Stats
  thread : WriterThread M S C
  destructor : Destructor
  flushes : List Flush
  accepted : List (WriteRequest M C)
  written : List (WriteRequest M C × AsyncWriteResult S)
  called : List (C × AsyncWriteResult S)

namespace AsyncSSTWriter

variable {M S C : Type}

/-- A writer that was just constructed. -/
def init (M S C : Type) : AsyncSSTWriter M S C :=
  ⟨true, [], {}, .loop, .notCalled, [], [], [], []⟩

/-- The counters of `WriteSync`, when it makes the SST.  `binarySize` is `SST::binary_size`. -/
def countSync (binarySize : S → Nat) (stats : Stats) : Except String S → Stats
  | .ok sst =>
    { stats with
      totalWrites := incSize stats.totalWrites
      successfulWrites := incSize stats.successfulWrites
      totalBytes := addSize stats.totalBytes (binarySize sst) }
  | .error _ => stats

/-- The counters of `WriterThread`. -/
def count (stats : Stats) (success : Bool) : Stats :=
  { stats with
    totalWrites := incSize stats.totalWrites
    successfulWrites := if success then incSize stats.successfulWrites else stats.successfulWrites
    failedWrites := if success then stats.failedWrites else incSize stats.failedWrites }

/-- `WriteSync` made the SST or threw; what the thread makes of it. -/
def resultOf : Except String S → AsyncWriteResult S
  | .ok sst => ⟨some sst, true, ""⟩
  | .error what => ⟨none, false, what⟩

/-- The callback of a request, if it has one. -/
def callbackOf (r : WriteRequest M C × AsyncWriteResult S) : Option (C × AsyncWriteResult S) :=
  r.1.callback.map fun callback => (callback, r.2)

/-- The steps. -/
inductive Act (M S C : Type) where
  | writeAsync (request : WriteRequest M C)
  /-- `while (running_)` -/
  | test
  /-- the section that waits and pops -/
  | wake
  /-- `WriteSync` -/
  | write (outcome : Except String S)
  | callback
  /-- a new call of `Flush` -/
  | flush
  /-- a section of a `Flush` -/
  | poll (i : Nat)
  /-- `running_ = false` in the destructor -/
  | stop
  | join

/-- One step.  Nobody calls the writer once its destructor runs. -/
def step (binarySize : S → Nat) (w : AsyncSSTWriter M S C) :
    Act M S C → Option (AsyncSSTWriter M S C)
  | .writeAsync request =>
    if w.destructor = .notCalled then
      some { w with
        writeQueue := w.writeQueue ++ [request]
        accepted := w.accepted ++ [request] }
    else none
  | .test =>
    match w.thread with
    | .loop => some { w with thread := if w.running then .waiting else .exited }
    | _ => none
  | .wake =>
    match w.thread, w.writeQueue with
    | .waiting, [] => if w.running then none else some { w with thread := .exited }
    | .waiting, request :: rest => some { w with writeQueue := rest, thread := .popped request }
    | _, _ => none
  | .write outcome =>
    match w.thread with
    | .popped request =>
      let result := resultOf outcome
      some { w with
        thread := .wrote request result
        stats := count (countSync binarySize w.stats outcome) result.success
        written := w.written ++ [(request, result)] }
    | _ => none
  | .callback =>
    match w.thread with
    | .wrote request result =>
      some { w with thread := .loop, called := w.called ++ (callbackOf (request, result)).toList }
    | _ => none
  | .flush =>
    if w.destructor = .notCalled then
      some { w with flushes := w.flushes ++ [⟨w.accepted.length, false⟩] }
    else none
  | .poll i =>
    match w.flushes[i]? with
    | some ⟨before, false⟩ =>
      if w.writeQueue.isEmpty then some { w with flushes := w.flushes.set i ⟨before, true⟩ }
      else some w
    | _ => none
  | .stop =>
    if w.destructor = .notCalled then some { w with running := false, destructor := .joining }
    else none
  | .join =>
    match w.thread, w.destructor with
    | .exited, .joining => some { w with destructor := .returned }
    | _, _ => none

/-- The request in the hands of the thread, until it is written. -/
def inHand (w : AsyncSSTWriter M S C) : List (WriteRequest M C) :=
  match w.thread with
  | .popped request => [request]
  | _ => []

/-- How many requests the thread still takes once `running_` is false. -/
def takes (w : AsyncSSTWriter M S C) : Nat :=
  match w.thread with
  | .waiting => 1
  | _ => 0

/-- The destructor finds no request that the thread will not take, and a `Flush` that finds the
queue empty finds no older request in the hands of the thread. -/
def StepOk (w : AsyncSSTWriter M S C) : Act M S C → Prop
  | .stop => w.writeQueue.length ≤ w.takes
  | .poll i => w.writeQueue = [] → w.inHand ≠ [] → ∀ f ∈ w.flushes[i]?, f.before ≤ w.written.length
  | _ => True

/-! ### The invariant -/

/-- What the thread has written and not reported. -/
def toReport (w : AsyncSSTWriter M S C) : List (C × AsyncWriteResult S) :=
  match w.thread with
  | .wrote request result => (callbackOf (request, result)).toList
  | _ => []

/-- The requests are written, in hand or queued, in this order; the callbacks are behind by one
at most; and a stopped writer leaves nothing in the queue. -/
structure Inv (w : AsyncSSTWriter M S C) : Prop where
  accepted : w.accepted = w.written.map Prod.fst ++ (w.inHand ++ w.writeQueue)
  called : w.written.filterMap callbackOf = w.called ++ w.toReport
  running : w.running = true ↔ w.destructor = .notCalled
  drained : w.running = false → w.writeQueue.length ≤ w.takes
  exited : w.thread = .exited → w.running = false
  joined : w.destructor = .returned → w.thread = .exited
  before : ∀ f ∈ w.flushes, f.before ≤ w.accepted.length
  flushed : ∀ f ∈ w.flushes, f.returned = true → f.before ≤ w.written.length

theorem inv_init : (init M S C).Inv := by
  refine ⟨rfl, rfl, iff_of_true rfl rfl, ?_, ?_, ?_, ?_, ?_⟩
  · intro h
    cases h
  · intro h
    cases h
  · intro h
    cases h
  · intro f hf
    cases hf
  · intro f hf
    cases hf

section

variable {binarySize : S → Nat} {w w' : AsyncSSTWriter M S C}

/-- **A test of `running_`** ends the thread of a stopped writer. -/
theorem Inv.test (h : w.Inv) (hs : w.step binarySize .test = some w') : w'.Inv := by
  rw [step] at hs
  split at hs
  · rename_i hthread
    obtain rfl := Option.some.inj hs
    have haccepted := h.accepted
    have hcalled := h.called
    have hdrained := h.drained
    simp only [inHand, toReport, takes, hthread] at haccepted hcalled hdrained
    by_cases hrun : w.running = true
    · rw [if_pos hrun]
      refine ⟨haccepted, hcalled, h.running, ?_, ?_, ?_, h.before, h.flushed⟩
      · intro hrun'
        exact (hdrained hrun').trans (Nat.zero_le _)
      · intro hexit
        cases hexit
      · intro hdone
        exact absurd (hthread.symm.trans (h.joined hdone)) (by simp)
    · rw [if_neg hrun]
      exact ⟨haccepted, hcalled, h.running, hdrained, fun _ => Bool.not_eq_true _ ▸ hrun,
        fun _ => rfl, h.before, h.flushed⟩
  · cases hs

/-- **A wake-up** takes the first request, or ends the thread. -/
theorem Inv.wake (h : w.Inv) (hs : w.step binarySize .wake = some w') : w'.Inv := by
  rw [step] at hs
  split at hs
  · rename_i hthread hqueue
    split at hs
    · cases hs
    · rename_i hrun
      obtain rfl := Option.some.inj hs
      have haccepted := h.accepted
      have hcalled := h.called
      simp only [inHand, toReport, hthread] at haccepted hcalled
      refine ⟨haccepted, hcalled, h.running, ?_, fun _ => Bool.not_eq_true _ ▸ hrun, fun _ => rfl,
        h.before, h.flushed⟩
      intro _
      show w.writeQueue.length ≤ 0
      rw [hqueue]
      exact Nat.le_refl _
  · rename_i request rest hthread hqueue
    obtain rfl := Option.some.inj hs
    have haccepted := h.accepted
    have hcalled := h.called
    have hdrained := h.drained
    simp only [inHand, toReport, takes, hthread, hqueue, List.length_cons]
      at haccepted hcalled hdrained
    refine ⟨haccepted, hcalled, h.running, ?_, ?_, ?_, h.before, h.flushed⟩
    · intro hrun
      exact Nat.le_of_succ_le_succ (hdrained hrun)
    · intro hexit
      cases hexit
    · intro hdone
      exact absurd (hthread.symm.trans (h.joined hdone)) (by simp)
  · cases hs

theorem Inv.write {outcome : Except String S} (h : w.Inv)
    (hs : w.step binarySize (.write outcome) = some w') : w'.Inv := by
  rw [step] at hs
  split at hs
  · rename_i request hthread
    obtain rfl := Option.some.inj hs
    have haccepted := h.accepted
    have hcalled := h.called
    have hdrained := h.drained
    simp only [inHand, toReport, takes, hthread] at haccepted hcalled hdrained
    refine ⟨?_, ?_, h.running, hdrained, ?_, ?_, h.before, ?_⟩
    · rw [haccepted]
      simp [inHand]
    · rw [List.filterMap_append, hcalled]
      cases hcb : callbackOf (request, resultOf outcome) <;> simp [toReport, hcb]
    · intro hexit
      cases hexit
    · intro hdone
      exact absurd (hthread.symm.trans (h.joined hdone)) (by simp)
    · intro f hf hret
      rw [List.length_append]
      exact (h.flushed f hf hret).trans (Nat.le_add_right _ _)
  · cases hs

theorem Inv.callback (h : w.Inv) (hs : w.step binarySize .callback = some w') : w'.Inv := by
  rw [step] at hs
  split at hs
  · rename_i request result hthread
    obtain rfl := Option.some.inj hs
    have haccepted := h.accepted
    have hcalled := h.called
    have hdrained := h.drained
    simp only [inHand, toReport, takes, hthread] at haccepted hcalled hdrained
    refine ⟨haccepted, ?_, h.running, hdrained, ?_, ?_, h.before, h.flushed⟩
    · rw [hcalled]
      exact (List.append_nil _).symm
    · intro hexit
      cases hexit
    · intro hdone
      exact absurd (hthread.symm.trans (h.joined hdone)) (by simp)
  · cases hs

theorem Inv.writeAsync {request : WriteRequest M C} (h : w.Inv)
    (hs : w.step binarySize (.writeAsync request) = some w') : w'.Inv := by
  obtain ⟨hcall, heq⟩ := Option.ite_none_right_eq_some.mp hs
  obtain rfl := Option.some.inj heq
  have hrun : w.running = true := h.running.mpr hcall
  refine ⟨?_, h.called, h.running, ?_, h.exited, h.joined, ?_, h.flushed⟩
  · rw [h.accepted]
    simp [inHand]
  · intro hstop
    exact absurd (hrun.symm.trans hstop) (by decide)
  · intro f hf
    rw [List.length_append]
    exact (h.before f hf).trans (Nat.le_add_right _ _)

theorem Inv.stop (h : w.Inv) (hok : w.writeQueue.length ≤ w.takes)
    (hs : w.step binarySize .stop = some w') : w'.Inv := by
  obtain ⟨-, heq⟩ := Option.ite_none_right_eq_some.mp hs
  obtain rfl := Option.some.inj heq
  refine ⟨h.accepted, h.called, iff_of_false ?_ ?_, fun _ => hok, fun _ => rfl, ?_, h.before,
    h.flushed⟩
  · intro hrun
    cases hrun
  · intro hcall
    cases hcall
  · intro hdone
    cases hdone

theorem Inv.join (h : w.Inv) (hs : w.step binarySize .join = some w') : w'.Inv := by
  rw [step] at hs
  split at hs
  · rename_i hthread hjoining
    obtain rfl := Option.some.inj hs
    refine ⟨h.accepted, h.called, iff_of_false ?_ ?_, h.drained, h.exited, fun _ => hthread,
      h.before, h.flushed⟩
    · intro hrun
      exact absurd (hjoining.symm.trans (h.running.mp hrun)) (by decide)
    · intro hcall
      cases hcall
  · cases hs

theorem Inv.flush (h : w.Inv) (hs : w.step binarySize .flush = some w') : w'.Inv := by
  obtain ⟨-, heq⟩ := Option.ite_none_right_eq_some.mp hs
  obtain rfl := Option.some.inj heq
  refine ⟨h.accepted, h.called, h.running, h.drained, h.exited, h.joined, ?_, ?_⟩
  · intro f hf
    rcases List.mem_append.mp hf with hf | hf
    · exact h.before f hf
    · rw [List.mem_singleton.mp hf]
  · intro f hf hret
    rcases List.mem_append.mp hf with hf | hf
    · exact h.flushed f hf hret
    · rw [List.mem_singleton.mp hf] at hret
      cases hret

/-- With an empty queue, only a request in hand is not written. -/
theorem Inv.length_written (h : w.Inv) (hqueue : w.writeQueue = []) (hhand : w.inHand = []) :
    w.written.length = w.accepted.length := by
  rw [h.accepted, hqueue, hhand, List.append_nil, List.append_nil, List.length_map]

theorem Inv.poll {i : Nat} (h : w.Inv) (hok : w.StepOk (.poll i))
    (hs : w.step binarySize (.poll i) = some w') : w'.Inv := by
  rw [step] at hs
  split at hs
  · rename_i before hi
    split at hs
    · rename_i hempty
      obtain rfl := Option.some.inj hs
      have hqueue : w.writeQueue = [] := List.isEmpty_iff.mp hempty
      have hbefore : before ≤ w.accepted.length := h.before _ (List.mem_of_getElem? hi)
      have hwritten : before ≤ w.written.length := by
        by_cases hhand : w.inHand = []
        · rw [h.length_written hqueue hhand]
          exact hbefore
        · exact hok hqueue hhand ⟨before, false⟩ hi
      refine ⟨h.accepted, h.called, h.running, h.drained, h.exited, h.joined, ?_, ?_⟩
      · intro f hf
        rcases List.mem_or_eq_of_mem_set hf with hf | rfl
        · exact h.before f hf
        · exact hbefore
      · intro f hf hret
        rcases List.mem_or_eq_of_mem_set hf with hf | rfl
        · exact h.flushed f hf hret
        · exact hwritten
    · obtain rfl := Option.some.inj hs
      exact h
  · cases hs

theorem Inv.step {a : Act M S C} (h : w.Inv) (hok : w.StepOk a)
    (hs : w.step binarySize a = some w') :
    w'.Inv := by
  cases a with
  | writeAsync request => exact h.writeAsync hs
  | test => exact h.test hs
  | wake => exact h.wake hs
  | write outcome => exact h.write hs
  | callback => exact h.callback hs
  | flush => exact h.flush hs
  | poll i => exact h.poll hok hs
  | stop => exact h.stop hok hs
  | join => exact h.join hs

end

/-- **The writer loses nothing.**  When the destructor has returned, every accepted request is
written and reported to its callback once, in order; when a `Flush` has returned, every
request from before it is written. -/
theorem loses_nothing (binarySize : S → Nat) (as : List (Act M S C)) (w : AsyncSSTWriter M S C)
    (hr : run (step binarySize) (init M S C) as = some w)
    (hok : StepsOk (step binarySize) StepOk (init M S C) as) :
    (w.destructor = .returned →
      w.written.map Prod.fst = w.accepted ∧ w.called = w.written.filterMap callbackOf) ∧
    ∀ f ∈ w.flushes, f.returned = true → w.accepted.take f.before <+: w.written.map Prod.fst := by
  have h : w.Inv := run_invariant inv_init (fun _ _ _ h hok hs => h.step hok hs) hr hok
  constructor
  · intro hdone
    have hthread := h.joined hdone
    have hdrained := h.drained (h.exited hthread)
    have haccepted := h.accepted
    have hcalled := h.called
    simp only [inHand, toReport, takes, hthread] at haccepted hcalled hdrained
    rw [List.length_eq_zero_iff.mp (Nat.le_zero.mp hdrained)] at haccepted
    exact ⟨by simpa using haccepted.symm, by simpa using hcalled.symm⟩
  · intro f hf hret
    have hlen : f.before ≤ (w.written.map Prod.fst).length := by
      rw [List.length_map]
      exact h.flushed f hf hret
    rw [h.accepted, List.take_append_of_le_length hlen]
    exact List.take_prefix _ _

instance [DecidableEq M] [DecidableEq C] (w : AsyncSSTWriter M S C) :
    (a : Act M S C) → Decidable (w.StepOk a)
  | .stop => inferInstanceAs (Decidable (w.writeQueue.length ≤ w.takes))
  | .poll i => inferInstanceAs (Decidable (w.writeQueue = [] → w.inHand ≠ [] →
      ∀ f ∈ w.flushes[i]?, f.before ≤ w.written.length))
  | .writeAsync _ => isTrue trivial
  | .test => isTrue trivial
  | .wake => isTrue trivial
  | .write _ => isTrue trivial
  | .callback => isTrue trivial
  | .flush => isTrue trivial
  | .join => isTrue trivial

/-- Two requests, the second without a callback; a `Flush` that waits for the first one, and a
destructor that finds the thread waiting with the second one in the queue. -/
def sampleActs : List (Act Nat Nat Nat) :=
  [.writeAsync ⟨10, 1, some 7⟩, .flush, .test, .poll 0, .wake, .write (.ok 100), .poll 0, .callback,
    .test, .writeAsync ⟨20, 2, none⟩, .stop, .wake, .write (.error "disk full"), .callback, .test,
    .join]

theorem loses_nothing_sample :
    ∃ w, run (step id) (init Nat Nat Nat) sampleActs = some w ∧
      w.destructor = .returned ∧ w.flushes = [⟨1, true⟩] ∧
      (w.destructor = .returned →
        w.written.map Prod.fst = w.accepted ∧ w.called = w.written.filterMap callbackOf) ∧
      ∀ f ∈ w.flushes, f.returned = true → w.accepted.take f.before <+: w.written.map Prod.fst := by
  refine ⟨_, rfl, by decide, by decide, ?_⟩
  exact loses_nothing id sampleActs _ rfl (by decide)

/-- **A queued request is lost, and a `Flush` returns too early.**  In the first run the
destructor clears `running_` while the thread writes the first of two requests; in the second
a `Flush` finds the queue empty while the request is being written. -/
theorem request_lost :
    (∃ w, run (step id) (init Nat Nat Nat)
        [.writeAsync ⟨10, 1, some 7⟩, .writeAsync ⟨20, 2, some 8⟩, .test, .wake, .stop,
          .write (.ok 100), .callback, .test, .join] = some w ∧
      w.destructor = .returned ∧ w.accepted.map WriteRequest.sstId = [1, 2] ∧
      w.written.map (fun r => r.1.sstId) = [1] ∧ w.called.map Prod.fst = [7]) ∧
    ∃ w, run (step id) (init Nat Nat Nat)
        [.writeAsync ⟨10, 1, some 7⟩, .test, .wake, .flush, .poll 0] = some w ∧
      w.flushes = [⟨1, true⟩] ∧ w.written = [] :=
  ⟨⟨_, rfl, by decide, by decide, by decide, by decide⟩, ⟨_, rfl, by decide, by decide⟩⟩

end AsyncSSTWriter

end Mokv.LSM
