import Mokv.LSM.AsyncSSTWriter
import Mokv.Lib.CondVar

/-!
# The wake-ups of the asynchronous writer

In `AsyncSSTWriter` the writer thread takes a request whenever it can.  Here it waits in
`write_cv_`: it finds the predicate false with `write_queue_mutex_` held, and falls asleep and
lets the mutex go in a second step.  `WriteAsync` pushes under the mutex and notifies after it.
The destructor clears `running_` without the mutex, so it may do so, and notify, between the two
steps.

The calls have returned when the destructor starts.  A wake-up without a notification may come
at any time or never; the results are about runs without one.

`hangs_iff`: the destructor waits for ever exactly when its notification falls between the two
steps.  Otherwise the thread ends after at most four more steps.
-/

namespace Mokv.LSM

open Lib

/-- Whether the thread is before its section. -/
def WriterThread.isWaiting {M S C : Type} : WriterThread M S C → Bool
  | .waiting => true
  | _ => false

/-- `AsyncSSTWriter` with `write_cv_`. -/
structure WriterWakeups (M S C : Type) where
  writer : AsyncSSTWriter M S C
  cv : CondVar Unit
  /-- The thread found its predicate false and is not asleep yet; it holds the mutex. -/
  deciding : Bool

namespace WriterWakeups

variable {M S C : Type}

/-- The steps. -/
inductive Act (M S C : Type) where
  /-- a step of the callers, of the destructor or of the thread outside of its section -/
  | base (a : AsyncSSTWriter.Act M S C)
  /-- the predicate, and the section if it holds -/
  | look
  | sleep
  | notifyOne
  | notifyAll
  /-- the thread wakes up for no reason -/
  | wake

/-- A writer that was just constructed. -/
def init (M S C : Type) : WriterWakeups M S C := ⟨.init M S C, .idle, false⟩

/-- The sections need the mutex, and the destructor starts when the calls have returned. -/
def MayStep (s : WriterWakeups M S C) : AsyncSSTWriter.Act M S C → Bool
  | .writeAsync _ | .poll _ => !s.deciding
  | .stop => s.cv.one == 0
  | .wake => false
  | _ => true

/-- The notifications that a step owes. -/
def owe (cv : CondVar Unit) : AsyncSSTWriter.Act M S C → CondVar Unit
  | .writeAsync _ => cv.oweOne 1
  | .stop => cv.oweAll
  | _ => cv

/-- One step. -/
def step (binarySize : S → Nat) (s : WriterWakeups M S C) :
    Act M S C → Option (WriterWakeups M S C)
  | .base a =>
    if s.MayStep a then
      (s.writer.step binarySize a).map fun w => { s with writer := w, cv := owe s.cv a }
    else none
  | .look =>
    if s.writer.thread.isWaiting ∧ s.deciding = false ∧ () ∉ s.cv.asleep then
      if !s.writer.running || !s.writer.writeQueue.isEmpty then
        (s.writer.step binarySize .wake).map fun w => { s with writer := w, cv := s.cv.leave () }
      else some { s with deciding := true }
    else none
  | .sleep => if s.deciding then some { s with deciding := false, cv := s.cv.sleep () } else none
  | .notifyOne =>
    (s.cv.notifyOne (if () ∈ s.cv.asleep then some () else none)).map fun cv => { s with cv := cv }
  | .notifyAll => s.cv.notifyAll.map fun cv => { s with cv := cv }
  | .wake => if () ∈ s.cv.asleep then some { s with cv := s.cv.wake () } else none

/-! ### What a step does -/

section

variable {binarySize : S → Nat} {s t : WriterWakeups M S C}

theorem base_cases {a : AsyncSSTWriter.Act M S C} (h : s.step binarySize (.base a) = some t) :
    s.MayStep a = true ∧ ∃ w, s.writer.step binarySize a = some w ∧
      t = { s with writer := w, cv := owe s.cv a } := by
  rw [step] at h
  split at h
  · obtain ⟨w, hw, rfl⟩ := Option.map_eq_some_iff.mp h
    exact ⟨‹_›, w, hw, rfl⟩
  · cases h

theorem isWaiting_iff {w : WriterThread M S C} : w.isWaiting = true ↔ w = .waiting := by
  cases w <;> simp [WriterThread.isWaiting]

theorem wake_cases {w v : AsyncSSTWriter M S C} (h : w.step binarySize .wake = some v) :
    w.thread = .waiting ∧ v.running = w.running ∧ v.destructor = w.destructor ∧
      v.thread ≠ .waiting ∧
      (w.writeQueue = [] ∧ w.running = false ∧ v.thread = .exited ∧ v.writeQueue = [] ∨
        ∃ request, w.writeQueue = request :: v.writeQueue ∧ v.thread = .popped request) := by
  rw [AsyncSSTWriter.step] at h
  split at h
  · rename_i hthread hqueue
    split at h
    · cases h
    · obtain rfl := Option.some.inj h
      exact ⟨hthread, rfl, rfl, by simp, Or.inl ⟨hqueue, Bool.eq_false_iff.mpr ‹_›, rfl, hqueue⟩⟩
  · rename_i request rest hthread hqueue
    obtain rfl := Option.some.inj h
    exact ⟨hthread, rfl, rfl, by simp, Or.inr ⟨request, hqueue, rfl⟩⟩
  · cases h

theorem look_cases (h : s.step binarySize .look = some t) :
    s.writer.thread = .waiting ∧ s.deciding = false ∧ () ∉ s.cv.asleep ∧
      ((∃ w, s.writer.step binarySize .wake = some w ∧
          t = { s with writer := w, cv := s.cv.leave () }) ∨
        (s.writer.running = true ∧ s.writer.writeQueue = [] ∧
          t = { s with deciding := true })) := by
  rw [step] at h
  split at h
  · rename_i hat
    obtain ⟨hthread, hdeciding, hasleep⟩ := hat
    refine ⟨isWaiting_iff.mp hthread, hdeciding, hasleep, ?_⟩
    split at h
    · obtain ⟨w, hw, rfl⟩ := Option.map_eq_some_iff.mp h
      exact Or.inl ⟨w, hw, rfl⟩
    · rename_i hno
      have hidle : s.writer.running = true ∧ s.writer.writeQueue = [] := by simpa using hno
      exact Or.inr ⟨hidle.1, hidle.2, (Option.some.inj h).symm⟩
  · cases h

theorem sleep_cases (h : s.step binarySize .sleep = some t) :
    s.deciding = true ∧ t = { s with deciding := false, cv := s.cv.sleep () } := by
  rw [step] at h
  split at h
  · exact ⟨‹_›, (Option.some.inj h).symm⟩
  · cases h

theorem wakeUp_cases (h : s.step binarySize .wake = some t) :
    () ∈ s.cv.asleep ∧ t = { s with cv := s.cv.wake () } := by
  rw [step] at h
  split at h
  · exact ⟨‹_›, (Option.some.inj h).symm⟩
  · cases h

/-! ### What holds in every state -/

structure Inv (binarySize : S → Nat) (s : WriterWakeups M S C) : Prop where
  /-- The writer takes the steps of `AsyncSSTWriter`. -/
  reached : ∃ acts, run (AsyncSSTWriter.step binarySize) (.init M S C) acts = some s.writer
  running : s.writer.running = true ↔ s.writer.destructor = .notCalled
  exited : s.writer.thread = .exited → s.writer.running = false
  joined : s.writer.destructor = .returned → s.writer.thread = .exited
  waiting : () ∈ s.cv.waiting → s.writer.thread = .waiting
  deciding : s.deciding = true →
    s.writer.thread = .waiting ∧ s.writer.writeQueue = [] ∧ () ∉ s.cv.asleep
  apart : s.cv.Apart
  covers : CondVar.Covers s.writer.writeQueue.length s.cv
  oneDue : s.writer.running = false → s.cv.one = 0
  allDue : s.cv.all = 0 ∨ s.cv.all = 1 ∧ s.writer.running = false

theorem inv_init : Inv binarySize (init M S C) where
  reached := ⟨[], rfl⟩
  running := iff_of_true rfl rfl
  exited := by simp [init, AsyncSSTWriter.init]
  joined := by simp [init, AsyncSSTWriter.init]
  waiting := by simp [init, CondVar.waiting, CondVar.idle]
  deciding := by simp [init]
  apart := CondVar.apart_idle
  covers := CondVar.covers_idle _
  oneDue := fun _ => rfl
  allDue := Or.inl rfl

theorem Inv.reached_step (h : Inv binarySize s) {a : AsyncSSTWriter.Act M S C}
    {w : AsyncSSTWriter M S C} (hw : s.writer.step binarySize a = some w) :
    ∃ acts, run (AsyncSSTWriter.step binarySize) (.init M S C) acts = some w := by
  obtain ⟨acts, hacts⟩ := h.reached
  exact ⟨acts ++ [a], run_concat.mpr ⟨s.writer, hacts, hw⟩⟩

theorem Inv.move (h : Inv binarySize s) {a : AsyncSSTWriter.Act M S C} {w : AsyncSSTWriter M S C}
    (hw : s.writer.step binarySize a = some w) (hthread : s.writer.thread ≠ .waiting)
    (hrunning : w.running = s.writer.running) (hdestructor : w.destructor = s.writer.destructor)
    (hqueue : w.writeQueue = s.writer.writeQueue) (hexited : w.thread = .exited → w.running = false)
    (hjoined : s.writer.thread ≠ .exited) : Inv binarySize { s with writer := w } := by
  refine ⟨h.reached_step hw, ?_, hexited, ?_, fun hm => absurd (h.waiting hm) hthread,
    fun hd => absurd (h.deciding hd).1 hthread, h.apart, ?_, ?_, ?_⟩
  · dsimp only
    rw [hrunning, hdestructor]
    exact h.running
  · intro hreturned
    dsimp only at hreturned
    rw [hdestructor] at hreturned
    exact absurd (h.joined hreturned) hjoined
  · dsimp only
    rw [hqueue]
    exact h.covers
  · dsimp only
    rw [hrunning]
    exact h.oneDue
  · dsimp only
    rw [hrunning]
    exact h.allDue

theorem Inv.frame (h : Inv binarySize s) {a : AsyncSSTWriter.Act M S C} {w : AsyncSSTWriter M S C}
    (hw : s.writer.step binarySize a = some w) (hrunning : w.running = s.writer.running)
    (hdestructor : w.destructor = s.writer.destructor) (hthread : w.thread = s.writer.thread)
    (hqueue : w.writeQueue = s.writer.writeQueue) : Inv binarySize { s with writer := w } := by
  refine ⟨h.reached_step hw, ?_, ?_, ?_, ?_, ?_, h.apart, ?_, ?_, ?_⟩
  all_goals
    dsimp only
    simp only [hrunning, hdestructor, hthread, hqueue]
  · exact h.running
  · exact h.exited
  · exact h.joined
  · exact h.waiting
  · exact h.deciding
  · exact h.covers
  · exact h.oneDue
  · exact h.allDue

theorem Inv.base (h : Inv binarySize s) {a : AsyncSSTWriter.Act M S C}
    (ht : s.step binarySize (.base a) = some t) : Inv binarySize t := by
  obtain ⟨hmay, w, hw, rfl⟩ := base_cases ht
  cases a with
  | writeAsync request =>
    have hw' := hw
    rw [AsyncSSTWriter.step] at hw'
    split at hw'
    · rename_i hcalled
      obtain rfl := Option.some.inj hw'
      have hrunning := h.running.mpr hcalled
      have hdeciding : s.deciding = false := by simpa [MayStep] using hmay
      refine ⟨h.reached_step hw, h.running, h.exited, h.joined, h.waiting,
        fun hd => absurd hd (by simp [hdeciding]), h.apart, ?_, ?_, h.allDue⟩
      · rw [List.length_append]
        exact h.covers.oweOne 1
      · intro hstopped
        dsimp only at hstopped
        rw [hrunning] at hstopped
        cases hstopped
    · cases hw'
  | test =>
    have hw' := hw
    rw [AsyncSSTWriter.step] at hw'
    split at hw'
    · rename_i hthread
      obtain rfl := Option.some.inj hw'
      refine h.move hw (by simp [hthread]) rfl rfl rfl ?_ (by simp [hthread])
      dsimp only
      split
      · intro hno
        cases hno
      · exact fun _ => Bool.eq_false_iff.mpr ‹_›
    · cases hw'
  | wake => cases hmay
  | write outcome =>
    have hw' := hw
    rw [AsyncSSTWriter.step] at hw'
    split at hw'
    · rename_i request hthread
      obtain rfl := Option.some.inj hw'
      exact h.move hw (by simp [hthread]) rfl rfl rfl (by simp) (by simp [hthread])
    · cases hw'
  | callback =>
    have hw' := hw
    rw [AsyncSSTWriter.step] at hw'
    split at hw'
    · rename_i request result hthread
      obtain rfl := Option.some.inj hw'
      exact h.move hw (by simp [hthread]) rfl rfl rfl (by simp) (by simp [hthread])
    · cases hw'
  | flush =>
    have hw' := hw
    rw [AsyncSSTWriter.step] at hw'
    split at hw'
    · obtain rfl := Option.some.inj hw'
      exact h.frame hw rfl rfl rfl rfl
    · cases hw'
  | poll i =>
    have hw' := hw
    rw [AsyncSSTWriter.step] at hw'
    split at hw'
    · split at hw'
      all_goals
        obtain rfl := Option.some.inj hw'
        exact h.frame hw rfl rfl rfl rfl
    · cases hw'
  | stop =>
    have hw' := hw
    rw [AsyncSSTWriter.step] at hw'
    split at hw'
    · rename_i hcalled
      obtain rfl := Option.some.inj hw'
      have hone : s.cv.one = 0 := by simpa [MayStep] using hmay
      have hall : s.cv.all = 0 := by
        rcases h.allDue with hall | ⟨-, hno⟩
        · exact hall
        · rw [h.running.mpr hcalled] at hno
          cases hno
      refine ⟨h.reached_step hw, by simp, fun _ => rfl, by simp, h.waiting, h.deciding, h.apart,
        h.covers, fun _ => hone, Or.inr ⟨?_, rfl⟩⟩
      show s.cv.all + 1 = 1
      rw [hall]
    · cases hw'
  | join =>
    have hw' := hw
    rw [AsyncSSTWriter.step] at hw'
    split at hw'
    · rename_i hthread hdestructor
      obtain rfl := Option.some.inj hw'
      have hstopped := h.exited hthread
      refine ⟨h.reached_step hw, by simp [hstopped], fun _ => hstopped, fun _ => hthread, h.waiting,
        h.deciding, h.apart, h.covers, h.oneDue, h.allDue⟩
    · cases hw'

theorem Inv.look (h : Inv binarySize s) (ht : s.step binarySize .look = some t) :
    Inv binarySize t := by
  obtain ⟨hthread, hdeciding, hasleep, ⟨w, hw, rfl⟩ | ⟨hrunning, hqueue, rfl⟩⟩ := look_cases ht
  · obtain ⟨-, hrun, hdestructor, hleft, hcases⟩ := wake_cases hw
    have hawake : () ∉ (s.cv.leave ()).waiting := by
      rw [CondVar.waiting_leave hasleep]
      exact Finset.notMem_erase _ _
    refine ⟨h.reached_step hw, ?_, ?_, ?_, fun hm => absurd hm hawake,
      fun hd => absurd hd (by simp [hdeciding]), h.apart.leave _, ?_, ?_, ?_⟩
    · dsimp only
      rw [hrun, hdestructor]
      exact h.running
    · intro hexit
      dsimp only at hexit ⊢
      rcases hcases with ⟨-, hstopped, -⟩ | ⟨request, -, hpopped⟩
      · rw [hrun]
        exact hstopped
      · rw [hpopped] at hexit
        cases hexit
    · intro hreturned
      dsimp only at hreturned
      rw [hdestructor] at hreturned
      have := h.joined hreturned
      rw [hthread] at this
      cases this
    · dsimp only
      rcases hcases with ⟨-, -, -, hempty⟩ | ⟨request, hqueue, -⟩
      · rw [hempty]
        exact CondVar.covers_zero _
      · have hcovers := h.covers
        rw [hqueue] at hcovers
        exact hcovers.leave _
    · dsimp only
      rw [hrun]
      exact h.oneDue
    · dsimp only
      rw [hrun]
      exact h.allDue
  · exact ⟨h.reached, h.running, h.exited, h.joined, h.waiting, fun _ => ⟨hthread, hqueue, hasleep⟩,
      h.apart, h.covers, h.oneDue, h.allDue⟩

theorem Inv.sleep (h : Inv binarySize s) (ht : s.step binarySize .sleep = some t) :
    Inv binarySize t := by
  obtain ⟨hdeciding, rfl⟩ := sleep_cases ht
  obtain ⟨hthread, hqueue, -⟩ := h.deciding hdeciding
  refine ⟨h.reached, h.running, h.exited, h.joined, fun _ => hthread, by simp, h.apart.sleep _, ?_,
    h.oneDue, h.allDue⟩
  dsimp only
  rw [hqueue]
  exact CondVar.covers_zero _

theorem Inv.running_of_notifyOne (h : Inv binarySize s) {chosen : Option Unit} {cv : CondVar Unit}
    (hcv : s.cv.notifyOne chosen = some cv) : s.writer.running = true := by
  obtain ⟨n, hone, -⟩ := CondVar.notifyOne_cases hcv
  by_contra hno
  rw [h.oneDue (Bool.eq_false_iff.mpr hno)] at hone
  cases hone

theorem Inv.notifyOne (h : Inv binarySize s) (ht : s.step binarySize .notifyOne = some t) :
    Inv binarySize t := by
  obtain ⟨cv, hcv, rfl⟩ := Option.map_eq_some_iff.mp ht
  have hrunning := h.running_of_notifyOne hcv
  have hsame : cv.all = s.cv.all ∧ cv.asleep ⊆ s.cv.asleep := by
    obtain ⟨n, -, ⟨-, rfl⟩ | ⟨u, -, rfl⟩⟩ := CondVar.notifyOne_cases hcv
    · exact ⟨rfl, Finset.Subset.refl _⟩
    · exact ⟨rfl, Finset.erase_subset _ _⟩
  refine ⟨h.reached, h.running, h.exited, h.joined, ?_, ?_, h.apart.notifyOne hcv,
    h.covers.notifyOne h.apart hcv, ?_, ?_⟩
  · dsimp only
    rw [CondVar.waiting_notifyOne hcv]
    exact h.waiting
  · intro hd
    obtain ⟨hthread, hqueue, hasleep⟩ := h.deciding hd
    exact ⟨hthread, hqueue, fun hm => hasleep (hsame.2 hm)⟩
  · intro hstopped
    dsimp only at hstopped
    rw [hrunning] at hstopped
    cases hstopped
  · dsimp only
    rw [hsame.1]
    exact h.allDue

theorem Inv.notifyAll_cases (h : Inv binarySize s) (ht : s.step binarySize .notifyAll = some t) :
    s.cv.all = 1 ∧ s.writer.running = false ∧
      t = { s with cv := { s.cv.wakeAll with all := 0 } } := by
  obtain ⟨cv, hcv, rfl⟩ := Option.map_eq_some_iff.mp ht
  obtain ⟨n, hn, rfl⟩ := CondVar.notifyAll_cases hcv
  rcases h.allDue with hzero | ⟨hone, hstopped⟩
  · rw [hzero] at hn
    cases hn
  · obtain rfl : n = 0 := Nat.succ.inj (hn.symm.trans hone)
    exact ⟨hone, hstopped, rfl⟩

theorem Inv.notifyAll (h : Inv binarySize s) (ht : s.step binarySize .notifyAll = some t) :
    Inv binarySize t := by
  obtain ⟨cv, hcv, hs⟩ := Option.map_eq_some_iff.mp ht
  obtain ⟨-, hstopped, rfl⟩ := h.notifyAll_cases ht
  obtain rfl := congrArg WriterWakeups.cv hs
  refine ⟨h.reached, h.running, h.exited, h.joined, ?_, ?_, CondVar.Apart.notifyAll hcv,
    CondVar.Covers.notifyAll hcv, h.oneDue, Or.inl rfl⟩
  · dsimp only
    rw [CondVar.waiting_notifyAll hcv]
    exact h.waiting
  · intro hd
    obtain ⟨hthread, hqueue, -⟩ := h.deciding hd
    exact ⟨hthread, hqueue, Finset.notMem_empty _⟩

theorem Inv.step (h : Inv binarySize s) {a : Act M S C} (ht : s.step binarySize a = some t) :
    Inv binarySize t := by
  cases a with
  | base a => exact h.base ht
  | look => exact h.look ht
  | sleep => exact h.sleep ht
  | notifyOne => exact h.notifyOne ht
  | notifyAll => exact h.notifyAll ht
  | wake =>
    obtain ⟨hasleep, rfl⟩ := wakeUp_cases ht
    refine ⟨h.reached, h.running, h.exited, h.joined, ?_, ?_, h.apart.wake _, h.covers.wake _,
      h.oneDue, h.allDue⟩
    · dsimp only
      rw [CondVar.waiting_wake hasleep]
      exact h.waiting
    · intro hd
      exact absurd hasleep (h.deciding hd).2.2

/-! ### The lost notification -/

/-- The thread is about to sleep or asleep, and nobody will notify it any more. -/
def Lost (s : WriterWakeups M S C) : Prop :=
  s.writer.running = false ∧ s.cv.all = 0 ∧ (s.deciding = true ∨ () ∈ s.cv.asleep)

/-- The destructor's notification does not come between the two steps of the wait. -/
def InTime (s : WriterWakeups M S C) : Act M S C → Prop
  | .notifyAll => s.deciding = false
  | _ => True

instance (s : WriterWakeups M S C) : DecidablePred s.InTime
  | .notifyAll => inferInstanceAs (Decidable (_ = _))
  | .base _ => isTrue trivial
  | .look => isTrue trivial
  | .sleep => isTrue trivial
  | .notifyOne => isTrue trivial
  | .wake => isTrue trivial


theorem not_lost_of_running (h : s.writer.running = true) : ¬ s.Lost := fun hl => by
  rw [hl.1] at h
  cases h

theorem Inv.lost_base (h : Inv binarySize s) {a : AsyncSSTWriter.Act M S C}
    (ht : s.step binarySize (.base a) = some t) : t.Lost ↔ s.Lost := by
  obtain ⟨hmay, w, hw, rfl⟩ := base_cases ht
  have hsame : w.running = s.writer.running → owe s.cv a = s.cv →
      (Lost { s with writer := w, cv := owe s.cv a } ↔ s.Lost) := by
    intro hrunning hcv
    rw [Lost, Lost, hcv, hrunning]
  cases a with
  | writeAsync request =>
    rw [AsyncSSTWriter.step] at hw
    split at hw
    · obtain rfl := Option.some.inj hw
      exact Iff.rfl
    · cases hw
  | stop =>
    rw [AsyncSSTWriter.step] at hw
    split at hw
    · rename_i hcalled
      obtain rfl := Option.some.inj hw
      refine iff_of_false ?_ (not_lost_of_running (h.running.mpr hcalled))
      rintro ⟨-, hzero, -⟩
      cases hzero
    · cases hw
  | test | write | callback | flush | join =>
    rw [AsyncSSTWriter.step] at hw
    split at hw
    · obtain rfl := Option.some.inj hw
      exact hsame rfl rfl
    · cases hw
  | poll i =>
    rw [AsyncSSTWriter.step] at hw
    split at hw
    · split at hw
      all_goals
        obtain rfl := Option.some.inj hw
        exact hsame rfl rfl
    · cases hw
  | wake => cases hmay

theorem Inv.lost_step_iff (h : Inv binarySize s) {a : Act M S C} (ha : a ≠ .wake)
    (ht : s.step binarySize a = some t) : t.Lost ↔ s.Lost ∨ ¬ s.InTime a := by
  cases a with
  | base a => simpa [InTime] using h.lost_base ht
  | look =>
    obtain ⟨hthread, hdeciding, hasleep, hcases⟩ := look_cases ht
    have hnot : ¬ s.Lost := by
      rintro ⟨-, -, hd | hm⟩
      · rw [hdeciding] at hd
        cases hd
      · exact hasleep hm
    refine iff_of_false ?_ (by simp [InTime, hnot])
    rcases hcases with ⟨w, hw, rfl⟩ | ⟨hrunning, -, rfl⟩
    · rintro ⟨-, -, hd | hm⟩
      · exact absurd (hdeciding.symm.trans hd) Bool.false_ne_true
      · exact hasleep hm
    · exact not_lost_of_running hrunning
  | sleep =>
    obtain ⟨hdeciding, rfl⟩ := sleep_cases ht
    simp [Lost, InTime, hdeciding, CondVar.sleep]
  | notifyOne =>
    obtain ⟨cv, hcv, rfl⟩ := Option.map_eq_some_iff.mp ht
    have hrunning := h.running_of_notifyOne hcv
    have hnot : ¬ s.Lost := not_lost_of_running hrunning
    exact iff_of_false (not_lost_of_running hrunning) (by simp [InTime, hnot])
  | notifyAll =>
    obtain ⟨hone, hstopped, rfl⟩ := h.notifyAll_cases ht
    have hnot : ¬ s.Lost := by
      rintro ⟨-, hzero, -⟩
      rw [hone] at hzero
      cases hzero
    simp [Lost, InTime, hone, hstopped, CondVar.wakeAll]
  | wake => exact absurd rfl ha

/-! ### The way to the end -/

/-- A step of the writer thread. -/
def Act.isThread : Act M S C → Bool
  | .look | .sleep | .base .test | .base (.write _) | .base .callback => true
  | _ => false

/-- The thread can take a step, or is going to be notified. -/
def CanMove (binarySize : S → Nat) (s : WriterWakeups M S C) : Prop :=
  (∃ a : Act M S C, a.isThread = true ∧ (s.step binarySize a).isSome) ∨
    (s.step binarySize .notifyAll).isSome

/-- How many steps the thread takes from here once `running_` is false. -/
def rest (s : WriterWakeups M S C) : Nat :=
  match s.writer.thread with
  | .loop => 1
  | .waiting => (if s.writer.writeQueue.isEmpty then 1 else 4) + (if s.deciding then 1 else 0)
  | .popped _ => 3
  | .wrote _ _ => 2
  | .exited => 0

theorem Inv.rest_le (h : Inv binarySize s) : s.rest ≤ 4 := by
  have hwaiting : (if s.writer.writeQueue.isEmpty then 1 else 4) +
      (if s.deciding then 1 else 0) ≤ 4 := by
    cases hdeciding : s.deciding with
    | true =>
      rw [(h.deciding hdeciding).2.1]
      simp
    | false => split <;> simp
  rw [rest]
  split <;> first | exact hwaiting | omega

theorem Inv.rest_base (h : Inv binarySize s) (hstopped : s.writer.running = false)
    {a : AsyncSSTWriter.Act M S C} (ht : s.step binarySize (.base a) = some t) :
    t.writer.running = false ∧
      (if (Act.base a).isThread then 1 else 0) + t.rest = s.rest := by
  have hcalled : s.writer.destructor ≠ .notCalled := fun hno => by
    rw [h.running.mpr hno] at hstopped
    cases hstopped
  obtain ⟨hmay, w, hw, rfl⟩ := base_cases ht
  cases a with
  | writeAsync | flush | stop =>
    rw [AsyncSSTWriter.step, if_neg hcalled] at hw
    cases hw
  | test =>
    rw [AsyncSSTWriter.step] at hw
    split at hw
    · rename_i hthread
      obtain rfl := Option.some.inj hw
      refine ⟨hstopped, ?_⟩
      simp [rest, hthread, hstopped, Act.isThread]
    · cases hw
  | write | callback =>
    rw [AsyncSSTWriter.step] at hw
    split at hw
    · rename_i hthread
      obtain rfl := Option.some.inj hw
      refine ⟨hstopped, ?_⟩
      simp [rest, hthread, Act.isThread]
    · cases hw
  | poll i =>
    rw [AsyncSSTWriter.step] at hw
    split at hw
    · split at hw
      all_goals
        obtain rfl := Option.some.inj hw
        exact ⟨hstopped, by simp [rest, Act.isThread]⟩
    · cases hw
  | join =>
    rw [AsyncSSTWriter.step] at hw
    split at hw
    · obtain rfl := Option.some.inj hw
      exact ⟨hstopped, by simp [rest, Act.isThread]⟩
    · cases hw
  | wake => cases hmay

/-- **Once `running_` is false, every step of the thread is counted.** -/
theorem Inv.rest_step (h : Inv binarySize s) (hstopped : s.writer.running = false) {a : Act M S C}
    (ha : a ≠ .wake) (ht : s.step binarySize a = some t) :
    t.writer.running = false ∧ (if a.isThread then 1 else 0) + t.rest = s.rest := by
  cases a with
  | base a => exact h.rest_base hstopped ht
  | look =>
    obtain ⟨hthread, hdeciding, -, ⟨w, hw, rfl⟩ | ⟨hrunning, -, -⟩⟩ := look_cases ht
    · obtain ⟨-, hrun, -, -, hcases⟩ := wake_cases hw
      refine ⟨hrun.trans hstopped, ?_⟩
      rcases hcases with ⟨hqueue, -, hexited, -⟩ | ⟨request, hqueue, hpopped⟩
      · simp [rest, hthread, hdeciding, hqueue, hexited, Act.isThread]
      · simp [rest, hthread, hdeciding, hqueue, hpopped, Act.isThread]
    · rw [hstopped] at hrunning
      cases hrunning
  | sleep =>
    obtain ⟨hdeciding, rfl⟩ := sleep_cases ht
    obtain ⟨hthread, hqueue, -⟩ := h.deciding hdeciding
    exact ⟨hstopped, by simp [rest, hthread, hdeciding, hqueue, Act.isThread]⟩
  | notifyOne =>
    obtain ⟨cv, -, rfl⟩ := Option.map_eq_some_iff.mp ht
    exact ⟨hstopped, by simp [rest, Act.isThread]⟩
  | notifyAll =>
    obtain ⟨-, -, rfl⟩ := h.notifyAll_cases ht
    exact ⟨hstopped, by simp [rest, Act.isThread]⟩
  | wake => exact absurd rfl ha

theorem Inv.length_le_one (h : Inv binarySize s) (hasleep : () ∈ s.cv.asleep) :
    s.writer.writeQueue.length ≤ s.cv.one := by
  have hwoken : s.cv.woken = ∅ := by
    refine Finset.eq_empty_of_forall_notMem ?_
    rintro ⟨⟩
    exact h.apart () hasleep
  rcases h.covers with hempty | hle
  · rw [hempty] at hasleep
    exact absurd hasleep (Finset.notMem_empty _)
  · rwa [hwoken, Finset.card_empty, Nat.zero_add] at hle

theorem Inv.canMove (h : Inv binarySize s) (hjoining : s.writer.destructor = .joining)
    (hlost : ¬ s.Lost) : s.writer.thread = .exited ∨ CanMove binarySize s := by
  have hstopped : s.writer.running = false := by
    by_contra hrunning
    have := h.running.mp (Bool.eq_true_of_not_eq_false hrunning)
    rw [hjoining] at this
    cases this
  cases hthread : s.writer.thread with
  | exited => exact Or.inl rfl
  | loop =>
    refine Or.inr (Or.inl ⟨.base .test, rfl, ?_⟩)
    simp [WriterWakeups.step, MayStep, AsyncSSTWriter.step, hthread]
  | popped request =>
    refine Or.inr (Or.inl ⟨.base (.write (.error "")), rfl, ?_⟩)
    simp [WriterWakeups.step, MayStep, AsyncSSTWriter.step, hthread]
  | wrote request result =>
    refine Or.inr (Or.inl ⟨.base .callback, rfl, ?_⟩)
    simp [WriterWakeups.step, MayStep, AsyncSSTWriter.step, hthread]
  | waiting =>
    cases hdeciding : s.deciding with
    | true =>
      refine Or.inr (Or.inl ⟨.sleep, rfl, ?_⟩)
      simp [WriterWakeups.step, hdeciding]
    | false =>
      by_cases hasleep : () ∈ s.cv.asleep
      · -- asleep and not lost, so the notification is due
        refine Or.inr (Or.inr ?_)
        rcases h.allDue with hzero | ⟨hone, -⟩
        · exact absurd ⟨hstopped, hzero, Or.inr hasleep⟩ hlost
        · simp [WriterWakeups.step, CondVar.notifyAll, hone]
      · refine Or.inr (Or.inl ⟨.look, rfl, ?_⟩)
        rw [WriterWakeups.step, if_pos ⟨isWaiting_iff.mpr hthread, hdeciding, hasleep⟩]
        simp only [hstopped, Bool.not_false, Bool.true_or, if_true, Option.isSome_map]
        cases hqueue : s.writer.writeQueue <;> simp [AsyncSSTWriter.step, hthread, hqueue, hstopped]

theorem inv_of_run {as : List (Act M S C)}
    (hr : run (step binarySize) (init M S C) as = some s) : Inv binarySize s :=
  run_invariant inv_init (fun _ _ _ h _ ht => h.step ht) hr (stepsOk_true _ as)

theorem lost_of_run (h : Inv binarySize s) (hlost : s.Lost) {bs : List (Act M S C)}
    (hbs : ∀ a ∈ bs, a ≠ .wake) (hr : run (step binarySize) s bs = some t) :
    Inv binarySize t ∧ t.Lost := by
  induction bs generalizing s with
  | nil =>
    obtain rfl := Option.some.inj hr
    exact ⟨h, hlost⟩
  | cons a bs ih =>
    obtain ⟨u, hu, hr⟩ := Option.bind_eq_some_iff.mp hr
    exact ih (h.step hu) ((h.lost_step_iff (hbs a List.mem_cons_self) hu).mpr (Or.inl hlost))
      (fun b hb => hbs b (List.mem_cons_of_mem _ hb)) hr

theorem rest_of_run (h : Inv binarySize s) (hstopped : s.writer.running = false)
    {bs : List (Act M S C)} (hbs : ∀ a ∈ bs, a ≠ .wake)
    (hr : run (step binarySize) s bs = some t) :
    bs.countP Act.isThread + t.rest = s.rest := by
  induction bs generalizing s with
  | nil =>
    obtain rfl := Option.some.inj hr
    exact Nat.zero_add _
  | cons a bs ih =>
    obtain ⟨u, hu, hr⟩ := Option.bind_eq_some_iff.mp hr
    obtain ⟨hstopped', hcount⟩ := h.rest_step hstopped (hbs a List.mem_cons_self) hu
    have hrest := ih (h.step hu) hstopped' (fun b hb => hbs b (List.mem_cons_of_mem _ hb)) hr
    rw [List.countP_cons]
    omega

/-- In a run without a wake-up for no reason, the notification is lost at its step or not at all. -/
theorem lost_iff {as : List (Act M S C)} (has : ∀ a ∈ as, a ≠ .wake)
    (hr : run (step binarySize) (init M S C) as = some s) :
    s.Lost ↔ ¬ StepsOk (step binarySize) InTime (init M S C) as := by
  induction as using List.reverseRecOn generalizing s with
  | nil =>
    obtain rfl := Option.some.inj hr
    exact iff_of_false (not_lost_of_running rfl) (by simp [StepsOk])
  | append_singleton as a ih =>
    obtain ⟨u, hu, hs⟩ := run_concat.mp hr
    have hbefore := ih (fun b hb => has b (List.mem_append_left _ hb)) hu
    rw [(inv_of_run hu).lost_step_iff (has a (List.mem_append_right _ List.mem_cons_self)) hs,
      hbefore, stepsOk_concat, not_and_or]
    refine or_congr Iff.rfl ⟨fun hno hall => hno (hall u hu), ?_⟩
    intro hno hok
    refine hno fun v hv => ?_
    obtain rfl := Option.some.inj (hu.symm.trans hv)
    exact hok

end

/-- **When the destructor waits for ever**: no request waits for a thread that sleeps without a
notification to come, and the destructor hangs exactly when its notification falls between the
moment at which the thread finds its predicate false and the moment at which it falls asleep.  Such
a thread never ends.  Otherwise, once `running_` is false, the thread can go on until it has ended,
and it takes `rest` steps, four at most. -/
theorem hangs_iff (binarySize : S → Nat) (as : List (Act M S C)) (s : WriterWakeups M S C)
    (has : ∀ a ∈ as, a ≠ .wake) (hr : run (step binarySize) (init M S C) as = some s) :
    (∃ acts, run (AsyncSSTWriter.step binarySize) (.init M S C) acts = some s.writer) ∧
      (() ∈ s.cv.asleep → s.writer.writeQueue.length ≤ s.cv.one) ∧
      (s.Lost ↔ ¬ StepsOk (step binarySize) InTime (init M S C) as) ∧
      (s.Lost → ∀ bs t, (∀ a ∈ bs, a ≠ .wake) → run (step binarySize) s bs = some t →
        t.Lost ∧ t.writer.destructor ≠ .returned) ∧
      (¬ s.Lost → s.writer.destructor = .joining →
        s.writer.thread = .exited ∨ CanMove binarySize s) ∧
      (s.writer.running = false → s.rest ≤ 4 ∧ ∀ bs t, (∀ a ∈ bs, a ≠ .wake) →
        run (step binarySize) s bs = some t → bs.countP Act.isThread + t.rest = s.rest) := by
  have h := inv_of_run hr
  refine ⟨h.reached, h.length_le_one, lost_iff has hr, ?_,
    fun hlost hjoining => h.canMove hjoining hlost,
    fun hstopped => ⟨h.rest_le, fun bs t hbs hr' => rest_of_run h hstopped hbs hr'⟩⟩
  intro hlost bs t hbs hr'
  obtain ⟨hinv, htlost⟩ := lost_of_run h hlost hbs hr'
  refine ⟨htlost, ?_⟩
  intro hreturned
  have hexited := hinv.joined hreturned
  have hthread : t.writer.thread = .waiting := by
    rcases htlost.2.2 with hdeciding | hasleep
    · exact (hinv.deciding hdeciding).1
    · exact hinv.waiting (Finset.mem_union_left _ hasleep)
  rw [hthread] at hexited
  cases hexited

/-- The thread writes one request and finds the queue empty; the destructor clears `running_` and
notifies before the thread is asleep. -/
def notifiedTooEarly : List (Act Nat Nat Nat) :=
  [.base (.writeAsync ⟨10, 1, some 7⟩), .base .test, .look, .base (.write (.ok 100)),
    .base .callback, .base .test, .notifyOne, .look, .base .stop, .notifyAll, .sleep]

theorem hangs_iff_notifiedTooEarly :
    ∃ s, run (step id) (init Nat Nat Nat) notifiedTooEarly = some s ∧ s.Lost ∧
      ∀ bs t, (∀ a ∈ bs, a ≠ .wake) → run (step id) s bs = some t →
        t.Lost ∧ t.writer.destructor ≠ .returned := by
  obtain ⟨-, -, hlost, hforever, -, -⟩ :=
    hangs_iff id notifiedTooEarly _ (by simp [notifiedTooEarly]) rfl
  have hs : Lost _ := hlost.mpr (by decide)
  exact ⟨_, rfl, hs, hforever hs⟩

end WriterWakeups

end Mokv.LSM
