import Mokv.Lib.CondVar
import Mokv.Raft.Acknowledge

/-!
# Waiting for the apply thread

`sync_cv_` of `RaftLog` is shared by the apply thread, which waits for committed entries, and by
the calls of `WaitUntilApplied`, which wait for that thread.  `Put` and `UpdateCommit` notify
inside the lock, but only when the commit index rises; the apply thread and the destructor
notify after they left it.

`no_lost_wakeup`: a thread sleeps on a true predicate only while one of these two is on its way
to `notify_all`.  So a wait for a committed index, or after `stop_` is set, is never stuck.
-/

namespace Mokv.Raft

open Lib

/-- Who waits on `sync_cv_`. -/
inductive Waiter where
  | apply
  /-- the call number `id` of `WaitUntilApplied(index)` -/
  | call (id index : Nat)
deriving DecidableEq

/-- A log with its apply thread and the threads that wait. -/
structure Waiters where
  app : Applier
  cond : CondVar Waiter
  /-- the apply thread is before its `notify_all` -/
  notifying : Bool
  exited : Bool
  /-- the destructor is before its `notify_all` -/
  stopping : Bool
  returned : List (Nat × Nat)

namespace Waiters

/-- What happens. -/
inductive Act where
  /-- a call of the log -/
  | log (op : RaftLog.Op)
  /-- the apply thread's section, from the lock or from a wake-up on -/
  | look
  /-- its `db_->Put` -/
  | dbPut
  /-- its `notify_all` -/
  | applied
  /-- the section of `WaitUntilApplied`, likewise -/
  | wait (id index : Nat)
  /-- the section of `~RaftLog` -/
  | stop
  /-- its `notify_all` -/
  | stopped
  /-- a thread wakes up for no reason -/
  | wake (t : Waiter)
deriving DecidableEq

/-- A log that was just constructed. -/
def start (saved : Nat) : Waiters := ⟨Applier.start saved, .idle, false, false, false, []⟩

/-- The predicate of a thread. -/
def Ready (l : RaftLog) : Waiter → Prop
  | .apply => l.stop = true ∨ l.lastAppend < l.commited
  | .call _ index => l.waitReturns index = true

instance (l : RaftLog) : DecidablePred (Ready l)
  | .apply => inferInstanceAs (Decidable (_ ∨ _))
  | .call _ _ => inferInstanceAs (Decidable (_ = true))

/-- The apply thread is before its section. -/
def Idle (s : Waiters) : Prop :=
  s.app.taken = none ∧ s.notifying = false ∧ s.exited = false ∧ .apply ∉ s.cond.asleep

instance (s : Waiters) : Decidable s.Idle := inferInstanceAs (Decidable (_ ∧ _ ∧ _ ∧ _))

/-- One step. -/
def step (s : Waiters) : Act → Option Waiters
  | .log op =>
    if op = .apply then none
    else
      (s.app.log.step op).map fun l =>
        { s with
          app := { s.app with log := l }
          cond := if s.app.log.commited < l.commited then s.cond.wakeAll else s.cond }
  | .look =>
    if s.Idle then
      if Ready s.app.log .apply then
        if s.app.log.lastAppend < s.app.log.commited then
          (s.app.step (.call .apply)).map fun app =>
            { s with app := app, cond := (s.cond.leave .apply).oweAll }
        else some { s with cond := s.cond.leave .apply, exited := true }
      else some { s with cond := s.cond.sleep .apply }
    else none
  | .dbPut => (s.app.step .dbPut).map fun app => { s with app := app, notifying := true }
  | .applied =>
    if s.notifying then s.cond.notifyAll.map fun c => { s with cond := c, notifying := false }
    else none
  | .wait id index =>
    if .call id index ∈ s.cond.asleep ∨ (id, index) ∈ s.returned then none
    else if Ready s.app.log (.call id index) then
      some { s with
        cond := s.cond.leave (.call id index), returned := s.returned ++ [(id, index)] }
    else some { s with cond := s.cond.sleep (.call id index) }
  | .stop =>
    if s.app.log.stop then none
    else
      some { s with
        app := { s.app with log := { s.app.log with stop := true } }
        cond := s.cond.oweAll
        stopping := true }
  | .stopped =>
    if s.stopping then s.cond.notifyAll.map fun c => { s with cond := c, stopping := false }
    else none
  | .wake t => if t ∈ s.cond.asleep then some { s with cond := s.cond.wake t } else none

/-- The apply thread has counted an entry and not notified yet. -/
def Busy (s : Waiters) : Prop := s.app.taken.isSome = true ∨ s.notifying = true

/-- What every state keeps. -/
structure Inv (s : Waiters) : Prop where
  alert : CondVar.Alert (Ready s.app.log) s.cond
  /-- Who owes a `notify_all`. -/
  due : s.cond.all = s.app.taken.isSome.toNat + s.notifying.toNat + s.stopping.toNat
  once : s.app.taken = none ∨ s.notifying = false
  /-- A call sleeps at most until its entry is counted. -/
  calls : ∀ id index, .call id index ∈ s.cond.asleep → index ≤ s.app.log.lastAppend →
    index = s.app.log.lastAppend ∧ s.Busy
  exits : s.exited = true → s.app.log.stop = true ∧ s.app.taken = none ∧ s.notifying = false
  stops : s.stopping = true → s.app.log.stop = true

theorem inv_start (saved : Nat) : (start saved).Inv where
  alert := CondVar.alert_idle _
  due := rfl
  once := Or.inl rfl
  calls := by simp [start, CondVar.idle]
  exits := by simp [start]
  stops := by simp [start]

/-- A call of the log leaves the apply thread's counter, and the commit index only rises. -/
theorem RaftLog.counters_of_step {l t : RaftLog} {op : RaftLog.Op} (hop : op ≠ .apply)
    (h : l.step op = some t) : t.lastAppend = l.lastAppend ∧ l.commited ≤ t.commited := by
  have hput : ∀ entry, ((l.putEntry entry).getD l).lastAppend = l.lastAppend ∧
      l.commited ≤ ((l.putEntry entry).getD l).commited := by
    intro entry
    rw [RaftLog.putEntry]
    split
    · exact ⟨rfl, Nat.le_refl _⟩
    · split
      · exact ⟨rfl, Nat.le_refl _⟩
      · refine ⟨rfl, ?_⟩
        simp only [Option.getD_some]
        split <;> omega
  cases op with
  | put key value term =>
    obtain rfl := Option.some.inj h
    rw [RaftLog.fst_put_getD]
    exact hput _
  | putEntry entry =>
    obtain rfl := Option.some.inj h
    exact hput entry
  | updateCommit leaderCommit =>
    obtain rfl := Option.some.inj h
    exact ⟨rfl, Nat.le_max_left _ _⟩
  | reset =>
    obtain rfl := Option.some.inj h
    rw [RaftLog.reset]
    split <;> exact ⟨rfl, Nat.le_refl _⟩
  | apply => exact absurd rfl hop

section

variable {s t : Waiters}

theorem log_eq {op : RaftLog.Op} (h : s.step (.log op) = some t) :
    ∃ l, op ≠ .apply ∧ s.app.log.step op = some l ∧ t = { s with
      app := { s.app with log := l }
      cond := if s.app.log.commited < l.commited then s.cond.wakeAll else s.cond } := by
  rw [step] at h
  split at h
  · cases h
  · obtain ⟨l, hl, rfl⟩ := Option.map_eq_some_iff.mp h
    exact ⟨l, ‹_›, hl, rfl⟩

theorem look_eq (h : s.step .look = some t) : s.Idle ∧
    ((∃ e, s.app.log.lastAppend < s.app.log.commited ∧ t = { s with
        app := { s.app with
          log := { s.app.log with lastAppend := s.app.log.lastAppend + 1 }, taken := some e }
        cond := (s.cond.leave .apply).oweAll }) ∨
      (s.app.log.stop = true ∧ t = { s with cond := s.cond.leave .apply, exited := true }) ∨
      (¬ Ready s.app.log .apply ∧ t = { s with cond := s.cond.sleep .apply })) := by
  rw [step] at h
  split at h
  · rename_i hidle
    refine ⟨hidle, ?_⟩
    split at h
    · rename_i hready
      split at h
      · rename_i hlt
        obtain ⟨app, happ, rfl⟩ := Option.map_eq_some_iff.mp h
        simp only [Applier.step, hidle.1] at happ
        obtain ⟨⟨l, e⟩, hl, rfl⟩ := Option.map_eq_some_iff.mp happ
        rw [RaftLog.apply, if_pos hlt] at hl
        obtain ⟨rfl, rfl⟩ := Prod.mk.inj (Option.some.inj hl)
        exact Or.inl ⟨_, hlt, rfl⟩
      · rename_i hlt
        obtain rfl := Option.some.inj h
        exact Or.inr (Or.inl ⟨hready.resolve_right hlt, rfl⟩)
    · obtain rfl := Option.some.inj h
      exact Or.inr (Or.inr ⟨‹_›, rfl⟩)
  · cases h

theorem wait_eq {id index : Nat} (h : s.step (.wait id index) = some t) :
    .call id index ∉ s.cond.asleep ∧
    ((s.app.log.waitReturns index = true ∧ t = { s with
        cond := s.cond.leave (.call id index), returned := s.returned ++ [(id, index)] }) ∨
      (s.app.log.waitReturns index = false ∧
        t = { s with cond := s.cond.sleep (.call id index) })) := by
  rw [step] at h
  split at h
  · cases h
  · rename_i hno
    refine ⟨fun hm => hno (Or.inl hm), ?_⟩
    split at h
    · exact Or.inl ⟨‹_›, (Option.some.inj h).symm⟩
    · exact Or.inr ⟨Bool.eq_false_iff.mpr ‹_›, (Option.some.inj h).symm⟩

theorem Inv.step {a : Act} (h : s.Inv) (ha : s.step a = some t) : t.Inv := by
  cases a with
  | log op =>
    obtain ⟨l, hop, hl, rfl⟩ := log_eq ha
    obtain ⟨hlast, hcom⟩ := RaftLog.counters_of_step hop hl
    obtain ⟨hstop, -⟩ := RaftLog.fixed_of_step hl
    have hexits := h.exits
    have hstops := h.stops
    by_cases hlt : s.app.log.commited < l.commited
    · simp only [hlt, if_true]
      rw [← hstop] at hexits hstops
      exact ⟨CondVar.alert_wakeAll _ _, h.due, h.once, by simp [CondVar.wakeAll], hexits, hstops⟩
    · simp only [hlt, if_false]
      rw [← hstop] at hexits hstops
      refine ⟨h.alert.anti ?_, h.due, h.once, ?_, hexits, hstops⟩
      · rintro (_ | ⟨id, index⟩) hr
        · simp only [Ready, hstop, hlast] at hr ⊢
          exact hr.imp_right fun h => by omega
        · simpa only [Ready, RaftLog.waitReturns, hstop, hlast] using hr
      · intro id index hm
        rw [hlast]
        exact h.calls id index hm
  | look =>
    obtain ⟨⟨htaken, hnot, hexit, hawake⟩,
      ⟨e, hlt, rfl⟩ | ⟨hstop, rfl⟩ | ⟨hready, rfl⟩⟩ := look_eq ha
    · refine ⟨CondVar.alert_oweAll _ _, ?_, Or.inr hnot, ?_, ?_, h.stops⟩
      · have hdue := h.due
        rw [htaken] at hdue
        simp only [CondVar.oweAll, CondVar.leave, Option.isSome_some, Option.isSome_none,
          Bool.toNat_true, Bool.toNat_false] at hdue ⊢
        omega
      · -- a call that sleeps waits for a later entry: nothing was on its way before
        intro id index hm hle
        refine ⟨?_, Or.inl rfl⟩
        have hcall := h.calls id index hm
        simp only at hle ⊢
        by_contra hne
        obtain ⟨-, hbusy | hbusy⟩ := hcall (by omega)
        · rw [htaken] at hbusy
          cases hbusy
        · rw [hnot] at hbusy
          cases hbusy
      · intro hx
        rw [hexit] at hx
        cases hx
    · exact ⟨h.alert, h.due, h.once, h.calls, fun _ => ⟨hstop, htaken, hnot⟩, h.stops⟩
    · refine ⟨h.alert.sleep hready, h.due, h.once, ?_, h.exits, h.stops⟩
      intro id index hm
      rcases Finset.mem_insert.mp hm with he | hm
      · cases he
      · exact h.calls id index hm
  | dbPut =>
    obtain ⟨app, happ, rfl⟩ := Option.map_eq_some_iff.mp ha
    obtain ⟨e, htaken, rfl⟩ := Option.map_eq_some_iff.mp happ
    have hnot : s.notifying = false := by
      refine h.once.resolve_left ?_
      rw [htaken]
      exact Option.some_ne_none e
    refine ⟨h.alert, ?_, Or.inl rfl, ?_, ?_, h.stops⟩
    · have hdue := h.due
      rw [htaken, hnot] at hdue
      exact hdue
    · intro id index hm hle
      exact ⟨(h.calls id index hm hle).1, Or.inr rfl⟩
    · intro hx
      have hno := (h.exits hx).2.1
      rw [htaken] at hno
      cases hno
  | applied =>
    rw [Waiters.step] at ha
    split at ha
    · rename_i hnot
      obtain ⟨c, hc, rfl⟩ := Option.map_eq_some_iff.mp ha
      obtain ⟨n, hn, rfl⟩ := CondVar.notifyAll_cases hc
      refine ⟨CondVar.Alert.notifyAll hc, ?_, Or.inr rfl, by simp [CondVar.wakeAll], ?_, h.stops⟩
      · have hdue := h.due
        rw [hn, hnot] at hdue
        simp only [Bool.toNat_true, Bool.toNat_false] at hdue ⊢
        omega
      · intro hx
        obtain ⟨h1, h2, -⟩ := h.exits hx
        exact ⟨h1, h2, rfl⟩
    · cases ha
  | wait id index =>
    obtain ⟨-, ⟨-, rfl⟩ | ⟨hno, rfl⟩⟩ := wait_eq ha
    · exact ⟨h.alert, h.due, h.once, h.calls, h.exits, h.stops⟩
    · have hready : ¬ Ready s.app.log (.call id index) := by
        rw [Ready, hno]
        exact Bool.false_ne_true
      refine ⟨h.alert.sleep hready, h.due, h.once, ?_, h.exits, h.stops⟩
      intro id' index' hm hle
      rcases Finset.mem_insert.mp hm with he | hm
      · obtain ⟨rfl, rfl⟩ := Waiter.call.inj he
        simp only [RaftLog.waitReturns, Bool.or_eq_false_iff, decide_eq_false_iff_not] at hno
        exact absurd hle hno.2
      · exact h.calls id' index' hm hle
  | stop =>
    rw [Waiters.step] at ha
    split at ha
    · cases ha
    · rename_i hstop
      obtain rfl := Option.some.inj ha
      refine ⟨CondVar.alert_oweAll _ _, ?_, h.once, h.calls, fun hx => ⟨rfl, (h.exits hx).2⟩,
        fun _ => rfl⟩
      have hno : s.stopping = false := Bool.eq_false_iff.mpr fun hs => hstop (h.stops hs)
      have hdue := h.due
      rw [hno] at hdue
      simp only [CondVar.oweAll, Bool.toNat_true, Bool.toNat_false] at hdue ⊢
      omega
  | stopped =>
    rw [Waiters.step] at ha
    split at ha
    · rename_i hstopping
      obtain ⟨c, hc, rfl⟩ := Option.map_eq_some_iff.mp ha
      obtain ⟨n, hn, rfl⟩ := CondVar.notifyAll_cases hc
      refine ⟨CondVar.Alert.notifyAll hc, ?_, h.once, by simp [CondVar.wakeAll], h.exits, ?_⟩
      · have hdue := h.due
        rw [hn, hstopping] at hdue
        simp only [Bool.toNat_true, Bool.toNat_false] at hdue ⊢
        omega
      · intro hs
        cases hs
    · cases ha
  | wake w =>
    rw [Waiters.step] at ha
    split at ha
    · obtain rfl := Option.some.inj ha
      refine ⟨h.alert.wake w, h.due, h.once, ?_, h.exits, h.stops⟩
      intro id index hm
      exact h.calls id index (Finset.mem_of_mem_erase hm)
    · cases ha

theorem inv_of_run {saved : Nat} {as : List Act} (hr : run step (start saved) as = some s) :
    s.Inv := by
  refine run_invariant (I := Inv) (inv_start saved) ?_ hr (stepsOk_true _ _)
  intro s a t h _ ha
  exact h.step ha

/-! ### Progress -/

/-- A step that goes on with what is waited for: the apply thread with work to do, a
notification, or a wait that returns. -/
def Advances (s : Waiters) : Act → Prop
  | .look => Ready s.app.log .apply
  | .dbPut => True
  | .applied => True
  | .stopped => True
  | .wait id index => Ready s.app.log (.call id index)
  | _ => False

theorem Inv.exists_notify (h : s.Inv) (hdue : s.Busy ∨ s.stopping = true) :
    ∃ a, s.Advances a ∧ (s.step a).isSome = true := by
  rcases hdue with (htaken | hnot) | hstop
  · obtain ⟨e, he⟩ := Option.isSome_iff_exists.mp htaken
    refine ⟨.dbPut, trivial, ?_⟩
    rw [Waiters.step, Applier.step, he]
    rfl
  · obtain ⟨n, hn⟩ : ∃ n, s.cond.all = n + 1 := by
      have := h.due
      rw [hnot, Bool.toNat_true] at this
      exact ⟨_, this.trans (by omega : _ = s.app.taken.isSome.toNat + s.stopping.toNat + 1)⟩
    refine ⟨.applied, trivial, ?_⟩
    simp [Waiters.step, hnot, CondVar.notifyAll, hn]
  · obtain ⟨n, hn⟩ : ∃ n, s.cond.all = n + 1 := by
      have := h.due
      rw [hstop, Bool.toNat_true] at this
      exact ⟨_, this⟩
    refine ⟨.stopped, trivial, ?_⟩
    simp [Waiters.step, hstop, CondVar.notifyAll, hn]

/-- **Who sleeps on a true predicate is about to be notified.** -/
theorem Inv.owed (h : s.Inv) {w : Waiter} (hw : w ∈ s.cond.asleep) (hready : Ready s.app.log w) :
    s.Busy ∨ s.stopping = true := by
  have hall := h.alert.resolve_right fun hno => hno w hw hready
  rw [h.due] at hall
  by_contra hnone
  obtain ⟨h1, h2⟩ := not_or.mp hnone
  obtain ⟨h3, h4⟩ := not_or.mp h1
  rw [Bool.eq_false_iff.mpr h2, Bool.eq_false_iff.mpr h3, Bool.eq_false_iff.mpr h4] at hall
  exact absurd hall (by decide)

/-- The apply thread goes on as long as there is something to apply. -/
theorem Inv.exists_apply (h : s.Inv) (hexit : s.exited = false) (hready : Ready s.app.log .apply) :
    ∃ a, s.Advances a ∧ (s.step a).isSome = true := by
  by_cases hsleep : Waiter.apply ∈ s.cond.asleep
  · exact h.exists_notify (h.owed hsleep hready)
  · by_cases hbusy : s.Busy
    · exact h.exists_notify (Or.inl hbusy)
    · obtain ⟨h1, h2⟩ := not_or.mp hbusy
      have hidle : s.Idle :=
        ⟨by simpa using h1, Bool.eq_false_iff.mpr h2, hexit, hsleep⟩
      by_cases hlt : s.app.log.lastAppend < s.app.log.commited
      · refine ⟨.look, hready, ?_⟩
        rw [Waiters.step, if_pos hidle, if_pos hready, if_pos hlt, Applier.step, hidle.1]
        simp only [RaftLog.apply, if_pos hlt]
        rfl
      · refine ⟨.look, hready, ?_⟩
        rw [Waiters.step, if_pos hidle, if_pos hready, if_neg hlt]
        rfl

end

/-- **No wake-up is lost.**  A thread sleeps on a true predicate only while the apply thread or
the destructor is before its `notify_all`, and a call never sleeps past the moment when its
entry is counted and notified.  So a wait for a committed index, or any wait once `stop_` is
set, is not stuck until it has returned, nor is the destructor until the thread has stopped. -/
theorem no_lost_wakeup (saved : Nat) (as : List Act) (s : Waiters)
    (hr : run step (start saved) as = some s) :
    (∀ w ∈ s.cond.asleep, Ready s.app.log w → s.Busy ∨ s.stopping = true) ∧
    (∀ id index, .call id index ∈ s.cond.asleep → s.app.log.lastAppend ≤ index) ∧
    (∀ id index, index ≤ s.app.log.commited ∨ s.app.log.stop = true →
      (id, index) ∉ s.returned → ∃ a, s.Advances a ∧ (s.step a).isSome = true) ∧
    (s.app.log.stop = true → s.exited = false → ∃ a, s.Advances a ∧ (s.step a).isSome = true) := by
  have h := inv_of_run hr
  refine ⟨fun w hw hready => h.owed hw hready, ?_, ?_, ?_⟩
  · intro id index hm
    by_contra hlt
    have := (h.calls id index hm (by omega)).1
    omega
  · intro id index hwant hnew
    by_cases hready : Ready s.app.log (.call id index)
    · by_cases hsleep : Waiter.call id index ∈ s.cond.asleep
      · exact h.exists_notify (h.owed hsleep hready)
      · refine ⟨.wait id index, hready, ?_⟩
        rw [step, if_neg (by simp [hsleep, hnew]), if_pos hready]
        rfl
    · simp only [Ready, RaftLog.waitReturns, Bool.or_eq_true, decide_eq_true_eq, not_or] at hready
      have hexit : s.exited = false := Bool.eq_false_iff.mpr fun hx => hready.1 (h.exits hx).1
      refine h.exists_apply hexit (Or.inr ?_)
      have := hwant.resolve_right hready.1
      omega
  · intro hstop hexit
    exact h.exists_apply hexit (Or.inl hstop)

/-- A call that sleeps although its entry is counted. -/
def sample : List Act :=
  [.look, .log (.put [1] [10] 1), .wait 7 1, .log (.updateCommit 1), .wait 7 1, .look]

theorem no_lost_wakeup_sample :
    ∃ s, run step (start 0) sample = some s ∧ .call 7 1 ∈ s.cond.asleep ∧
      s.app.log.lastAppend = 1 ∧ (s.Busy ∨ s.stopping = true) := by
  obtain ⟨s, hs⟩ := Option.isSome_iff_exists.mp
    (show (run step (start 0) sample).isSome = true by decide)
  have hall : (run step (start 0) sample).all (fun s =>
      decide (.call 7 1 ∈ s.cond.asleep ∧ s.app.log.lastAppend = 1 ∧
        Ready s.app.log (.call 7 1))) = true := by decide
  rw [hs] at hall
  obtain ⟨h1, h2, h3⟩ := of_decide_eq_true hall
  exact ⟨s, hs, h1, h2, (no_lost_wakeup 0 sample s hs).1 _ h1 h3⟩

end Waiters

end Mokv.Raft
