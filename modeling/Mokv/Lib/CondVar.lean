import Mathlib.Data.Finset.Card

/-!
# Condition variables

`CondVar θ` is the part of a monitor that is not the state it guards: the threads asleep in
`wait`, the threads that were woken and have not looked at their predicate again, and the
notifications of callers that left the lock and have not notified yet.

Two rules say that no wake-up is lost.

* `Covers work c`: all threads wait for work, and each piece of work owes one `notify_one`.
  Then a thread is asleep only if at least as many are on their way as there is work.
* `Alert p c`: each thread has its own predicate, and who makes one true owes a `notify_all`.
  Then no thread sleeps on a true predicate, unless that `notify_all` is still to come.

Both need that a thread goes to sleep in the section that found its predicate false.  Each
operation has a lemma for each rule, so a system keeps them step by step.
-/

namespace Lib

/-- The threads at a condition variable, and the notifications that are due. -/
structure CondVar (θ : Type*) where
  asleep : Finset θ
  woken : Finset θ
  one : Nat
  all : Nat
deriving DecidableEq

namespace CondVar

variable {θ : Type*}

/-- No thread waits. -/
def idle : CondVar θ := ⟨∅, ∅, 0, 0⟩

/-- `n` calls of `notify_one` are due. -/
def oweOne (c : CondVar θ) (n : Nat) : CondVar θ := { c with one := c.one + n }

/-- A call of `notify_all` is due. -/
def oweAll (c : CondVar θ) : CondVar θ := { c with all := c.all + 1 }

/-- A thread is asleep or woken, not both. -/
def Apart (c : CondVar θ) : Prop := ∀ t ∈ c.asleep, t ∉ c.woken

/-- If a thread sleeps, every piece of work has a thread on its way, or a notification. -/
def Covers (work : Nat) (c : CondVar θ) : Prop :=
  c.asleep = ∅ ∨ work ≤ c.woken.card + c.one

/-- No thread sleeps on a true predicate, unless a `notify_all` is due. -/
def Alert (p : θ → Prop) (c : CondVar θ) : Prop := 0 < c.all ∨ ∀ t ∈ c.asleep, ¬ p t

theorem apart_idle : (idle : CondVar θ).Apart := by
  simp [Apart, idle]

theorem covers_idle (work : Nat) : Covers work (idle : CondVar θ) := Or.inl rfl

theorem alert_idle (p : θ → Prop) : Alert p (idle : CondVar θ) := Or.inr (by simp [idle])

theorem covers_zero (c : CondVar θ) : Covers 0 c := Or.inr (Nat.zero_le _)

theorem Covers.mono {work work' : Nat} {c : CondVar θ} (h : Covers work c) (hle : work' ≤ work) :
    Covers work' c := h.imp_right (le_trans hle)

theorem Covers.oweOne {work : Nat} {c : CondVar θ} (h : Covers work c) (n : Nat) :
    Covers (work + n) (c.oweOne n) := by
  refine h.imp_right ?_
  intro hle
  simp only [CondVar.oweOne]
  omega

theorem Alert.anti {p q : θ → Prop} {c : CondVar θ} (h : Alert p c) (hq : ∀ t, q t → p t) :
    Alert q c := h.imp_right fun h t ht hqt => h t ht (hq t hqt)

theorem alert_oweAll (p : θ → Prop) (c : CondVar θ) : Alert p c.oweAll := Or.inl (Nat.succ_pos _)

/-! ### Sleeping and waking -/

variable [DecidableEq θ]

/-- The thread found its predicate false. -/
def sleep (c : CondVar θ) (t : θ) : CondVar θ :=
  { c with asleep := insert t c.asleep, woken := c.woken.erase t }

/-- The thread found its predicate true. -/
def leave (c : CondVar θ) (t : θ) : CondVar θ := { c with woken := c.woken.erase t }

/-- A sleeping thread wakes up, notified or not. -/
def wake (c : CondVar θ) (t : θ) : CondVar θ :=
  { c with asleep := c.asleep.erase t, woken := insert t c.woken }

/-- A due `notify_one` takes place and wakes the chosen thread, if any sleeps. -/
def notifyOne (c : CondVar θ) (chosen : Option θ) : Option (CondVar θ) :=
  match c.one, chosen with
  | n + 1, none => if c.asleep = ∅ then some { c with one := n } else none
  | n + 1, some t => if t ∈ c.asleep then some { c.wake t with one := n } else none
  | 0, _ => none

/-- Every sleeping thread wakes up. -/
def wakeAll (c : CondVar θ) : CondVar θ :=
  { c with asleep := ∅, woken := c.woken ∪ c.asleep }

/-- A due `notify_all` takes place. -/
def notifyAll (c : CondVar θ) : Option (CondVar θ) :=
  match c.all with
  | n + 1 => some { c.wakeAll with all := n }
  | 0 => none

/-- The threads inside `wait`. -/
def waiting (c : CondVar θ) : Finset θ := c.asleep ∪ c.woken

variable {c d : CondVar θ} {t : θ} {chosen : Option θ}

theorem notifyOne_cases (hd : c.notifyOne chosen = some d) : ∃ n, c.one = n + 1 ∧
    ((c.asleep = ∅ ∧ d = { c with one := n }) ∨
      ∃ t ∈ c.asleep, d = { c.wake t with one := n }) := by
  obtain ⟨asleep, woken, one, all⟩ := c
  cases one with
  | zero => cases chosen <;> cases hd
  | succ n =>
    refine ⟨n, rfl, ?_⟩
    cases chosen with
    | none =>
      simp only [notifyOne] at hd
      split at hd
      · exact Or.inl ⟨‹_›, (Option.some.inj hd).symm⟩
      · cases hd
    | some t =>
      simp only [notifyOne] at hd
      split at hd
      · exact Or.inr ⟨t, ‹_›, (Option.some.inj hd).symm⟩
      · cases hd

theorem notifyAll_cases (hd : c.notifyAll = some d) :
    ∃ n, c.all = n + 1 ∧ d = { c.wakeAll with all := n } := by
  obtain ⟨asleep, woken, one, all⟩ := c
  cases all with
  | zero => cases hd
  | succ n => exact ⟨n, rfl, (Option.some.inj hd).symm⟩

/-! ### Who waits -/

theorem Apart.sleep (h : c.Apart) (t : θ) : (c.sleep t).Apart := by
  intro u hu
  rcases Finset.mem_insert.mp hu with rfl | hu
  · exact Finset.notMem_erase _ _
  · exact fun hw => h u hu (Finset.mem_of_mem_erase hw)

theorem Apart.leave (h : c.Apart) (t : θ) : (c.leave t).Apart :=
  fun u hu hw => h u hu (Finset.mem_of_mem_erase hw)

theorem Apart.wake (h : c.Apart) (t : θ) : (c.wake t).Apart := by
  intro u hu hw
  obtain ⟨hne, hu⟩ := Finset.mem_erase.mp hu
  rcases Finset.mem_insert.mp hw with rfl | hw
  · exact hne rfl
  · exact h u hu hw

theorem Apart.notifyOne (h : c.Apart) (hd : c.notifyOne chosen = some d) : d.Apart := by
  obtain ⟨n, -, ⟨-, rfl⟩ | ⟨t, -, rfl⟩⟩ := notifyOne_cases hd
  · exact h
  · exact h.wake t

theorem Apart.notifyAll (hd : c.notifyAll = some d) : d.Apart := by
  obtain ⟨n, -, rfl⟩ := notifyAll_cases hd
  simp [Apart, CondVar.wakeAll]

theorem waiting_sleep (c : CondVar θ) (t : θ) : (c.sleep t).waiting = insert t c.waiting := by
  ext u
  by_cases h : u = t <;> simp [waiting, sleep, h]

theorem waiting_leave (h : t ∉ c.asleep) : (c.leave t).waiting = c.waiting.erase t := by
  rw [waiting, waiting, leave, Finset.erase_union_distrib, Finset.erase_eq_of_notMem h]

theorem waiting_wake (h : t ∈ c.asleep) : (c.wake t).waiting = c.waiting := by
  ext u
  by_cases hu : u = t
  · simp [waiting, wake, hu, h]
  · simp [waiting, wake, hu]

theorem waiting_notifyOne (hd : c.notifyOne chosen = some d) : d.waiting = c.waiting := by
  obtain ⟨n, -, ⟨-, rfl⟩ | ⟨t, ht, rfl⟩⟩ := notifyOne_cases hd
  · rfl
  · exact waiting_wake ht

theorem waiting_notifyAll (hd : c.notifyAll = some d) : d.waiting = c.waiting := by
  obtain ⟨n, -, rfl⟩ := notifyAll_cases hd
  show ∅ ∪ (c.woken ∪ c.asleep) = c.asleep ∪ c.woken
  rw [Finset.empty_union, Finset.union_comm]

/-! ### One notification for each piece of work -/

section

variable {work : Nat}

theorem Covers.leave (h : Covers (work + 1) c) (t : θ) : Covers work (c.leave t) := by
  refine h.imp_right ?_
  intro hle
  have := Finset.pred_card_le_card_erase (s := c.woken) (a := t)
  simp only [CondVar.leave]
  omega

theorem Covers.wake (h : Covers work c) (t : θ) : Covers work (c.wake t) := by
  refine h.imp ?_ ?_
  · intro he
    simp [CondVar.wake, he]
  · intro hle
    have := Finset.card_le_card (Finset.subset_insert t c.woken)
    simp only [CondVar.wake]
    omega

theorem Covers.notifyOne (h : Covers work c) (ha : c.Apart) (hd : c.notifyOne chosen = some d) :
    Covers work d := by
  obtain ⟨n, hn, ⟨he, rfl⟩ | ⟨t, ht, rfl⟩⟩ := notifyOne_cases hd
  · exact Or.inl he
  · have hle : work ≤ c.woken.card + c.one := by
      refine h.resolve_left ?_
      intro he
      rw [he] at ht
      exact absurd ht (Finset.notMem_empty t)
    have hcard := Finset.card_insert_of_notMem (ha t ht)
    refine Or.inr ?_
    simp only [CondVar.wake, hcard]
    omega

theorem Covers.notifyAll (hd : c.notifyAll = some d) : Covers work d := by
  obtain ⟨n, -, rfl⟩ := notifyAll_cases hd
  exact Or.inl rfl

end

/-! ### A predicate for each thread -/

section

variable {p : θ → Prop}

theorem alert_wakeAll (p : θ → Prop) (c : CondVar θ) : Alert p c.wakeAll :=
  Or.inr (by simp [wakeAll])

theorem Alert.sleep (h : Alert p c) (ht : ¬ p t) : Alert p (c.sleep t) := by
  refine h.imp_right ?_
  intro h u hu
  rcases Finset.mem_insert.mp hu with rfl | hu
  · exact ht
  · exact h u hu

theorem Alert.wake (h : Alert p c) (t : θ) : Alert p (c.wake t) :=
  h.imp_right fun h u hu => h u (Finset.mem_of_mem_erase hu)

theorem Alert.notifyOne (h : Alert p c) (hd : c.notifyOne chosen = some d) : Alert p d := by
  obtain ⟨n, -, ⟨-, rfl⟩ | ⟨t, -, rfl⟩⟩ := notifyOne_cases hd
  · exact h
  · exact h.wake t

theorem Alert.notifyAll (hd : c.notifyAll = some d) : Alert p d := by
  obtain ⟨n, -, rfl⟩ := notifyAll_cases hd
  exact Or.inr (by simp [CondVar.wakeAll])

end

end CondVar

end Lib
