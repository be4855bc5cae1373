import Mokv.Lib.Run
import Mokv.KVStore.Client

/-!
# Programs side by side

Several programs run on one store, one operation at a time, in any order (`Threads.step`).
The operations of the store are atomic.

Where only one of the programs writes, the others do not disturb it: its remaining run can
be followed as if it were alone.  `Prog.run_of_step` keeps the outcome of that run along its
own operations, and `Prog.Throughout` what holds at every operation of it.
-/

namespace Mokv

namespace Prog

variable {α β : Type} {m m' : KVMap}

/-- The next operation of a program. -/
def step : Prog α → KVMap → Option (Prog α × KVMap)
  | .pure _, _ => none
  | .get key next, m => some (next (m.get key), m)
  | .put key value next, m => some (next .ok, m.put key value)
  | .delete key next, m => some (next .ok, m.delete key)
  | .listKeysByPrefix pre next, m => some (next (m.listKeysByPrefix pre), m)
  | .listEntriesByPrefix pre next, m => some (next (m.listEntriesByPrefix pre), m)

/-- What a program has returned. -/
def result : Prog α → Option α
  | .pure a => some a
  | _ => none

theorem eq_pure_of_result {p : Prog α} {a : α} (h : p.result = some a) : p = .pure a := by
  cases p with
  | pure b => exact congrArg Prog.pure (Option.some.inj h)
  | _ => cases h

theorem run_of_step {p q : Prog α} (h : p.step m = some (q, m')) : p.run m = q.run m' := by
  cases p with
  | pure a => cases h
  | get key next => cases h; rfl
  | put key value next => cases h; rfl
  | delete key next => cases h; rfl
  | listKeysByPrefix pre next => cases h; rfl
  | listEntriesByPrefix pre next => cases h; rfl

/-- `I` holds now and after every operation of the program, when it runs alone. -/
def Throughout (I : KVMap → Prop) : Prog α → KVMap → Prop
  | .pure _, m => I m
  | .get key next, m => I m ∧ (next (m.get key)).Throughout I m
  | .put key value next, m => I m ∧ (next .ok).Throughout I (m.put key value)
  | .delete key next, m => I m ∧ (next .ok).Throughout I (m.delete key)
  | .listKeysByPrefix pre next, m => I m ∧ (next (m.listKeysByPrefix pre)).Throughout I m
  | .listEntriesByPrefix pre next, m => I m ∧ (next (m.listEntriesByPrefix pre)).Throughout I m

section

variable {I : KVMap → Prop}

theorem Throughout.now {p : Prog α} (h : p.Throughout I m) : I m := by
  cases p with
  | pure a => exact h
  | _ => exact h.1

theorem Throughout.step {p q : Prog α} (h : p.Throughout I m) (hs : p.step m = some (q, m')) :
    q.Throughout I m' := by
  cases p with
  | pure a => cases hs
  | get key next => cases hs; exact h.2
  | put key value next => cases hs; exact h.2
  | delete key next => cases hs; exact h.2
  | listKeysByPrefix pre next => cases hs; exact h.2
  | listEntriesByPrefix pre next => cases hs; exact h.2

theorem Throughout.bind {p : Prog α} {f : α → Prog β} (h : p.Throughout I m)
    (hf : (f (p.run m).1).Throughout I (p.run m).2) : (p >>= f).Throughout I m := by
  show (p.bind f).Throughout I m
  induction p generalizing m with
  | pure a => exact hf
  | get key next ih => exact ⟨h.1, ih _ h.2 hf⟩
  | put key value next ih => exact ⟨h.1, ih _ h.2 hf⟩
  | delete key next ih => exact ⟨h.1, ih _ h.2 hf⟩
  | listKeysByPrefix pre next ih => exact ⟨h.1, ih _ h.2 hf⟩
  | listEntriesByPrefix pre next ih => exact ⟨h.1, ih _ h.2 hf⟩

theorem throughout_batch {es : List Entry} (h : I m)
    (hput : ∀ m, ∀ e ∈ es, I m → I (m.put e.1 e.2)) : (batch es).Throughout I m := by
  induction es generalizing m with
  | nil => exact h
  | cons e es ih =>
    refine ⟨h, ih (hput m e List.mem_cons_self h) ?_⟩
    intro m e' he'
    exact hput m e' (List.mem_cons_of_mem _ he')

theorem throughout_batchDelete {keys : List Bytes} (h : I m)
    (hdel : ∀ m, ∀ key ∈ keys, I m → I (m.delete key)) : (batchDelete keys).Throughout I m := by
  induction keys generalizing m with
  | nil => exact h
  | cons key keys ih =>
    refine ⟨h, ih (hdel m key List.mem_cons_self h) ?_⟩
    intro m key' hk'
    exact hdel m key' (List.mem_cons_of_mem _ hk')

end

end Prog

/-- Programs on one store, with the number of operations each has made. -/
structure Threads (α : Type) (n : Nat) where
  map : KVMap
  prog : Fin n → Prog α
  taken : Fin n → Nat

namespace Threads

variable {α : Type} {n : Nat}

def start (m : KVMap) (prog : Fin n → Prog α) : Threads α n := ⟨m, prog, fun _ => 0⟩

/-- The next operation of program `i`. -/
def step (s : Threads α n) (i : Fin n) : Option (Threads α n) :=
  ((s.prog i).step s.map).map fun next =>
    ⟨next.2, Function.update s.prog i next.1, Function.update s.taken i (s.taken i + 1)⟩

theorem step_eq_some {s u : Threads α n} {i : Fin n} (h : s.step i = some u) :
    ∃ p m, (s.prog i).step s.map = some (p, m) ∧
      u = ⟨m, Function.update s.prog i p, Function.update s.taken i (s.taken i + 1)⟩ := by
  obtain ⟨⟨p, m⟩, hstep, rfl⟩ := Option.map_eq_some_iff.mp h
  exact ⟨p, m, hstep, rfl⟩

/-- All programs have returned. -/
def Done (s : Threads α n) : Prop := ∀ i, (s.prog i).result.isSome

instance (s : Threads α n) : Decidable s.Done :=
  inferInstanceAs (Decidable (∀ i, (s.prog i).result.isSome))

end Threads

end Mokv
