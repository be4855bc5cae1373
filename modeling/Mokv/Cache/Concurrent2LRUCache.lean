import Mokv.Bytes
import Mokv.Cache.CMSketch
import Mokv.Cache.SequentialLRU

/-!
# The cache of two segments

`Concurrent2LRUCache` (`mokv/cache/concurrent_cache.hpp`): a small window segment in front of a
main segment, and a sketch of how often each key was used.  A put goes to the window; what it
displaces there goes to the main segment if the sketch prefers it to the value at the back.

A put of a key that a segment holds leaves the old value there.  `current_iff` says exactly
when no superseded value is served: no put may find its key in the window under another
value, and none may displace a value whose key the main segment holds with another one.
-/

namespace Mokv.Cache

open Lib

/-- `Concurrent2LRUCache`. -/
structure Concurrent2LRUCache (K V : Type) [DecidableEq K] where
  window : LRUCache K V
  main : LRUCache K V
  sketch : CMSketch

namespace Concurrent2LRUCache

variable {K V : Type} [DecidableEq K]

/-- `capacity * window_ratio_ / 100`, and 1 instead of 0. -/
def windowCapacity (capacity ratio : Nat) : Nat :=
  let n := capacity * ratio % 2 ^ 64 / 100
  if n = 0 then 1 else n

/-- `capacity - window_capacity_`, and 1 instead of 0. -/
def mainCapacity (capacity ratio : Nat) : Nat :=
  let n := subSize capacity (windowCapacity capacity ratio)
  if n = 0 then 1 else n

/-- `while (capacity)`: the number of bits. -/
def bitsNum (capacity : Nat) : Nat := if capacity = 0 then 0 else Nat.log2 capacity + 1

/-- The constructor.  `seeds` is what the sketch draws.  A capacity of 0 gives the sketch no
byte to count in, so that the first call is undefined, and from 2 ^ 30 on there is no sketch. -/
def init (K V : Type) [DecidableEq K] (capacity ratio : Nat) (seeds : List UInt64) :
    Option (Concurrent2LRUCache K V) :=
  if capacity = 0 then none
  else
    (CMSketch.init (bitsNum capacity) seeds).map fun sketch =>
      { window := LRUCache.init K V (windowCapacity capacity ratio) 8
        main := LRUCache.init K V (mainCapacity capacity ratio) 8
        sketch }

/-- The comparison of `Put`: `Estimate(old_value) < Estimate(new_value)`. -/
def prefers (keyOf : V → K) (bits : K → UInt64) (sketch : CMSketch) (oldValue newValue : V) :
    Bool :=
  sketch.estimate (bits (keyOf oldValue)) < sketch.estimate (bits (keyOf newValue))

/-- `Put`.  `bits` is the key as the sketch sees it. -/
def put (keyOf : V → K) (bits : K → UInt64) (c : Concurrent2LRUCache K V) (value : V) :
    Option (Concurrent2LRUCache K V) :=
  let sketch := c.sketch.increment (bits (keyOf value))
  (c.window.putWithDisuse keyOf value).bind fun r =>
    match r.2 with
    | none => some ⟨r.1, c.main, sketch⟩
    | some displaced =>
      (c.main.putWithCompair keyOf displaced (prefers keyOf bits sketch)).map fun main =>
        ⟨r.1, main, sketch⟩

/-- `Get`. -/
def get (bits : K → UInt64) (c : Concurrent2LRUCache K V) (key : K) :
    Option (Concurrent2LRUCache K V × Option V) :=
  let sketch := c.sketch.increment (bits key)
  (c.window.get key).bind fun r =>
    match r.2 with
    | some value => some (⟨r.1, c.main, sketch⟩, some value)
    | none => (c.main.get key).map fun m => (⟨r.1, m.1, sketch⟩, m.2)

/-- The calls, and the refresh thread, which may come in between. -/
inductive Op (K V : Type) where
  | put (value : V)
  | get (key : K)
  | refresh

/-- One call. -/
def step (keyOf : V → K) (bits : K → UInt64) (c : Concurrent2LRUCache K V) :
    Op K V → Option (Concurrent2LRUCache K V)
  | .put value => c.put keyOf bits value
  | .get key => (c.get bits key).map Prod.fst
  | .refresh => some { c with sketch := c.sketch.reset }

/-- The value of the latest put of a key. -/
def lastPut (keyOf : V → K) (ops : List (Op K V)) (key : K) : Option V :=
  ops.reverse.findSome? fun
    | .put value => if keyOf value = key then some value else none
    | _ => none

/-- After the calls `ops`, `Get` returns nothing or the value of the latest put. -/
def Current (keyOf : V → K) (bits : K → UInt64) (ops : List (Op K V))
    (c : Concurrent2LRUCache K V) : Prop :=
  ∀ key c' v, c.get bits key = some (c', some v) → lastPut keyOf ops key = some v

/-- The value that a put displaces from the window. -/
def displaced (keyOf : V → K) (c : Concurrent2LRUCache K V) (value : V) : Option V :=
  if keyOf value ∈ c.window.nodes.map fun n => keyOf n.2 then none
  else if c.window.nodes.length = c.window.capacity then c.window.nodes.getLast?.map Prod.snd
  else none

/-- The put finds no other value of its key in the window, and the value that it displaces meets
no other value of its key in the main segment. -/
def PutOk (keyOf : V → K) (c : Concurrent2LRUCache K V) : Op K V → Prop
  | .put value =>
    (∀ n ∈ c.window.nodes, keyOf n.2 = keyOf value → n.2 = value) ∧
      ∀ u ∈ c.displaced keyOf value, ∀ n ∈ c.main.nodes, keyOf n.2 = keyOf u → n.2 = u
  | _ => True

instance [DecidableEq V] (keyOf : V → K) (c : Concurrent2LRUCache K V) :
    (op : Op K V) → Decidable (c.PutOk keyOf op)
  | .put value => inferInstanceAs (Decidable
      ((∀ n ∈ c.window.nodes, keyOf n.2 = keyOf value → n.2 = value) ∧
        ∀ u ∈ c.displaced keyOf value, ∀ n ∈ c.main.nodes, keyOf n.2 = keyOf u → n.2 = u))
  | .get _ => isTrue trivial
  | .refresh => isTrue trivial

/-! ### Two segments of values -/

/-- What the segments would serve is what `last` knows: the values of the window, and those of
the main segment that the window does not hide. -/
structure Serves (keyOf : V → K) (last : K → Option V) (ws ms : List (Nat × V)) : Prop where
  window : ∀ n ∈ ws, last (keyOf n.2) = some n.2
  main : ∀ n ∈ ms, keyOf n.2 ∉ (ws.map fun w => keyOf w.2) → last (keyOf n.2) = some n.2

/-- The segments hold the nodes `ws` and `ms`. -/
structure Inv (keyOf : V → K) (c : Concurrent2LRUCache K V) (ws ms : List (Nat × V)) : Prop where
  window : c.window.Inv keyOf ws
  main : c.main.Inv keyOf ms
  windowPos : 0 < c.window.capacity
  mainPos : 0 < c.main.capacity

section

variable {keyOf : V → K} {bits : K → UInt64} {c : Concurrent2LRUCache K V}
  {ws ms : List (Nat × V)} {ops : List (Op K V)}

theorem inv_init {capacity ratio : Nat} {seeds : List UInt64}
    (h : init K V capacity ratio seeds = some c) (keyOf : V → K) : c.Inv keyOf [] [] := by
  rw [init, Option.ite_none_left_eq_some, Option.map_eq_some_iff] at h
  obtain ⟨-, sketch, -, rfl⟩ := h
  refine ⟨LRUCache.inv_init keyOf _ _, LRUCache.inv_init keyOf _ _, ?_, ?_⟩
  · show 0 < windowCapacity capacity ratio
    rw [windowCapacity]
    split
    · exact Nat.zero_lt_one
    · exact Nat.pos_of_ne_zero ‹_›
  · show 0 < mainCapacity capacity ratio
    rw [mainCapacity]
    split
    · exact Nat.zero_lt_one
    · exact Nat.pos_of_ne_zero ‹_›

theorem lastPut_put (keyOf : V → K) (ops : List (Op K V)) (value : V) (key : K) :
    lastPut keyOf (ops ++ [.put value]) key =
      if keyOf value = key then some value else lastPut keyOf ops key := by
  rw [lastPut, List.reverse_append, List.reverse_singleton, List.singleton_append,
    List.findSome?_cons]
  by_cases hkey : keyOf value = key
  · simp only [hkey, if_true]
  · simp only [hkey, if_false]
    rfl

theorem lastPut_get (keyOf : V → K) (ops : List (Op K V)) (k : K) :
    lastPut keyOf (ops ++ [.get k]) = lastPut keyOf ops := by
  funext key
  rw [lastPut, List.reverse_append]
  rfl

theorem lastPut_refresh (keyOf : V → K) (ops : List (Op K V)) :
    lastPut keyOf (ops ++ [.refresh]) = lastPut keyOf ops := by
  funext key
  rw [lastPut, List.reverse_append]
  rfl

/-- **`Get`** looks in the window first. -/
theorem Inv.get (h : c.Inv keyOf ws ms) (bits : K → UInt64) (key : K) :
    ∃ c' r ws' ms', c.get bits key = some (c', r) ∧ c'.Inv keyOf ws' ms' ∧ ws'.Perm ws ∧
      ms'.Perm ms ∧ ∀ v, r = some v ↔
        (∃ n ∈ ws, keyOf n.2 = key ∧ n.2 = v) ∨
          key ∉ (ws.map fun n => keyOf n.2) ∧ ∃ n ∈ ms, keyOf n.2 = key ∧ n.2 = v := by
  obtain ⟨w, rw, ws', hw, hwinv, hwcap, hwvisits⟩ := h.window.visit key
  have hwv := hwvisits.eq_some_iff h.window.indexed.keys
  rw [Concurrent2LRUCache.get, LRUCache.get, hw, Option.bind_some]
  cases rw with
  | some value =>
    refine ⟨_, _, ws', ms, rfl, ⟨hwinv, h.main, ?_, h.mainPos⟩, hwvisits.perm, List.Perm.refl _,
      ?_⟩
    · exact hwcap ▸ h.windowPos
    · intro v
      rw [hwv]
      refine (or_iff_left ?_).symm
      rintro ⟨hkey, -⟩
      obtain ⟨n, hn, hnkey, -⟩ := (hwv value).mp rfl
      exact hkey (hnkey ▸ List.mem_map_of_mem hn)
  | none =>
    obtain ⟨m, rm, ms', hm, hminv, hmcap, hmvisits⟩ := h.main.visit key
    have hkey : key ∉ ws.map fun n => keyOf n.2 := by
      intro hmem
      obtain ⟨n, hn, hnkey⟩ := List.mem_map.mp hmem
      cases (hwv n.2).mpr ⟨n, hn, hnkey, rfl⟩
    rw [LRUCache.get, hm]
    refine ⟨_, _, ws', ms', rfl, ⟨hwinv, hminv, ?_, ?_⟩, hwvisits.perm, hmvisits.perm, ?_⟩
    · exact hwcap ▸ h.windowPos
    · exact hmcap ▸ h.mainPos
    · intro v
      rw [hmvisits.eq_some_iff h.main.indexed.keys, and_iff_right hkey]
      refine (or_iff_right ?_).symm
      rintro ⟨n, hn, hnkey, -⟩
      exact hkey (hnkey ▸ List.mem_map_of_mem hn)

theorem Inv.current_iff (h : c.Inv keyOf ws ms) :
    c.Current keyOf bits ops ↔ Serves keyOf (lastPut keyOf ops) ws ms := by
  constructor
  · intro hcur
    refine ⟨?_, ?_⟩
    · intro n hn
      obtain ⟨c', r, ws', ms', hget, -, -, -, hr⟩ := h.get bits (keyOf n.2)
      obtain rfl := (hr n.2).mpr (.inl ⟨n, hn, rfl, rfl⟩)
      exact hcur _ _ _ hget
    · intro n hn hhidden
      obtain ⟨c', r, ws', ms', hget, -, -, -, hr⟩ := h.get bits (keyOf n.2)
      obtain rfl := (hr n.2).mpr (.inr ⟨hhidden, n, hn, rfl, rfl⟩)
      exact hcur _ _ _ hget
  · intro hs key c' v hcv
    obtain ⟨c'', r, ws', ms', hget, -, -, -, hr⟩ := h.get bits key
    obtain ⟨-, rfl⟩ := Prod.mk.inj (Option.some.inj (hcv.symm.trans hget))
    rcases (hr v).mp rfl with ⟨n, hn, rfl, rfl⟩ | ⟨hkey, n, hn, rfl, rfl⟩
    · exact hs.window n hn
    · exact hs.main n hn hkey

omit [DecidableEq K] in
theorem Serves.perm {last : K → Option V} {ws' ms' : List (Nat × V)} (h : Serves keyOf last ws ms)
    (hw : ws'.Perm ws) (hm : ms'.Perm ms) : Serves keyOf last ws' ms' where
  window n hn := h.window n (hw.mem_iff.mp hn)
  main n hn hkey := h.main n (hm.mem_iff.mp hn) fun hmem => hkey ((hw.map _).mem_iff.mpr hmem)

/-- A put that displaces nothing serves its value, unless it met another one in the window. -/
theorem Serves.put_iff {ws' : List (Nat × V)} {value : V} {capacity : Nat}
    (hs : Serves keyOf (lastPut keyOf ops) ws ms) (hkeys : (ws.map fun n => keyOf n.2).Nodup)
    (hputs : LRUCache.Puts keyOf capacity (fun _ => true) value ws ws' none) :
    Serves keyOf (lastPut keyOf (ops ++ [.put value])) ws' ms ↔
      ∀ n ∈ ws, keyOf n.2 = keyOf value → n.2 = value := by
  cases hputs with
  | found v hvisit =>
    obtain ⟨w, hw, hwkey, -⟩ := (hvisit.eq_some_iff hkeys v).mp rfl
    have hmem : ∀ n, n ∈ ws' ↔ n ∈ ws := fun n => hvisit.perm.mem_iff
    constructor
    · intro hs' n hn hnkey
      have hn' := hs'.window n ((hmem n).mpr hn)
      rw [lastPut_put, if_pos hnkey.symm] at hn'
      exact (Option.some.inj hn').symm
    · intro hok
      refine ⟨?_, ?_⟩
      · intro n hn
        rw [lastPut_put]
        by_cases hnkey : keyOf value = keyOf n.2
        · rw [if_pos hnkey, hok n ((hmem n).mp hn) hnkey.symm]
        · rw [if_neg hnkey]
          exact hs.window n ((hmem n).mp hn)
      · intro n hn hhidden
        have hvisible : keyOf n.2 ∉ ws.map fun n => keyOf n.2 :=
          fun hin => hhidden ((hvisit.perm.map _).mem_iff.mpr hin)
        rw [lastPut_put, if_neg]
        · exact hs.main n hn hvisible
        · intro heq
          exact hvisible (heq ▸ hwkey ▸ List.mem_map_of_mem hw)
  | pushed node hkey hroom hafter =>
    subst hafter
    refine iff_of_true ⟨?_, ?_⟩ ?_
    · intro n hn
      rw [lastPut_put]
      rcases List.mem_cons.mp hn with rfl | hn
      · exact if_pos rfl
      · rw [if_neg]
        · exact hs.window n hn
        · intro heq
          exact hkey (heq ▸ List.mem_map_of_mem hn)
    · intro n hn hhidden
      rw [List.map_cons, List.mem_cons, not_or] at hhidden
      rw [lastPut_put, if_neg fun heq => hhidden.1 heq.symm]
      exact hs.main n hn hhidden.2
    · intro n hn hnkey
      exact absurd (hnkey ▸ List.mem_map_of_mem hn) hkey
  | declined rest last hkey hfull hbefore hadmits hafter => cases hadmits

theorem Serves.put_displaced_iff {ws' ms' : List (Nat × V)} {value u : V} {capacity capacity' : Nat}
    {admits : V → Bool} {removed : Option V}
    (hs : Serves keyOf (lastPut keyOf ops) ws ms) (hkeys : (ws.map fun n => keyOf n.2).Nodup)
    (hputs : LRUCache.Puts keyOf capacity (fun _ => true) value ws ws' (some u))
    (hmain : LRUCache.Puts keyOf capacity' admits u ms ms' removed) :
    Serves keyOf (lastPut keyOf (ops ++ [.put value])) ws' ms' ↔
      ∀ n ∈ ms, keyOf n.2 = keyOf u → n.2 = u := by
  cases hputs with
  | evicted node rest last hkey hfull hbefore hadmits hafter =>
    subst hbefore hafter
    obtain ⟨hvalues, hkeeps⟩ := hmain.values
    rw [List.map_append] at hkey hkeys
    have hlastkey : keyOf last.2 ∉ rest.map fun n => keyOf n.2 := fun hmem =>
      (List.nodup_append.mp hkeys).2.2 _ hmem _ List.mem_cons_self rfl
    have hne : keyOf value ≠ keyOf last.2 := fun heq =>
      hkey (List.mem_append_right _ (heq ▸ List.mem_cons_self))
    have hu : lastPut keyOf ops (keyOf last.2) = some last.2 :=
      hs.window last (List.mem_append_right _ List.mem_cons_self)
    constructor
    · intro hs' n hn hnkey
      have hhidden : keyOf n.2 ∉ ((node, value) :: rest).map fun w => keyOf w.2 := by
        rw [hnkey, List.map_cons, List.mem_cons, not_or]
        exact ⟨hne.symm, hlastkey⟩
      have hn' := hs'.main n (hkeeps n hn hnkey) hhidden
      rw [lastPut_put, hnkey, if_neg hne, hu] at hn'
      exact (Option.some.inj hn').symm
    · intro hok
      refine ⟨?_, ?_⟩
      · intro n hn
        rw [lastPut_put]
        rcases List.mem_cons.mp hn with rfl | hn
        · exact if_pos rfl
        · rw [if_neg]
          · exact hs.window n (List.mem_append_left _ hn)
          · intro heq
            exact hkey (List.mem_append_left _ (heq ▸ List.mem_map_of_mem hn))
      · intro n hn hhidden
        rw [List.map_cons, List.mem_cons, not_or] at hhidden
        rw [lastPut_put, if_neg fun heq => hhidden.1 heq.symm]
        by_cases hnkey : keyOf n.2 = keyOf last.2
        · have hnu : n.2 = last.2 := by
            rcases hvalues n hn with hval | hmem
            · exact hval
            · exact hok n hmem hnkey
          rw [hnu]
          exact hu
        · rcases hvalues n hn with hval | hmem
          · exact absurd (congrArg keyOf hval) hnkey
          · refine hs.main n hmem ?_
            rw [List.map_append, List.mem_append, not_or]
            exact ⟨hhidden.2, fun hlast => hnkey (List.mem_singleton.mp hlast)⟩

theorem displaced_eq {ws' : List (Nat × V)} {value : V} {r : Option V} (h : c.window.Inv keyOf ws)
    (hputs : LRUCache.Puts keyOf c.window.capacity (fun _ => true) value ws ws' r) :
    c.displaced keyOf value = r := by
  rw [displaced, h.nodes_eq]
  cases hputs with
  | found v hvisit =>
    obtain ⟨n, hn, hnkey, -⟩ := (hvisit.eq_some_iff h.indexed.keys v).mp rfl
    rw [if_pos (hnkey ▸ List.mem_map_of_mem hn)]
  | pushed node hkey hroom hafter => rw [if_neg hkey, if_neg (Nat.ne_of_lt hroom)]
  | evicted node rest last hkey hfull hbefore hadmits hafter =>
    rw [if_neg hkey, if_pos hfull, hbefore, List.getLast?_concat]
    rfl
  | declined rest last hkey hfull hbefore hadmits hafter => cases hadmits

/-- **`Put`** keeps the segments, and exactly the puts that meet `PutOk` keep them current. -/
theorem Inv.put (h : c.Inv keyOf ws ms) (bits : K → UInt64) (value : V) :
    ∃ c' ws' ms', c.put keyOf bits value = some c' ∧ c'.Inv keyOf ws' ms' ∧
      ∀ ops, Serves keyOf (lastPut keyOf ops) ws ms →
        (Serves keyOf (lastPut keyOf (ops ++ [.put value])) ws' ms' ↔
          c.PutOk keyOf (.put value)) := by
  obtain ⟨w, r, ws', hw, hwinv, hwcap, hwputs⟩ := h.window.putWithDisuse h.windowPos value
  have hkeys := h.window.indexed.keys
  have hwpos : 0 < w.capacity := hwcap ▸ h.windowPos
  rw [Concurrent2LRUCache.put, hw, Option.bind_some, PutOk, displaced_eq h.window hwputs,
    h.window.nodes_eq, h.main.nodes_eq]
  cases r with
  | none =>
    refine ⟨_, ws', ms, rfl, ⟨hwinv, h.main, hwpos, h.mainPos⟩, ?_⟩
    intro ops hs
    rw [hs.put_iff hkeys hwputs]
    exact (and_iff_left (fun _ hu => by cases hu)).symm
  | some u =>
    obtain ⟨m, removed, ms', hm, hminv, hmcap, hmputs⟩ := h.main.putWithCompair h.mainPos u
      (prefers keyOf bits (c.sketch.increment (bits (keyOf value))))
    simp only [hm, Option.map_some]
    refine ⟨_, ws', ms', rfl, ⟨hwinv, hminv, hwpos, hmcap ▸ h.mainPos⟩, ?_⟩
    intro ops hs
    rw [hs.put_displaced_iff hkeys hwputs hmputs]
    have hnew : keyOf value ∉ ws.map fun n => keyOf n.2 := by
      cases hwputs with
      | evicted node rest last hkey hfull hbefore hadmits hafter => exact hkey
    constructor
    · intro hok
      refine ⟨fun n hn hnkey => absurd (hnkey ▸ List.mem_map_of_mem hn) hnew, ?_⟩
      intro v hv
      obtain rfl := Option.some.inj hv
      exact hok
    · intro hok
      exact hok.2 u rfl

theorem Inv.step (h : c.Inv keyOf ws ms) (bits : K → UInt64) {op : Op K V}
    {c' : Concurrent2LRUCache K V} (hstep : c.step keyOf bits op = some c') :
    ∃ ws' ms', c'.Inv keyOf ws' ms' := by
  cases op with
  | put value =>
    obtain ⟨c'', ws', ms', hput, hinv, -⟩ := h.put bits value
    obtain rfl := Option.some.inj (hstep.symm.trans hput)
    exact ⟨ws', ms', hinv⟩
  | get key =>
    obtain ⟨c'', r, ws', ms', hget, hinv, -⟩ := h.get bits key
    rw [Concurrent2LRUCache.step, hget] at hstep
    obtain rfl := Option.some.inj hstep
    exact ⟨ws', ms', hinv⟩
  | refresh =>
    obtain rfl := Option.some.inj hstep
    exact ⟨ws, ms, h.window, h.main, h.windowPos, h.mainPos⟩

/-- **One call** of a cache that is current leaves a current one exactly if it meets `PutOk`. -/
theorem Inv.current_step_iff (h : c.Inv keyOf ws ms) (hcur : c.Current keyOf bits ops)
    (op : Op K V) :
    (∃ t, c.step keyOf bits op = some t ∧ t.Current keyOf bits (ops ++ [op])) ↔
      c.PutOk keyOf op := by
  have hs := h.current_iff.mp hcur
  cases op with
  | put value =>
    obtain ⟨c', ws', ms', hput, hinv, hiff⟩ := h.put bits value
    rw [← hiff ops hs]
    constructor
    · rintro ⟨t, ht, hcur'⟩
      obtain rfl := Option.some.inj (ht.symm.trans hput)
      exact hinv.current_iff.mp hcur'
    · intro hs'
      exact ⟨c', hput, hinv.current_iff.mpr hs'⟩
  | get key =>
    obtain ⟨c', r, ws', ms', hget, hinv, hw, hm, -⟩ := h.get bits key
    refine iff_of_true ⟨c', ?_, hinv.current_iff.mpr ?_⟩ trivial
    · rw [Concurrent2LRUCache.step, hget]
      rfl
    · rw [lastPut_get]
      exact hs.perm hw hm
  | refresh =>
    have hinv : Inv keyOf { c with sketch := c.sketch.reset } ws ms :=
      ⟨h.window, h.main, h.windowPos, h.mainPos⟩
    refine iff_of_true ⟨_, rfl, hinv.current_iff.mpr ?_⟩ trivial
    rw [lastPut_refresh]
    exact hs

/-- In a run from a new cache every `Get` is current, in every state on the way, exactly if every
put of the run meets `PutOk`. -/
theorem Inv.run_current_iff (h : c.Inv keyOf [] []) (bits : K → UInt64) (ops : List (Op K V)) :
    (∀ p, p <+: ops → ∃ d, run (Concurrent2LRUCache.step keyOf bits) c p = some d ∧
        d.Current keyOf bits p) ↔
      StepsOk (Concurrent2LRUCache.step keyOf bits) (PutOk keyOf) c ops := by
  have hempty : Serves keyOf (lastPut keyOf ([] : List (Op K V))) [] [] :=
    ⟨fun n hn => absurd hn List.not_mem_nil, fun n hn => absurd hn List.not_mem_nil⟩
  refine forall_prefix_exists_iff (A := fun p c => Current keyOf bits p c)
    (I := fun _ c => ∃ ws ms, Inv keyOf c ws ms) ⟨[], [], h⟩ (h.current_iff.mpr hempty) ?_ ?_
  · rintro p c op c' ⟨ws, ms, hinv⟩ hstep
    exact hinv.step bits hstep
  · rintro p c op ⟨ws, ms, hinv⟩ hcur
    exact hinv.current_step_iff hcur op

/-- **When no superseded value is served.**  There is a cache, and in its run of puts, gets and
refreshes every `Get` would return nothing or the value of the latest put, in every state on the
way, exactly if the constructor makes one and every put of the run meets `PutOk`. -/
theorem current_iff_putOk (keyOf : V → K) (bits : K → UInt64) (capacity ratio : Nat)
    (seeds : List UInt64) (ops : List (Op K V)) :
    (∃ c, init K V capacity ratio seeds = some c ∧
        ∀ p, p <+: ops → ∃ d, run (step keyOf bits) c p = some d ∧ d.Current keyOf bits p) ↔
      ∃ c, init K V capacity ratio seeds = some c ∧
        StepsOk (step keyOf bits) (PutOk keyOf) c ops :=
  exists_congr fun _ => and_congr_right fun hinit => (inv_init hinit keyOf).run_current_iff bits ops

/-- The second put of key 1 leaves the first value in the window, and `Get` returns it. -/
theorem superseded_value_served :
    ∃ c d, init Nat (Nat × Nat) 4 1 [3, 5] = some c ∧
      run (step Prod.fst UInt64.ofNat) c [.put (1, 10), .put (1, 20)] = some d ∧
      (d.get UInt64.ofNat 1).map Prod.snd = some (some (1, 10)) ∧
        lastPut Prod.fst [.put (1, 10), .put (1, 20)] 1 = some (1, 20) ∧
          ¬d.Current Prod.fst UInt64.ofNat [.put (1, 10), .put (1, 20)] := by
  refine ⟨_, _, rfl, rfl, rfl, rfl, ?_⟩
  intro hcur
  exact absurd (hcur 1 _ (1, 10) rfl) (by decide)

end

end Concurrent2LRUCache

end Mokv.Cache
