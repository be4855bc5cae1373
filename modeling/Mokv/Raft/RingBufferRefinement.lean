import Mokv.Lib.Run
import Mokv.Raft.RingBuffer

/-!
# The ring buffer and a bounded sequence

What `RingBufferQueue` (`mokv/utils/ring_buffer_queue.hpp`) is for: a sequence of at most
`2 ^ 18 - 1` elements that grows at the back and shrinks at both ends.  The code misses that in
two places.  `Back` reads the place behind the last element, and the places are not masked, so
they run out of the array once elements were popped from the front.

* `holds_run_iff`: the places hold the sequence as long as no element is written behind the
  array.
* `Holds.agrees_iff`: then all accessors but `Back` are right.
* `refines_iff`: **when a whole run refines the bounded sequence**, `Back` included.
-/

namespace Mokv.Raft

open Lib

namespace RingBufferQueue

variable {α : Type}

/-! ### The other members -/

/-- A place of the array; nothing outside of it. -/
def read (q : RingBufferQueue α) (place : Nat) : Option α :=
  if place < ringBufferSize then some (q.data place) else none

/-- `Empty`. -/
def isEmpty (q : RingBufferQueue α) : Bool := q.head = q.tail

/-- `PopFront`. -/
def popFront (q : RingBufferQueue α) : RingBufferQueue α × Bool :=
  if q.tail = q.head then (q, false) else ({ q with tail := q.tail + 1 }, true)

/-- `PopBack`. -/
def popBack (q : RingBufferQueue α) : RingBufferQueue α × Bool :=
  if q.tail = q.head then (q, false) else ({ q with head := q.head - 1 }, true)

/-- `Back`. -/
def back (q : RingBufferQueue α) : Option α := q.read (q.head + 1)

/-- `Front`. -/
def front (q : RingBufferQueue α) : Option α := q.read (q.tail + 1)

/-- `At`, with the bound of the array. -/
def at? (q : RingBufferQueue α) (index : Nat) : Option α := q.read (q.tail + index + 1)

/-- The calls that change the queue. -/
inductive Op (α : Type) where
  | pushBack (x : α)
  | popFront
  | popBack
  | truncate (count : Nat)

/-- One call.  There is no successor when it writes outside of the array. -/
def step (q : RingBufferQueue α) : Op α → Option (RingBufferQueue α)
  | .pushBack x =>
    match q.pushBack x with
    | none => some q
    | some q' => if q.head + 1 < ringBufferSize then some q' else none
  | .popFront => some q.popFront.1
  | .popBack => some q.popBack.1
  | .truncate count => some (q.truncate count).1

/-! ### The bounded sequence -/

/-- A call on a sequence of at most `capacity` elements. -/
def spec (capacity : Nat) (l : List α) : Op α → List α
  | .pushBack x => if l.length = capacity then l else l ++ [x]
  | .popFront => l.tail
  | .popBack => l.dropLast
  | .truncate count => l.take (l.length - count)

/-- The sequence after some calls. -/
def contents (ops : List (Op α)) : List α := ops.foldl (spec (ringBufferSize - 1)) []

/-- The queue shows the sequence, and every access is inside of the array. -/
structure Agrees (q : RingBufferQueue α) (l : List α) : Prop where
  refused : ∀ x, q.pushBack x = none ↔ l.length = ringBufferSize - 1
  size : q.size = l.length
  isEmpty : q.isEmpty = true ↔ l = []
  front : l ≠ [] → q.front = l.head?
  back : l ≠ [] → q.back = l.getLast?
  at? : ∀ i, i < l.length → q.at? i = l[i]?
  rAt : ∀ i, i < l.length → q.rAt i = l[l.length - 1 - i]?

/-- The queue refines the sequence in every state of a run. -/
def Refines (default : α) (ops : List (Op α)) : Prop :=
  ∀ p, p <+: ops → ∃ q, run step (empty default) p = some q ∧ q.Agrees (contents p)

/-- The place behind the last element is in the array and holds an equal element once the call is
over, unless the queue is empty then. -/
def Op.Ok (q : RingBufferQueue α) : Op α → Prop
  | .pushBack x => q.head + 2 < ringBufferSize ∧ q.data (q.head + 2) = x
  | .popFront => True
  | .popBack => q.size ≤ 1 ∨ q.data q.head = q.data (q.head - 1)
  | .truncate count => q.size ≤ count ∨ q.data (q.head - count + 1) = q.data (q.head - count)

/-! ### The places -/

/-- The places of the queue are in the array and hold the sequence. -/
structure Holds (q : RingBufferQueue α) (l : List α) : Prop where
  tail_le : q.tail ≤ q.head
  head_lt : q.head < ringBufferSize
  eq : q.toList = l

section

variable {q q' : RingBufferQueue α} {l : List α} {op : Op α}

theorem exists_eq_some_and {P : RingBufferQueue α → Prop} :
    (∃ q', some q = some q' ∧ P q') ↔ P q := by
  simp

theorem getElem?_toList (q : RingBufferQueue α) (i : Nat) :
    q.toList[i]? = if i < q.head - q.tail then some (q.data (q.tail + i + 1)) else none := by
  rw [toList, List.getElem?_map, size]
  split
  · rename_i hi
    rw [List.getElem?_range hi]
    rfl
  · rename_i hi
    rw [List.getElem?_eq_none (by rw [List.length_range]; omega)]
    rfl

theorem holds_empty (default : α) : (empty default).Holds [] :=
  ⟨Nat.le_refl 0, show 0 < ringBufferSize by decide, rfl⟩

theorem Holds.length_eq (h : q.Holds l) : l.length = q.head - q.tail := by
  rw [← h.eq, length_toList, size]

theorem Holds.getElem? (h : q.Holds l) {i : Nat} (hi : i < l.length) :
    l[i]? = some (q.data (q.tail + i + 1)) := by
  have hlen := h.length_eq
  rw [← h.eq, getElem?_toList, if_pos (by omega)]

/-- **`PushBack` refuses exactly when the array is full**, popped or not. -/
theorem Holds.pushBack_eq_none_iff (h : q.Holds l) (x : α) :
    q.pushBack x = none ↔ l.length = ringBufferSize - 1 := by
  have hlen := h.length_eq
  have htail := h.tail_le
  have hlt := h.head_lt
  have hmask : (q.head + 1) &&& ringBufferSizeMusk = (q.head + 1) % 2 ^ 18 :=
    Nat.and_two_pow_sub_one_eq_mod (q.head + 1) 18
  have hsize := ringBufferSize_eq
  rw [pushBack, hmask]
  split
  · simp only [true_iff]
    omega
  · simp only [reduceCtorEq, false_iff]
    omega

/-- **All accessors but `Back`** are right, and `Back` is when it finds the last element in the
place behind it. -/
theorem Holds.agrees_iff (h : q.Holds l) :
    q.Agrees l ↔
      (l ≠ [] → q.head + 1 < ringBufferSize ∧ q.data (q.head + 1) = q.data q.head) := by
  have hlen := h.length_eq
  have htail := h.tail_le
  have hlt := h.head_lt
  have hsize := ringBufferSize_eq
  have hlast : l ≠ [] → l.getLast? = some (q.data q.head) := by
    intro hne
    have hpos := List.length_pos_of_ne_nil hne
    rw [List.getLast?_eq_getElem?, h.getElem? (by omega)]
    congr 2
    omega
  constructor
  · intro hagrees hne
    have hback := (hagrees.back hne).trans (hlast hne)
    rw [back, read] at hback
    split at hback
    · rename_i hin
      exact ⟨hin, Option.some.inj hback⟩
    · cases hback
  · intro hback
    refine ⟨h.pushBack_eq_none_iff, ?_, ?_, ?_, ?_, ?_, ?_⟩
    · rw [← h.eq, length_toList]
    · rw [isEmpty, decide_eq_true_iff, ← List.length_eq_zero_iff]
      omega
    · intro hne
      have hpos := List.length_pos_of_ne_nil hne
      rw [List.head?_eq_getElem?, h.getElem? hpos, front, read, if_pos (by omega), Nat.add_zero]
    · intro hne
      obtain ⟨hin, heq⟩ := hback hne
      rw [back, read, if_pos hin, hlast hne, heq]
    · intro i hi
      rw [at?, read, if_pos (by omega), h.getElem? hi]
    · intro i hi
      have hplace : (q.head + (2 ^ 64 - i)) % 2 ^ 64 = q.head - i := by omega
      rw [rAt, hplace, if_pos (by omega), h.getElem? (by omega)]
      congr 2
      omega

theorem Agrees.back_eq_rAt (h : q.Agrees l) (hne : l ≠ []) : q.back = q.rAt 0 := by
  have hpos := List.length_pos_of_ne_nil hne
  rw [h.back hne, h.rAt 0 hpos, Nat.sub_zero, List.getLast?_eq_getElem?]

/-! ### One call -/

theorem Holds.pushBack (h : q.Holds l) (x : α) (hin : q.head + 1 < ringBufferSize) :
    Holds { q with data := Function.update q.data (q.head + 1) x, head := q.head + 1 }
      (l ++ [x]) := by
  have hlen := h.length_eq
  have htail := h.tail_le
  refine ⟨by dsimp only; omega, hin, ?_⟩
  refine List.ext_getElem? ?_
  intro i
  rw [getElem?_toList]
  dsimp only
  rcases Nat.lt_trichotomy i l.length with hi | rfl | hi
  · rw [if_pos (by omega), List.getElem?_append_left hi, h.getElem? hi,
      Function.update_of_ne (by omega)]
  · rw [if_pos (by omega), List.getElem?_append_right (Nat.le_refl _), Nat.sub_self,
      show q.tail + l.length + 1 = q.head + 1 by omega, Function.update_self]
    rfl
  · rw [if_neg (by omega), List.getElem?_eq_none (by simp; omega)]

theorem Holds.popFront (h : q.Holds l) : q.popFront.1.Holds l.tail := by
  have hlen := h.length_eq
  have htail := h.tail_le
  rw [RingBufferQueue.popFront]
  split
  · have hnil : l = [] := List.length_eq_zero_iff.mp (by omega)
    subst hnil
    exact h
  · refine ⟨by dsimp only; omega, h.head_lt, ?_⟩
    refine List.ext_getElem? ?_
    intro i
    rw [getElem?_toList, List.getElem?_tail]
    dsimp only
    split
    · rw [h.getElem? (by omega), show q.tail + (i + 1) + 1 = q.tail + 1 + i + 1 by omega]
    · rw [List.getElem?_eq_none (by omega)]

theorem Holds.take (h : q.Holds l) (count : Nat) :
    Holds { q with head := q.head - min count (q.head - q.tail) } (l.take (l.length - count)) := by
  have hlen := h.length_eq
  have htail := h.tail_le
  have hlt := h.head_lt
  refine ⟨by dsimp only; omega, by dsimp only; omega, ?_⟩
  refine List.ext_getElem? ?_
  intro i
  rw [getElem?_toList, List.getElem?_take]
  dsimp only
  by_cases hi : i < l.length - count
  · rw [if_pos (by omega), if_pos hi, h.getElem? (by omega)]
  · rw [if_neg (by omega), if_neg hi]

theorem truncate_eq (q : RingBufferQueue α) (count : Nat) :
    (q.truncate count).1 = { q with head := q.head - min count (q.head - q.tail) } := by
  rw [truncate]
  split
  · rename_i heq
    rw [show q.head - min count (q.head - q.tail) = q.head by omega]
  · rfl

theorem popBack_eq (h : q.tail ≤ q.head) : q.popBack.1 = (q.truncate 1).1 := by
  rw [truncate_eq, popBack]
  split
  · rename_i heq
    rw [show q.head - min 1 (q.head - q.tail) = q.head by omega]
  · rw [show min 1 (q.head - q.tail) = 1 by omega]

theorem Holds.truncate (h : q.Holds l) (count : Nat) :
    (q.truncate count).1.Holds (l.take (l.length - count)) := by
  rw [truncate_eq]
  exact h.take count

theorem Holds.popBack (h : q.Holds l) : q.popBack.1.Holds l.dropLast := by
  rw [popBack_eq h.tail_le, List.dropLast_eq_take]
  exact h.truncate 1

theorem Holds.step_pushBack (h : q.Holds l) (x : α) :
    q.step (.pushBack x) =
      if l.length = ringBufferSize - 1 then some q
      else if q.head + 1 < ringBufferSize then
        some { q with data := Function.update q.data (q.head + 1) x, head := q.head + 1 }
      else none := by
  have hiff := h.pushBack_eq_none_iff x
  rw [step]
  by_cases hfull : l.length = ringBufferSize - 1
  · rw [if_pos hfull, hiff.mpr hfull]
  · rw [if_neg hfull]
    have hne : ¬ (q.head + 1) &&& ringBufferSizeMusk = q.tail := by
      intro heq
      refine hfull (hiff.mp ?_)
      rw [RingBufferQueue.pushBack, if_pos heq]
    rw [RingBufferQueue.pushBack, if_neg hne]

/-- **A call follows the sequence** unless it writes behind the array. -/
theorem Holds.step_iff (h : q.Holds l) (op : Op α) :
    (∃ q', q.step op = some q' ∧ q'.Holds (spec (ringBufferSize - 1) l op)) ↔
      ∀ x, op = .pushBack x → q.head + 1 < ringBufferSize ∨ q.tail = 0 := by
  have hlen := h.length_eq
  have hlt := h.head_lt
  have htail := h.tail_le
  cases op with
  | pushBack x =>
    rw [h.step_pushBack, spec]
    by_cases hfull : l.length = ringBufferSize - 1
    · rw [if_pos hfull, if_pos hfull]
      refine iff_of_true ⟨q, rfl, h⟩ ?_
      intro _ _
      omega
    · rw [if_neg hfull, if_neg hfull]
      by_cases hin : q.head + 1 < ringBufferSize
      · rw [if_pos hin]
        exact iff_of_true ⟨_, rfl, h.pushBack x hin⟩ fun _ _ => Or.inl hin
      · rw [if_neg hin]
        refine iff_of_false (fun ⟨q', hq', _⟩ => by cases hq') ?_
        intro hall
        rcases hall x rfl with hin' | h0
        · exact hin hin'
        · omega
  | popFront => exact iff_of_true ⟨_, rfl, h.popFront⟩ (fun x hx => by cases hx)
  | popBack => exact iff_of_true ⟨_, rfl, h.popBack⟩ (fun x hx => by cases hx)
  | truncate count => exact iff_of_true ⟨_, rfl, h.truncate count⟩ (fun x hx => by cases hx)

theorem Holds.step (h : q.Holds l) (hs : q.step op = some q') :
    q'.Holds (spec (ringBufferSize - 1) l op) := by
  have hok : ∃ q', q.step op = some q' ∧ q'.Holds (spec (ringBufferSize - 1) l op) := by
    refine (h.step_iff op).mpr ?_
    rintro x rfl
    by_contra hno
    have hlen := h.length_eq
    have htail := h.tail_le
    have hlt := h.head_lt
    have hsize := ringBufferSize_eq
    rw [h.step_pushBack, if_neg (by omega), if_neg (by omega)] at hs
    cases hs
  obtain ⟨q'', hq'', hholds⟩ := hok
  rw [hs] at hq''
  rw [Option.some.inj hq'']
  exact hholds

theorem Holds.truncate_agrees_iff (h : q.Holds l) (ha : q.Agrees l) (count : Nat) :
    (q.truncate count).1.Agrees (l.take (l.length - count)) ↔
      q.size ≤ count ∨ q.data (q.head - count + 1) = q.data (q.head - count) := by
  have hlen := h.length_eq
  have htail := h.tail_le
  have hlt := h.head_lt
  have hback := h.agrees_iff.mp ha
  rw [(h.truncate count).agrees_iff, truncate_eq, size]
  dsimp only
  by_cases hle : q.head - q.tail ≤ count
  · refine iff_of_true ?_ (Or.inl hle)
    intro hne
    rw [show l.length - count = 0 by omega] at hne
    exact absurd List.take_zero hne
  · have hne : l.take (l.length - count) ≠ [] := by
      refine List.ne_nil_of_length_pos ?_
      rw [List.length_take]
      omega
    have hin := (hback (List.ne_nil_of_length_pos (by omega))).1
    rw [show min count (q.head - q.tail) = count by omega]
    constructor
    · intro hagrees
      exact Or.inr (hagrees hne).2
    · intro heq _
      exact ⟨by omega, heq.resolve_left hle⟩

/-- **A call keeps `Back` right** when it leaves an equal element behind the last one. -/
theorem Holds.step_agrees_iff (h : q.Holds l) (ha : q.Agrees l) (op : Op α) :
    (∃ q', q.step op = some q' ∧ q'.Agrees (spec (ringBufferSize - 1) l op)) ↔ op.Ok q := by
  have hlen := h.length_eq
  have htail := h.tail_le
  have hlt := h.head_lt
  have hsize := ringBufferSize_eq
  have hback := h.agrees_iff.mp ha
  cases op with
  | pushBack x =>
    have hfull : l.length ≠ ringBufferSize - 1 := by
      intro hfull
      have hne : l ≠ [] := List.ne_nil_of_length_pos (by omega)
      have := (hback hne).1
      omega
    rw [h.step_pushBack, if_neg hfull, spec, if_neg hfull, Op.Ok]
    by_cases hin : q.head + 1 < ringBufferSize
    · have hnext := h.pushBack x hin
      rw [if_pos hin]
      constructor
      · rintro ⟨q', hq', hagrees⟩
        obtain rfl := Option.some.inj hq'
        obtain ⟨hin', heq⟩ := hnext.agrees_iff.mp hagrees (by simp)
        dsimp only at hin' heq
        rw [Function.update_self, Function.update_of_ne (by omega)] at heq
        exact ⟨hin', heq⟩
      · rintro ⟨hin', heq⟩
        refine ⟨_, rfl, hnext.agrees_iff.mpr fun _ => ⟨hin', ?_⟩⟩
        dsimp only
        rw [Function.update_self, Function.update_of_ne (by omega)]
        exact heq
    · rw [if_neg hin]
      refine iff_of_false (fun ⟨q', hq', _⟩ => by cases hq') ?_
      rintro ⟨hin', -⟩
      omega
  | popFront =>
    refine iff_of_true ⟨_, rfl, h.popFront.agrees_iff.mpr ?_⟩ trivial
    intro hne
    have hback := hback fun hnil => hne (by rw [hnil]; rfl)
    rw [RingBufferQueue.popFront]
    split <;> exact hback
  | popBack =>
    have hiff := h.truncate_agrees_iff ha 1
    rw [← popBack_eq htail, ← List.dropLast_eq_take] at hiff
    rw [Op.Ok, RingBufferQueue.step, exists_eq_some_and, spec, hiff, size]
    by_cases hle : q.head - q.tail ≤ 1
    · exact iff_of_true (Or.inl hle) (Or.inl hle)
    · rw [show q.head - 1 + 1 = q.head by omega]
  | truncate count =>
    rw [Op.Ok, RingBufferQueue.step, exists_eq_some_and, spec]
    exact h.truncate_agrees_iff ha count

end

/-! ### Runs -/

theorem contents_concat (ops : List (Op α)) (op : Op α) :
    contents (ops ++ [op]) = spec (ringBufferSize - 1) (contents ops) op := by
  rw [contents, List.foldl_append]
  rfl

/-- **The places hold the sequence in every state of a run** exactly when no element is written
behind the array. -/
theorem holds_run_iff (default : α) (ops : List (Op α)) :
    (∀ p, p <+: ops → ∃ q, run step (empty default) p = some q ∧ q.Holds (contents p)) ↔
      StepsOk step (fun q op => ∀ x, op = Op.pushBack x →
        q.head + 1 < ringBufferSize ∨ q.tail = 0) (empty default) ops := by
  refine forall_prefix_exists_iff (I := fun _ _ => True) (A := fun p q => Holds q (contents p))
    trivial (holds_empty default) (fun _ _ _ _ _ _ => trivial) ?_
  intro p q op _ h
  simp only [contents_concat]
  exact h.step_iff op

/-- **When a run refines the bounded sequence**: after every call the place behind the last element
is in the array and holds an equal element, or the queue is empty. -/
theorem refines_iff (default : α) (ops : List (Op α)) :
    Refines default ops ↔ StepsOk step (fun q op => op.Ok q) (empty default) ops := by
  have h0 := holds_empty default
  refine forall_prefix_exists_iff (I := fun p q => Holds q (contents p))
    (A := fun p q => Agrees q (contents p)) h0
    (h0.agrees_iff.mpr fun hne => absurd rfl hne) ?_ ?_
  · intro p q op q' h hs
    rw [contents_concat]
    exact h.step hs
  · intro p q op h ha
    simp only [contents_concat]
    exact h.step_agrees_iff ha op

/-- **`Back` of one element** is the default value in the place behind it. -/
theorem back_of_one_element : ¬ Refines 0 [Op.pushBack 7] := by
  intro h
  obtain ⟨q, hq, hagrees⟩ := h _ (List.prefix_refl _)
  obtain rfl := Option.some.inj hq
  exact absurd (hagrees.back (by decide)) (by decide)

end RingBufferQueue

end Mokv.Raft
