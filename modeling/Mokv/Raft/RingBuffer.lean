import Mathlib.Algebra.Group.Nat.Defs
import Mathlib.Data.List.Basic
import Mathlib.Logic.Function.Basic

/-!
# The ring buffer

`RingBufferQueue` (`mokv/utils/ring_buffer_queue.hpp`) keeps its elements at the places
`tail_ + 1 … head_` of an array.  `PushBack` refuses when the masked successor of
`head_` is `tail_`, but the places themselves are not masked.  So the queue is a plain
stack of at most `2 ^ 18 - 1` elements as long as nothing is popped from the front, and
nothing in the Raft log does that (`RingBufferQueue.Ok`).
-/

namespace Mokv.Raft

/-- `RingBufferQueue<T>`. -/
structure RingBufferQueue (α : Type) where
  data : Nat → α
  head : Nat
  tail : Nat

namespace RingBufferQueue

variable {α : Type}

/-- `ring_buffer_size_`. -/
def ringBufferSize : Nat := 2 ^ 10 * 2 ^ 8

/-- `ring_buffer_size_musk_`. -/
def ringBufferSizeMusk : Nat := ringBufferSize - 1

theorem ringBufferSize_eq : ringBufferSize = 2 ^ 18 := by decide

/-- A queue whose places hold default-constructed elements. -/
def empty (default : α) : RingBufferQueue α := ⟨fun _ => default, 0, 0⟩

/-- `PushBack`; no result when it returns `false`. -/
def pushBack (q : RingBufferQueue α) (x : α) : Option (RingBufferQueue α) :=
  if (q.head + 1) &&& ringBufferSizeMusk = q.tail then none
  else some { q with data := Function.update q.data (q.head + 1) x, head := q.head + 1 }

/-- `Truncate`: the queue and the number of elements removed. -/
def truncate (q : RingBufferQueue α) (count : Nat) : RingBufferQueue α × Nat :=
  if q.tail = q.head then (q, 0)
  else ({ q with head := q.head - min count (q.head - q.tail) }, min count (q.head - q.tail))

/-- `Size`. -/
def size (q : RingBufferQueue α) : Nat := q.head - q.tail

end RingBufferQueue

/-- `At`, counted from the front. -/
def RingBufferQueue.at {α : Type} (q : RingBufferQueue α) (index : Nat) : α :=
  q.data (q.tail + index + 1)

namespace RingBufferQueue

variable {α : Type}

/-- `RAt`, counted from the back in `size_t` arithmetic; nothing outside the array. -/
def rAt (q : RingBufferQueue α) (index : Nat) : Option α :=
  let place := (q.head + (2 ^ 64 - index)) % 2 ^ 64
  if place < ringBufferSize then some (q.data place) else none

/-- The elements in order. -/
def toList (q : RingBufferQueue α) : List α := (List.range q.size).map q.at

/-- Nothing was popped from the front, and the elements are inside the array. -/
structure Ok (q : RingBufferQueue α) : Prop where
  tail_eq : q.tail = 0
  head_lt : q.head < ringBufferSize

theorem ok_empty (default : α) : (empty default).Ok := ⟨rfl, show 0 < ringBufferSize by decide⟩

theorem Ok.size_eq {q : RingBufferQueue α} (h : q.Ok) : q.size = q.head := by
  rw [size, h.tail_eq, Nat.sub_zero]

@[simp] theorem length_toList (q : RingBufferQueue α) : q.toList.length = q.size := by
  rw [toList, List.length_map, List.length_range]

/-- `PushBack` refuses exactly when the array is used up. -/
theorem Ok.pushBack_eq {q : RingBufferQueue α} (h : q.Ok) (x : α) :
    q.pushBack x = if q.head + 1 = ringBufferSize then none
      else some { q with data := Function.update q.data (q.head + 1) x, head := q.head + 1 } := by
  have hlt := h.head_lt
  have hmask : (q.head + 1) &&& ringBufferSizeMusk = (q.head + 1) % 2 ^ 18 :=
    Nat.and_two_pow_sub_one_eq_mod (q.head + 1) 18
  have hsize := ringBufferSize_eq
  rw [pushBack, h.tail_eq, hmask]
  refine if_congr ?_ rfl rfl
  omega

theorem Ok.pushBack {q q' : RingBufferQueue α} {x : α} (h : q.Ok) (hp : q.pushBack x = some q') :
    q'.Ok ∧ q'.head = q.head + 1 ∧ q'.toList = q.toList ++ [x] := by
  rw [h.pushBack_eq] at hp
  split at hp
  · cases hp
  · rename_i hne
    obtain rfl := Option.some.inj hp
    have hlt := h.head_lt
    have hok : Ok { q with data := Function.update q.data (q.head + 1) x, head := q.head + 1 } :=
      ⟨h.tail_eq, by simp only; omega⟩
    refine ⟨hok, rfl, ?_⟩
    rw [toList, hok.size_eq, toList, h.size_eq, List.range_succ, List.map_append,
      List.map_singleton]
    congr 1
    · refine List.map_congr_left ?_
      intro i hi
      have := List.mem_range.mp hi
      have := h.tail_eq
      rw [RingBufferQueue.at, RingBufferQueue.at]
      exact Function.update_of_ne (by dsimp only; omega) _ _
    · simp only [RingBufferQueue.at, h.tail_eq, Nat.zero_add, Function.update_self]

theorem Ok.truncate {q : RingBufferQueue α} (h : q.Ok) (count : Nat) :
    (q.truncate count).1.Ok ∧ (q.truncate count).2 = min count q.head ∧
      (q.truncate count).1.head = q.head - min count q.head := by
  have hlt := h.head_lt
  have ht := h.tail_eq
  rw [RingBufferQueue.truncate]
  split
  · exact ⟨h, by dsimp only; omega, by dsimp only; omega⟩
  · exact ⟨⟨ht, by dsimp only; omega⟩, by dsimp only; omega, by dsimp only; omega⟩

theorem Ok.getElem?_toList {q : RingBufferQueue α} (h : q.Ok) {i : Nat} (hi : i < q.head) :
    q.toList[i]? = some (q.at i) := by
  rw [toList, List.getElem?_map, List.getElem?_range (by rw [h.size_eq]; exact hi), Option.map_some]

theorem Ok.rAt_eq {q : RingBufferQueue α} (h : q.Ok) {i : Nat} (hi : i < q.head) :
    q.rAt (q.head - (i + 1)) = q.toList[i]? := by
  have hlt := h.head_lt
  have hsize := ringBufferSize_eq
  have hplace : (q.head + (2 ^ 64 - (q.head - (i + 1)))) % 2 ^ 64 = i + 1 := by omega
  rw [rAt, hplace, if_pos (by omega), h.getElem?_toList hi, RingBufferQueue.at, h.tail_eq,
    Nat.zero_add]

end RingBufferQueue

end Mokv.Raft
