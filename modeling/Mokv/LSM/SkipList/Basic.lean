import Mokv.LSM.MemTable

/-!
# The skip list

`ConcurrentSkipList` (`mokv/lsm/skiplist.hpp`) as it lies in memory: nodes at addresses,
each with a vector of pointers, one for each of its levels.  Reading through a dangling
pointer or past the end of a vector has no result, and neither has a loop that does not
end.  All operations run under the spin lock.
-/

namespace Mokv.LSM

open Lib

/-- `Node`. -/
structure Node where
  nexts : List (Option Nat)
  key : Bytes
  value : Bytes
deriving DecidableEq

/-- `ConcurrentSkipList`, with the memory its nodes lie in.  Addresses from `fresh` on were
never given out. -/
structure SkipList where
  heap : Nat → Option Node
  fresh : Nat
  head : Nat
  size : Nat
  binarySize : Nat

namespace SkipList

/-! ### Memory -/

/-- `p->nexts[level]`. -/
def next (s : SkipList) (level p : Nat) : Option (Option Nat) :=
  (s.heap p).bind fun n => n.nexts[level]?

/-- `p->nexts[level] = q`. -/
def setNext (s : SkipList) (p level : Nat) (q : Option Nat) : Option SkipList :=
  match s.heap p with
  | none => none
  | some n =>
    if level < n.nexts.length then
      let n' := { n with nexts := n.nexts.set level q }
      some { s with heap := Function.update s.heap p (some n') }
    else none

/-- `ConcurrentSkipList::ConcurrentSkipList`. -/
def empty : SkipList := ⟨Function.update (fun _ => none) 0 (some ⟨[none], [], []⟩), 1, 0, 0, 0⟩

/-! ### Searching -/

/-- `while (p->nexts[level] && p->nexts[level]->key < key) p = p->nexts[level]`, for a bounded
number of turns. -/
def walk (s : SkipList) (key : Bytes) (level : Nat) : Nat → Nat → Option Nat
  | 0, _ => none
  | turns + 1, p =>
    match s.next level p with
    | none => none
    | some none => some p
    | some (some q) =>
      match s.heap q with
      | none => none
      | some n => if n.key < key then s.walk key level turns q else some p

/-- The loop over the levels below `level`, from the top one down: `prev_nodes` and the last
`p`. -/
def search (s : SkipList) (key : Bytes) : Nat → Nat → Option (List Nat × Nat)
  | 0, p => some ([], p)
  | level + 1, p =>
    match s.walk key level s.fresh p with
    | none => none
    | some q => (s.search key level q).map fun r => (r.1 ++ [q], r.2)

/-- `p->nexts[level]` if it is there and has the key. -/
def found (s : SkipList) (key : Bytes) (level p : Nat) : Option (Option Nat) :=
  match s.next level p with
  | none => none
  | some none => some none
  | some (some q) => (s.heap q).map fun n => if n.key = key then some q else none

/-- `Get`. -/
def get (s : SkipList) (key : Bytes) : Option (Option Bytes) := do
  let h ← s.heap s.head
  let r ← s.search key h.nexts.length s.head
  match ← s.found key 0 r.2 with
  | none => some none
  | some q => (s.heap q).map fun n => some n.value

/-! ### Writing -/

/-- `head_->nexts.resize(new_level, nullptr)` if the head is lower, and `prev_nodes` with it. -/
def growHead (s : SkipList) (h : Node) (prevNodes : List Nat) (newLevel : Nat) :
    SkipList × List Nat :=
  if newLevel > h.nexts.length then
    let h' := { h with nexts := h.nexts ++ List.replicate (newLevel - h.nexts.length) none }
    ({ s with heap := Function.update s.heap s.head (some h') },
      prevNodes ++ List.replicate (newLevel - h.nexts.length) s.head)
  else (s, prevNodes)

/-- One turn of the loop that links a new node. -/
def link (node : Nat) (prevNodes : List Nat) (s : SkipList) (level : Nat) : Option SkipList := do
  let p ← prevNodes[level]?
  let q ← s.next level p
  let s ← s.setNext node level q
  s.setNext p level (some node)

/-- `Put`, with the level that `RandLevel` returns. -/
def put (s : SkipList) (key value : Bytes) (newLevel : Nat) : Option SkipList := do
  let h ← s.heap s.head
  let r ← s.search key h.nexts.length s.head
  let p ← r.1[0]?
  match ← s.found key 0 p with
  | some q =>
    let n ← s.heap q
    some { s with
      -- `binary_size_ += value.size() - old.size()`, unsigned
      binarySize := (s.binarySize + (value.length + 2 ^ 64 - n.value.length % 2 ^ 64)) % 2 ^ 64
      heap := Function.update s.heap q (some { n with value := value }) }
  | none =>
    let (t, prevNodes) := s.growHead h r.1 newLevel
    let node := t.fresh
    let t := { t with
      heap := Function.update t.heap node (some ⟨List.replicate newLevel none, key, value⟩)
      fresh := node + 1
      size := (t.size + 1) % 2 ^ 64
      binarySize := (t.binarySize + (key.length + value.length)) % 2 ^ 64 }
    (List.range newLevel).foldlM (link node prevNodes) t

/-- One turn of the loop that unlinks a node. -/
def unlink (prevNodes : List Nat) (targets : List (Option Nat)) (s : SkipList) (level : Nat) :
    Option SkipList :=
  match targets[level]?.join with
  | none => some s
  | some q => do
    let p ← prevNodes[level]?
    let r ← s.next level q
    s.setNext p level r

/-- `new_size`, from a number of levels down. -/
def newSize (nexts : List (Option Nat)) : Nat → Nat
  | 0 => 0
  | 1 => 1
  | n + 2 => if nexts[n + 1]? = some none then newSize nexts (n + 1) else n + 2

/-- The counters without a node, and `delete node`. -/
def freeNode (s : SkipList) (q : Nat) (n : Node) : SkipList :=
  { s with
    size := (s.size + (2 ^ 64 - 1)) % 2 ^ 64
    binarySize := (s.binarySize + (2 ^ 64 - (n.key.length + n.value.length) % 2 ^ 64)) % 2 ^ 64
    heap := Function.update s.heap q none }

/-- The node goes, and with it the empty levels of the head. -/
def dropNode (s : SkipList) (q : Nat) : Option SkipList := do
  let n ← s.heap q
  let s := s.freeNode q n
  let h ← s.heap s.head
  let h' := { h with nexts := h.nexts.take (newSize h.nexts h.nexts.length) }
  some { s with heap := Function.update s.heap s.head (some h') }

/-- `Delete`.  `targets` and `prev_nodes` have room for 32 levels.  The first loop changes
nothing, so the targets are read after it. -/
def delete (s : SkipList) (key : Bytes) : Option SkipList := do
  let h ← s.heap s.head
  if h.nexts.length > 32 then none
  else
    let r ← s.search key h.nexts.length s.head
    let targets ← (List.range h.nexts.length).mapM fun level =>
      r.1[level]?.bind fun p => s.found key level p
    let s ← (List.range h.nexts.length).reverse.foldlM (unlink r.1 targets) s
    match targets[0]?.join with
    | none => some s
    | some q => s.dropNode q

end SkipList

end Mokv.LSM
