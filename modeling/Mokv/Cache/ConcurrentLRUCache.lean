import Mokv.Lib.NodeIndex
import Mokv.Lib.Run
import Mokv.Bytes

/-!
# The concurrent LRU cache

`ConcurrentLRUCache` (`mokv/cache/concurrent_cache.hpp`): a list of nodes, newest first, and
a map from keys to nodes.  A put looks for its key in one section under `list_mutex_` and
inserts in another; `Put(TValue&&)` fills the map after it released the lock.

`consistent_of_insertOk`: the map and the list agree as long as no put inserts a key that
is already in the list and none evicts a node that is still missing in the map.
-/

namespace Mokv.Cache

open Lib

/-- `list::Node`, with its address. -/
structure Node (V : Type) where
  ptr : Nat
  value : V
  promotions : Nat
deriving DecidableEq

/-- The overloads of `Put`. -/
inductive PutKind (V : Type) where
  /-- `Put(const&)` -/
  | put
  /-- `PutWithDisuse` -/
  | putWithDisuse
  /-- `PutWithCompair` -/
  | putWithCompair (compair : V → V → Bool)
  /-- `Put(&&)` -/
  | putMove

/-- Where a put is. -/
inductive PutCall (V : Type) where
  /-- its key was not found -/
  | checked (kind : PutKind V) (value : V)
  /-- `Put(&&)` has pushed its node and released the lock -/
  | pushed (ptr : Nat) (value : V)
  | returned

/-- The node that a put has still to enter into the map. -/
def PutCall.pending? {V : Type} : PutCall V → Option Nat
  | .pushed ptr _ => some ptr
  | _ => none

/-- The put has returned. -/
def PutCall.isReturned {V : Type} : PutCall V → Bool
  | .returned => true
  | _ => false

/-- `ConcurrentLRUCache`, with the calls of its puts.  `fresh` is the next address. -/
structure ConcurrentLRUCache (K V : Type) [DecidableEq K] where
  capacity : Nat
  shouldPromoteNum : Nat
  map : NodeMap K
  list : List (Node V)
  fresh : Nat
  calls : List (PutCall V)

namespace ConcurrentLRUCache

variable {K V : Type} [DecidableEq K]

/-- A cache that was just constructed. -/
def init (K V : Type) [DecidableEq K] (capacity shouldPromoteNum : Nat) : ConcurrentLRUCache K V :=
  ⟨capacity, shouldPromoteNum, ∅, [], 0, []⟩

/-- `Promote`.  There is no result for a node that was deleted. -/
def promote (c : ConcurrentLRUCache K V) (ptr : Nat) : Option (ConcurrentLRUCache K V) :=
  (c.list.find? fun n => n.ptr = ptr).map fun node =>
    if c.shouldPromoteNum ≤ node.promotions then
      { c with list := { node with promotions := 0 } :: c.list.eraseP fun n => n.ptr = ptr }
    else
      { c with
        list := c.list.map fun n =>
          if n.ptr = ptr then { n with promotions := (n.promotions + 1) % 2 ^ 64 } else n }

/-- `map_.visit` with `Promote`; whether the key was found. -/
def visit (c : ConcurrentLRUCache K V) (key : K) : Option (ConcurrentLRUCache K V × Bool) :=
  match c.map.lookup key with
  | none => some (c, false)
  | some ptr => (c.promote ptr).map fun c => (c, true)

/-- `list_.size() == capacity_`. -/
def isFull (c : ConcurrentLRUCache K V) : Bool := c.list.length = c.capacity

/-- The cache is full and `compair` prefers its last value. -/
def declines (c : ConcurrentLRUCache K V) (kind : PutKind V) (value : V) : Bool :=
  match kind, c.list.getLast? with
  | .putWithCompair compair, some last => c.isFull && !compair last.value value
  | _, _ => false

/-- The node that the put evicts. -/
def victim? (c : ConcurrentLRUCache K V) : Option (Node V) :=
  if c.isFull then c.list.getLast? else none

/-- `PopBack` and `map_.erase`, when the cache is full. -/
def evict (keyOf : V → K) (c : ConcurrentLRUCache K V) : ConcurrentLRUCache K V :=
  match c.victim? with
  | none => c
  | some last => { c with list := c.list.dropLast, map := c.map.erase (keyOf last.value) }

/-- `PushFront`. -/
def pushFront (c : ConcurrentLRUCache K V) (value : V) : ConcurrentLRUCache K V :=
  { c with list := ⟨c.fresh, value, 0⟩ :: c.list, fresh := c.fresh + 1 }

/-- `map_.emplace`. -/
def emplace (c : ConcurrentLRUCache K V) (key : K) (ptr : Nat) : ConcurrentLRUCache K V :=
  { c with map := c.map.emplace key ptr }

/-- Move a call. -/
def setCall (c : ConcurrentLRUCache K V) (i : Nat) (call : PutCall V) : ConcurrentLRUCache K V :=
  { c with calls := c.calls.set i call }

/-- The second section of a put. -/
def insert (keyOf : V → K) (c : ConcurrentLRUCache K V) (i : Nat) (kind : PutKind V) (value : V) :
    ConcurrentLRUCache K V :=
  if c.declines kind value then c.setCall i .returned
  else
    let c := c.evict keyOf
    let ptr := c.fresh
    match kind with
    | .putMove => (c.pushFront value).setCall i (.pushed ptr value)
    | _ => ((c.pushFront value).emplace (keyOf value) ptr).setCall i .returned

/-- The sections of the calls. -/
inductive Act (K V : Type) where
  /-- a new put looks for its key -/
  | check (kind : PutKind V) (value : V)
  /-- a put inserts -/
  | insert (i : Nat)
  /-- `Put(&&)` fills the map -/
  | emplace (i : Nat)
  | get (key : K)

/-- One section. -/
def step (keyOf : V → K) (c : ConcurrentLRUCache K V) : Act K V → Option (ConcurrentLRUCache K V)
  | .check kind value =>
    (c.visit (keyOf value)).map fun r =>
      { r.1 with calls := r.1.calls ++ [if r.2 then .returned else .checked kind value] }
  | .insert i =>
    match c.calls[i]? with
    | some (.checked kind value) =>
      -- an empty cache that is full has no node to pop
      if c.isFull && c.list.isEmpty then none else some (c.insert keyOf i kind value)
    | _ => none
  | .emplace i =>
    match c.calls[i]? with
    | some (.pushed ptr value) => some ((c.emplace (keyOf value) ptr).setCall i .returned)
    | _ => none
  | .get key => (c.visit key).map Prod.fst

/-- The addresses and values of the list. -/
def nodes (c : ConcurrentLRUCache K V) : List (Nat × V) := c.list.map fun n => (n.ptr, n.value)

/-- The nodes that are in the list and not in the map yet. -/
def pending (c : ConcurrentLRUCache K V) : List Nat := c.calls.filterMap PutCall.pending?

/-- An insertion finds no node with its key, and evicts none that is missing in the map. -/
def InsertOk (keyOf : V → K) (c : ConcurrentLRUCache K V) : Act K V → Prop
  | .insert i =>
    match c.calls[i]? with
    | some (.checked kind value) =>
      c.declines kind value = true ∨
        (keyOf value ∉ (c.evict keyOf).list.map fun n => keyOf n.value) ∧
          ∀ n ∈ c.victim?, n.ptr ∉ c.pending
    | _ => True
  | _ => True

instance (keyOf : V → K) (c : ConcurrentLRUCache K V) :
    (a : Act K V) → Decidable (c.InsertOk keyOf a)
  | .insert i =>
    match hi : c.calls[i]? with
    | some (.checked kind value) =>
      decidable_of_iff
        (c.declines kind value = true ∨
          (keyOf value ∉ (c.evict keyOf).list.map fun n => keyOf n.value) ∧
            ∀ n ∈ c.victim?, n.ptr ∉ c.pending)
        (by simp only [InsertOk, hi])
    | some (.pushed _ _) => isTrue (by simp only [InsertOk, hi])
    | some .returned => isTrue (by simp only [InsertOk, hi])
    | none => isTrue (by simp only [InsertOk, hi])
  | .check _ _ => isTrue trivial
  | .emplace _ => isTrue trivial
  | .get _ => isTrue trivial

/-- The map does not refer to a node that was popped. -/
def NoDangling (keyOf : V → K) (c : ConcurrentLRUCache K V) : Prop :=
  ∀ k p, c.map.lookup k = some p → ∃ n ∈ c.list, n.ptr = p ∧ keyOf n.value = k

/-- The map and the list are in bijection: each key maps to the one node that holds it, and each
node is mapped. -/
structure Bijective (keyOf : V → K) (c : ConcurrentLRUCache K V) : Prop where
  ptrs : (c.list.map Node.ptr).Nodup
  keys : (c.list.map fun n => keyOf n.value).Nodup
  mapped : ∀ k p, c.map.lookup k = some p ↔ ∃ n ∈ c.list, n.ptr = p ∧ keyOf n.value = k

/-- All puts have returned. -/
def Quiet (c : ConcurrentLRUCache K V) : Prop := ∀ call ∈ c.calls, call.isReturned = true

instance (c : ConcurrentLRUCache K V) : Decidable c.Quiet :=
  inferInstanceAs (Decidable (∀ call ∈ c.calls, call.isReturned = true))

/-! ### The invariant -/

/-- The map and the list agree, but for the nodes on their way into the map. -/
structure Inv (keyOf : V → K) (c : ConcurrentLRUCache K V) : Prop where
  indexed : Indexed keyOf c.nodes c.map c.pending
  fresh : ∀ n ∈ c.nodes, n.1 < c.fresh
  pushed : ∀ ptr value, .pushed ptr value ∈ c.calls → (ptr, value) ∈ c.nodes

theorem inv_init (keyOf : V → K) (capacity shouldPromoteNum : Nat) :
    (init K V capacity shouldPromoteNum).Inv keyOf :=
  ⟨Indexed.empty keyOf, by simp [nodes, init], by simp [init]⟩

/-- **A promotion moves nodes and nothing else.** -/
theorem promote_spec {c c' : ConcurrentLRUCache K V} {ptr : Nat} (h : c.promote ptr = some c') :
    c.nodes.Perm c'.nodes ∧ c'.map = c.map ∧ c'.calls = c.calls ∧ c'.fresh = c.fresh := by
  obtain ⟨node, hfind, rfl⟩ := Option.map_eq_some_iff.mp h
  split
  · refine ⟨?_, rfl, rfl, rfl⟩
    obtain ⟨hptr, l₁, l₂, heq, hl₁⟩ := List.find?_eq_some_iff_append.mp hfind
    have herase : (c.list.eraseP fun n => n.ptr = ptr) = l₁ ++ l₂ := by
      rw [heq, List.eraseP_append_right _ (by simpa using hl₁),
        List.eraseP_cons_of_pos (p := fun n : Node V => decide (n.ptr = ptr)) hptr]
    simp only [nodes, herase, List.map_cons]
    rw [heq]
    simp only [List.map_append, List.map_cons]
    exact List.perm_middle
  · refine ⟨?_, rfl, rfl, rfl⟩
    simp only [nodes, List.map_map]
    refine List.Perm.of_eq (List.map_congr_left ?_)
    intro n _
    simp only [Function.comp]
    split <;> rfl

theorem visit_spec {c c' : ConcurrentLRUCache K V} {key : K} {found : Bool}
    (h : c.visit key = some (c', found)) :
    c.nodes.Perm c'.nodes ∧ c'.map = c.map ∧ c'.calls = c.calls ∧ c'.fresh = c.fresh := by
  rw [visit] at h
  split at h
  · obtain ⟨rfl, -⟩ := Prod.mk.inj (Option.some.inj h)
    exact ⟨List.Perm.refl _, rfl, rfl, rfl⟩
  · obtain ⟨c'', hc, heq⟩ := Option.map_eq_some_iff.mp h
    obtain ⟨rfl, -⟩ := Prod.mk.inj heq
    exact promote_spec hc

section

variable {keyOf : V → K} {c : ConcurrentLRUCache K V}

theorem Inv.of_visit {c' : ConcurrentLRUCache K V} {key : K} {found : Bool} (h : c.Inv keyOf)
    (hv : c.visit key = some (c', found)) : c'.Inv keyOf := by
  obtain ⟨hperm, hmap, hcalls, hfresh⟩ := visit_spec hv
  refine ⟨?_, ?_, ?_⟩
  · rw [hmap, pending, hcalls]
    exact h.indexed.perm hperm (List.Perm.refl _)
  · intro n hn
    rw [hfresh]
    exact h.fresh n (hperm.mem_iff.mpr hn)
  · intro ptr value hmem
    rw [hcalls] at hmem
    exact hperm.mem_iff.mp (h.pushed ptr value hmem)

theorem Inv.newCall {call : PutCall V} (h : c.Inv keyOf) (hcall : call.pending? = none) :
    Inv keyOf { c with calls := c.calls ++ [call] } := by
  have hpending : pending { c with calls := c.calls ++ [call] } = c.pending := by
    simp [pending, hcall]
  refine ⟨?_, h.fresh, ?_⟩
  · rw [hpending]
    exact h.indexed
  · intro ptr value hmem
    rcases List.mem_append.mp hmem with hmem | hmem
    · exact h.pushed ptr value hmem
    · rw [← List.mem_singleton.mp hmem] at hcall
      cases hcall

theorem pending_setCall {i : Nat} {old : PutCall V} (call : PutCall V)
    (hi : c.calls[i]? = some old) :
    (old.pending?.toList ++ (c.setCall i call).pending).Perm
      (call.pending?.toList ++ c.pending) := by
  obtain ⟨hlt, hget⟩ := List.getElem?_eq_some_iff.mp hi
  have hold : c.calls = c.calls.take i ++ old :: c.calls.drop (i + 1) := by
    rw [← hget, List.getElem_cons_drop, List.take_append_drop]
  have hnew : c.calls.set i call = c.calls.take i ++ call :: c.calls.drop (i + 1) := by
    rw [List.set_eq_take_append_cons_drop, if_pos hlt]
  have hcons : ∀ (x : PutCall V) (l : List (PutCall V)),
      (x :: l).filterMap PutCall.pending? = x.pending?.toList ++ l.filterMap PutCall.pending? := by
    intro x l
    cases hx : x.pending? with
    | none => simp [hx]
    | some p => simp [hx]
  have hswap : ∀ x y A B : List Nat, (x ++ (A ++ (y ++ B))).Perm (y ++ (A ++ (x ++ B))) := by
    intro x y A B
    have hx : (x ++ (A ++ (y ++ B))).Perm (A ++ (x ++ (y ++ B))) :=
      List.perm_append_comm_assoc _ _ _
    have hxy : (A ++ (x ++ (y ++ B))).Perm (A ++ (y ++ (x ++ B))) :=
      (List.perm_append_comm_assoc _ _ _).append_left A
    exact (hx.trans hxy).trans (List.perm_append_comm_assoc _ _ _)
  rw [pending, setCall]
  simp only
  rw [hnew, pending]
  conv_rhs => rw [hold]
  simp only [List.filterMap_append, hcons]
  exact hswap _ _ _ _

/-- **Eviction takes a node and its key away.** -/
theorem Inv.evict (h : c.Inv keyOf) (hvictim : ∀ n ∈ c.victim?, n.ptr ∉ c.pending) :
    (c.evict keyOf).Inv keyOf := by
  rw [ConcurrentLRUCache.evict]
  split
  · exact h
  · rename_i last hlast
    have hget : c.list.getLast? = some last := by
      rw [victim?] at hlast
      split at hlast
      · exact hlast
      · cases hlast
    have hnot : last.ptr ∉ c.pending := hvictim last hlast
    have hlist : c.list = c.list.dropLast ++ [last] := by
      rw [List.dropLast_append_getLast?]
      exact hget
    have hperm : c.nodes.Perm
        ((last.ptr, last.value) :: c.list.dropLast.map fun n => (n.ptr, n.value)) := by
      rw [nodes, hlist, List.dropLast_concat, List.map_append]
      exact List.perm_append_singleton _ _
    refine ⟨(h.indexed.perm hperm (List.Perm.refl _)).remove hnot, ?_, ?_⟩
    · intro n hn
      exact h.fresh n (hperm.mem_iff.mpr (List.mem_cons_of_mem _ hn))
    · intro ptr value hmem
      rcases List.mem_cons.mp (hperm.mem_iff.mp (h.pushed ptr value hmem)) with heq | hn
      · -- the call is on its way, so its node is pending
        obtain ⟨rfl, -⟩ := Prod.mk.inj heq
        have hpending : last.ptr ∈ c.pending := List.mem_filterMap.mpr ⟨_, hmem, rfl⟩
        exact absurd hpending hnot
      · exact hn

theorem Inv.leave {i : Nat} {old : PutCall V} (h : c.Inv keyOf) (hi : c.calls[i]? = some old)
    (hold : old.pending? = none) : (c.setCall i .returned).Inv keyOf := by
  have hperm := pending_setCall .returned hi
  rw [hold] at hperm
  refine ⟨h.indexed.perm (List.Perm.refl _) hperm.symm, h.fresh, ?_⟩
  intro ptr value hmem
  rcases List.mem_or_eq_of_mem_set hmem with hmem | heq
  · exact h.pushed ptr value hmem
  · cases heq

/-- **A put pushes a node with a new key.** -/
theorem Inv.push {i : Nat} {old : PutCall V} {value : V} (h : c.Inv keyOf)
    (hi : c.calls[i]? = some old) (hold : old.pending? = none)
    (hkey : keyOf value ∉ c.list.map fun n => keyOf n.value) :
    ((c.pushFront value).setCall i (.pushed c.fresh value)).Inv keyOf := by
  have hperm := pending_setCall (c := c.pushFront value) (.pushed c.fresh value) hi
  rw [hold] at hperm
  have hptr : c.fresh ∉ c.nodes.map Prod.fst := by
    intro hmem
    obtain ⟨n, hn, heq⟩ := List.mem_map.mp hmem
    exact absurd (h.fresh n hn) (by omega)
  have hkey' : keyOf value ∉ c.nodes.map fun n => keyOf n.2 := by
    rw [nodes, List.map_map]
    exact hkey
  refine ⟨(h.indexed.push hptr hkey').perm (List.Perm.refl _) hperm.symm, ?_, ?_⟩
  · intro n hn
    rcases List.mem_cons.mp hn with rfl | hn
    · exact Nat.lt_succ_self _
    · exact Nat.lt_succ_of_lt (h.fresh n hn)
  · intro ptr value' hmem
    rcases List.mem_or_eq_of_mem_set hmem with hmem | heq
    · exact List.mem_cons_of_mem _ (h.pushed ptr value' hmem)
    · obtain ⟨rfl, rfl⟩ := PutCall.pushed.inj heq
      exact List.mem_cons_self

/-- **A put enters its node into the map.** -/
theorem Inv.link {i ptr : Nat} {value : V} (h : c.Inv keyOf)
    (hi : c.calls[i]? = some (.pushed ptr value)) :
    ((c.emplace (keyOf value) ptr).setCall i .returned).Inv keyOf := by
  have hperm := pending_setCall (c := c.emplace (keyOf value) ptr) .returned hi
  have hnode : (ptr, value) ∈ c.nodes := h.pushed ptr value (List.mem_of_getElem? hi)
  refine ⟨(h.indexed.perm (List.Perm.refl _) hperm.symm).link hnode, h.fresh, ?_⟩
  intro ptr' value' hmem
  rcases List.mem_or_eq_of_mem_set hmem with hmem | heq
  · exact h.pushed ptr' value' hmem
  · cases heq

/-- **An insertion keeps the invariant.**  The puts that hold the lock until the map is filled
do what `Put(&&)` does in two sections. -/
theorem Inv.insert {i : Nat} {kind : PutKind V} {value : V} (h : c.Inv keyOf)
    (hi : c.calls[i]? = some (.checked kind value))
    (hkey : keyOf value ∉ (c.evict keyOf).list.map fun n => keyOf n.value)
    (hvictim : ∀ n ∈ c.victim?, n.ptr ∉ c.pending) : (c.insert keyOf i kind value).Inv keyOf := by
  rw [ConcurrentLRUCache.insert]
  split
  · exact h.leave hi rfl
  · have hcalls : (c.evict keyOf).calls = c.calls := by
      rw [ConcurrentLRUCache.evict]
      split <;> rfl
    have hevict := h.evict hvictim
    generalize c.evict keyOf = c₁ at hevict hkey hcalls ⊢
    rw [← hcalls] at hi
    have hpush := hevict.push hi rfl hkey
    have hlt : i < c₁.calls.length := (List.getElem?_eq_some_iff.mp hi).1
    have hlink : (((c₁.pushFront value).emplace (keyOf value) c₁.fresh).setCall i .returned).Inv
        keyOf := by
      have hi' : ((c₁.pushFront value).setCall i (.pushed c₁.fresh value)).calls[i]? =
          some (.pushed c₁.fresh value) := List.getElem?_set_self hlt
      have h' := hpush.link hi'
      rw [setCall, setCall, ConcurrentLRUCache.emplace] at h'
      simp only [List.set_set] at h'
      exact h'
    cases kind with
    | putMove => exact hpush
    | put => exact hlink
    | putWithDisuse => exact hlink
    | putWithCompair compair => exact hlink

theorem Inv.step {c' : ConcurrentLRUCache K V} {a : Act K V} (h : c.Inv keyOf)
    (hok : c.InsertOk keyOf a) (hs : c.step keyOf a = some c') : c'.Inv keyOf := by
  cases a with
  | check kind value =>
    obtain ⟨⟨c₁, found⟩, hvisit, rfl⟩ := Option.map_eq_some_iff.mp hs
    have h₁ := h.of_visit hvisit
    cases found with
    | true => exact h₁.newCall rfl
    | false => exact h₁.newCall rfl
  | get key =>
    obtain ⟨⟨c₁, found⟩, hvisit, rfl⟩ := Option.map_eq_some_iff.mp hs
    exact h.of_visit hvisit
  | insert i =>
    rw [ConcurrentLRUCache.step] at hs
    split at hs
    · rename_i kind value hi
      obtain ⟨-, heq⟩ := Option.ite_none_left_eq_some.mp hs
      obtain rfl := Option.some.inj heq
      simp only [InsertOk, hi] at hok
      rcases hok with hdeclines | ⟨hkey, hvictim⟩
      · rw [ConcurrentLRUCache.insert, if_pos hdeclines]
        exact h.leave hi rfl
      · exact h.insert hi hkey hvictim
    · cases hs
  | emplace i =>
    rw [ConcurrentLRUCache.step] at hs
    split at hs
    · rename_i ptr value hi
      obtain rfl := Option.some.inj hs
      exact h.link hi
    · cases hs

theorem exists_mem_nodes {k : K} {p : Nat} :
    (∃ v, (p, v) ∈ c.nodes ∧ keyOf v = k) ↔ ∃ n ∈ c.list, n.ptr = p ∧ keyOf n.value = k := by
  simp only [nodes, List.mem_map, Prod.mk.injEq]
  constructor
  · rintro ⟨v, ⟨n, hn, rfl, rfl⟩, hk⟩
    exact ⟨n, hn, rfl, hk⟩
  · rintro ⟨n, hn, rfl, hk⟩
    exact ⟨n.value, ⟨n, hn, rfl, rfl⟩, hk⟩

theorem Inv.noDangling (h : c.Inv keyOf) : c.NoDangling keyOf :=
  fun _ _ hl => exists_mem_nodes.mp (h.indexed.mem_of_lookup hl)

theorem Inv.bijective (h : c.Inv keyOf) (hq : c.Quiet) : c.Bijective keyOf := by
  have hpending : c.pending = [] := by
    refine List.filterMap_eq_nil_iff.mpr ?_
    intro call hmem
    cases call with
    | returned => rfl
    | checked kind value => rfl
    | pushed ptr value => cases hq _ hmem
  refine ⟨?_, ?_, ?_⟩
  · have hptrs := h.indexed.ptrs
    rw [nodes, List.map_map] at hptrs
    exact hptrs
  · have hkeys := h.indexed.keys
    rw [nodes, List.map_map] at hkeys
    exact hkeys
  · intro k p
    rw [h.indexed.mapped, hpending, exists_mem_nodes]
    simp

end

/-- The sections of two puts after one another, of a third that evicts the node of the first,
and of a get. -/
def sampleActs : List (Act Nat Nat) :=
  [.check .put 1, .insert 0, .check .putMove 2, .insert 1, .emplace 1, .check .putWithDisuse 3,
    .insert 2, .get 2]

/-- Two puts of one key that both looked for it before either inserted. -/
def duplicateActs : List (Act Nat Nat) :=
  [.check .put 7, .check .put 7, .insert 0, .insert 1]

-- `Put(&&)` enters a node into the map that another put has popped in between
example :
    ∃ c, run (step id) (init Nat Nat 1 8)
        [.check .putMove 1, .insert 0, .check .put 2, .insert 1, .emplace 0] = some c ∧
      c.map.lookup 1 = some 0 ∧ c.list.map Node.ptr = [1] :=
  ⟨_, rfl, by decide, by decide⟩

end ConcurrentLRUCache

end Mokv.Cache
