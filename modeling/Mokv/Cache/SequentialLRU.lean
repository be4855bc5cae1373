import Mokv.Bytes
import Mokv.Lib.NodeIndex
import Mokv.Lib.Run
import Mokv.Cache.NodeList

/-!
# The LRU cache of one thread

`ConcurrentLRUCache` (`mokv/cache/concurrent_cache.hpp`) down to the links of its list, as
one thread sees it: every call runs to its end before the next begins.  A call has no result
if it would read through a null pointer or touch a node that was deleted.

`Inv keyOf c seq`: the links, the size and the map of `c` all describe the nodes `seq`.
`visit_spec` and `insert_spec` say what the two halves of a put do to `seq`;
`wellFormed_run` is the result for all runs.
-/

namespace Mokv.Cache

open Lib

/-- `ConcurrentLRUCache`. -/
structure LRUCache (K V : Type) [DecidableEq K] where
  capacity : Nat
  shouldPromoteNum : Nat
  map : NodeMap K
  list : NodeList V

namespace LRUCache

variable {K V : Type} [DecidableEq K]

/-- A cache that was just constructed. -/
def init (K V : Type) [DecidableEq K] (capacity shouldPromoteNum : Nat) : LRUCache K V :=
  ⟨capacity, shouldPromoteNum, ∅, NodeList.empty V⟩

/-- `ShouldPromote`: `promotions.fetch_add(1) >= should_promote_num_`. -/
def shouldPromote (c : LRUCache K V) (node : Nat) : LRUCache K V × Bool :=
  let n := c.list.promotions node
  ({ c with list := c.list.setPromotions node (addSize n 1) }, c.shouldPromoteNum ≤ n)

/-- `PromoteNoLock`. -/
def promoteNoLock (c : LRUCache K V) (node : Nat) : LRUCache K V :=
  { c with list := ((c.list.extract node).insertFront node).setPromotions node 0 }

/-- `Promote`. -/
def promote (c : LRUCache K V) (node : Nat) : LRUCache K V :=
  if (c.shouldPromote node).2 then (c.shouldPromote node).1.promoteNoLock node
  else (c.shouldPromote node).1

/-- `map_.visit` with `Promote`, and the value of the node that was found. -/
def visit (c : LRUCache K V) (key : K) : Option (LRUCache K V × Option V) :=
  match c.map.lookup key with
  | none => some (c, none)
  | some node => (c.list.value node).map fun value => (c.promote node, some value)

/-- `list_.PopBack()` and `map_.erase` of the key of its value. -/
def popBack (keyOf : V → K) (c : LRUCache K V) : Option (LRUCache K V × V) :=
  match c.list.popBack with
  | (_, none) => none
  | (list, some node) =>
    (list.value node).map fun value =>
      ({ c with list := list.delete node, map := c.map.erase (keyOf value) }, value)

/-- `if (list_.size() == capacity_)`: the last node goes, and its value is handed out. -/
def makeRoom (keyOf : V → K) (c : LRUCache K V) : Option (LRUCache K V × Option V) :=
  if c.list.size = c.capacity then (c.popBack keyOf).map fun r => (r.1, some r.2)
  else some (c, none)

/-- `list_.PushFront(value)` and `map_.emplace`. -/
def pushFront (keyOf : V → K) (c : LRUCache K V) (value : V) : LRUCache K V :=
  { c with
    list := c.list.pushFront value
    map := c.map.emplace (keyOf value) c.list.fresh }

/-- What a put does to a key that it did not find. -/
def insert (keyOf : V → K) (c : LRUCache K V) (value : V) : Option (LRUCache K V × Option V) :=
  (c.makeRoom keyOf).map fun r => (r.1.pushFront keyOf value, r.2)

/-- `Put(const&)`. -/
def put (keyOf : V → K) (c : LRUCache K V) (value : V) : Option (LRUCache K V) :=
  (c.visit (keyOf value)).bind fun r =>
    if r.2.isSome then some r.1 else (r.1.insert keyOf value).map Prod.fst

/-- `PutWithDisuse`, and the value it returns. -/
def putWithDisuse (keyOf : V → K) (c : LRUCache K V) (value : V) :
    Option (LRUCache K V × Option V) :=
  (c.visit (keyOf value)).bind fun r =>
    if r.2.isSome then some (r.1, none) else r.1.insert keyOf value

/-- `PutWithCompair`: a full cache takes the value only if `compair` says so of its last one. -/
def putWithCompair (keyOf : V → K) (c : LRUCache K V) (value : V) (compair : V → V → Bool) :
    Option (LRUCache K V) :=
  (c.visit (keyOf value)).bind fun r =>
    if r.2.isSome then some r.1
    else if r.1.list.size = r.1.capacity then
      (r.1.list.value (r.1.list.pre 0)).bind fun last =>
        if compair last value then (r.1.insert keyOf value).map Prod.fst else some r.1
    else (r.1.insert keyOf value).map Prod.fst

/-- `Put(&&)`: the key for the map is read from the node after the push. -/
def putMove (keyOf : V → K) (c : LRUCache K V) (value : V) : Option (LRUCache K V) :=
  (c.visit (keyOf value)).bind fun r =>
    if r.2.isSome then some r.1
    else (r.1.makeRoom keyOf).bind fun r =>
      let node := r.1.list.fresh
      let list := r.1.list.pushFront value
      (list.value node).map fun value =>
        { r.1 with list := list, map := r.1.map.emplace (keyOf value) node }

/-- `Get`. -/
def get (c : LRUCache K V) (key : K) : Option (LRUCache K V × Option V) := c.visit key

/-- `Peek`. -/
def peek (c : LRUCache K V) (key : K) : Option (Option V) :=
  match c.map.lookup key with
  | none => some none
  | some node => (c.list.value node).map some

/-- The calls. -/
inductive Op (K V : Type) where
  | put (value : V)
  | putMove (value : V)
  | putWithDisuse (value : V)
  | putWithCompair (value : V) (compair : V → V → Bool)
  | get (key : K)
  | peek (key : K)

/-- A call and what it returns. -/
def step (keyOf : V → K) (c : LRUCache K V) : Op K V → Option (LRUCache K V × Option V)
  | .put value => (c.put keyOf value).map fun c => (c, none)
  | .putMove value => (c.putMove keyOf value).map fun c => (c, none)
  | .putWithDisuse value => c.putWithDisuse keyOf value
  | .putWithCompair value compair => (c.putWithCompair keyOf value compair).map fun c => (c, none)
  | .get key => c.get key
  | .peek key => (c.peek key).map fun r => (c, r)

/-- A call without its result. -/
def next (keyOf : V → K) (c : LRUCache K V) (op : Op K V) : Option (LRUCache K V) :=
  (c.step keyOf op).map Prod.fst

/-- The nodes from `begin()` to `end()`. -/
def nodes (c : LRUCache K V) : List (Nat × V) :=
  ((follow (toward c.list.nxt 0) (c.list.size + 1) 0).getD []).filterMap fun p =>
    (c.list.value p).map fun value => (p, value)

/-- The map, the links and the size describe the same nodes, at most `capacity` of them: each
key maps to the one node with that key, and every node is mapped. -/
structure WellFormed (keyOf : V → K) (c : LRUCache K V) : Prop where
  forward : c.list.forward (c.list.size + 1) = some (c.nodes.map Prod.snd)
  backward : c.list.backward (c.list.size + 1) = some (c.nodes.map Prod.snd).reverse
  size : c.list.size = c.nodes.length
  ptrs : (c.nodes.map Prod.fst).Nodup
  keys : (c.nodes.map fun n => keyOf n.2).Nodup
  mapped : ∀ k p, c.map.lookup k = some p ↔ ∃ v, (p, v) ∈ c.nodes ∧ keyOf v = k
  covers : (c.map.entries.map Sigma.snd).Perm (c.nodes.map Prod.fst)
  limit : c.nodes.length ≤ c.capacity

/-- What a visit of `key` does to the nodes, and the value that it finds. -/
inductive Visits (keyOf : V → K) (key : K) (before after : List (Nat × V)) : Option V → Prop
  | found (s₁ s₂ : List (Nat × V)) (n : Nat × V) (hbefore : before = s₁ ++ n :: s₂)
      (hkey : keyOf n.2 = key) (hafter : after = before ∨ after = n :: (s₁ ++ s₂)) :
      Visits keyOf key before after (some n.2)
  | missed (hkey : key ∉ before.map fun n => keyOf n.2) (hafter : after = before) :
      Visits keyOf key before after none

/-- What a put of `value` does to the nodes of a cache that holds `capacity` of them at most,
and the value that it removes.  `admits` is asked of the value at the back. -/
inductive Puts (keyOf : V → K) (capacity : Nat) (admits : V → Bool) (value : V)
    (before after : List (Nat × V)) : Option V → Prop
  | found (v : V) (hvisit : Visits keyOf (keyOf value) before after (some v)) :
      Puts keyOf capacity admits value before after none
  | pushed (node : Nat) (hkey : keyOf value ∉ before.map fun n => keyOf n.2)
      (hroom : before.length < capacity) (hafter : after = (node, value) :: before) :
      Puts keyOf capacity admits value before after none
  | evicted (node : Nat) (rest : List (Nat × V)) (last : Nat × V)
      (hkey : keyOf value ∉ before.map fun n => keyOf n.2) (hfull : before.length = capacity)
      (hbefore : before = rest ++ [last]) (hadmits : admits last.2 = true)
      (hafter : after = (node, value) :: rest) :
      Puts keyOf capacity admits value before after (some last.2)
  | declined (rest : List (Nat × V)) (last : Nat × V)
      (hkey : keyOf value ∉ before.map fun n => keyOf n.2) (hfull : before.length = capacity)
      (hbefore : before = rest ++ [last]) (hadmits : admits last.2 = false)
      (hafter : after = before) :
      Puts keyOf capacity admits value before after none

/-- What a call does to the nodes, and what it returns. -/
def Effect (keyOf : V → K) (c : LRUCache K V) (op : Op K V) (c' : LRUCache K V) (r : Option V) :
    Prop :=
  match op with
  | .put value | .putMove value =>
    r = none ∧ ∃ removed, Puts keyOf c.capacity (fun _ => true) value c.nodes c'.nodes removed
  | .putWithDisuse value => Puts keyOf c.capacity (fun _ => true) value c.nodes c'.nodes r
  | .putWithCompair value compair =>
    r = none ∧ ∃ removed,
      Puts keyOf c.capacity (fun last => compair last value) value c.nodes c'.nodes removed
  | .get key => Visits keyOf key c.nodes c'.nodes r
  | .peek key => c' = c ∧ Visits keyOf key c.nodes c.nodes r

/-! ### What the effects say of the values -/

section

omit [DecidableEq K]

variable {keyOf : V → K} {key : K} {before after : List (Nat × V)} {r : Option V}

theorem Visits.perm (h : Visits keyOf key before after r) : after.Perm before := by
  cases h with
  | found s₁ s₂ n hbefore hkey hafter =>
    rcases hafter with rfl | rfl
    · exact List.Perm.refl _
    · rw [hbefore]
      exact List.perm_middle.symm
  | missed hkey hafter => rw [hafter]

/-- **A visit finds the value of its key.** -/
theorem Visits.eq_some_iff (h : Visits keyOf key before after r)
    (hkeys : (before.map fun n => keyOf n.2).Nodup) (v : V) :
    r = some v ↔ ∃ n ∈ before, keyOf n.2 = key ∧ n.2 = v := by
  cases h with
  | found s₁ s₂ n hbefore hkey hafter =>
    have hn : n ∈ before := hbefore ▸ List.mem_append_right _ List.mem_cons_self
    constructor
    · intro heq
      exact ⟨n, hn, hkey, Option.some.inj heq⟩
    · rintro ⟨m, hm, hmkey, rfl⟩
      rw [List.inj_on_of_nodup_map hkeys hn hm (hkey.trans hmkey.symm)]
  | missed hkey hafter =>
    refine iff_of_false (fun heq => by cases heq) ?_
    rintro ⟨m, hm, rfl, -⟩
    exact hkey (List.mem_map_of_mem hm)

/-- **A put keeps nothing but its value and what was there**, and what was there under its key. -/
theorem Puts.values {capacity : Nat} {admits : V → Bool} {value : V}
    (h : Puts keyOf capacity admits value before after r) :
    (∀ n ∈ after, n.2 = value ∨ n ∈ before) ∧
      ∀ n ∈ before, keyOf n.2 = keyOf value → n ∈ after := by
  have habsent : keyOf value ∉ before.map (fun n => keyOf n.2) →
      ∀ n ∈ before, keyOf n.2 = keyOf value → n ∈ after :=
    fun hkey n hn hsame => absurd (hsame ▸ List.mem_map_of_mem hn) hkey
  cases h with
  | found v hvisit =>
    exact ⟨fun n hn => .inr (hvisit.perm.mem_iff.mp hn), fun n hn _ => hvisit.perm.mem_iff.mpr hn⟩
  | pushed node hkey hroom hafter =>
    refine ⟨?_, habsent hkey⟩
    intro n hn
    rw [hafter] at hn
    rcases List.mem_cons.mp hn with rfl | hn
    · exact .inl rfl
    · exact .inr hn
  | evicted node rest last hkey hfull hbefore hadmits hafter =>
    refine ⟨?_, habsent hkey⟩
    intro n hn
    rw [hafter] at hn
    rcases List.mem_cons.mp hn with rfl | hn
    · exact .inl rfl
    · exact .inr (hbefore ▸ List.mem_append_left _ hn)
  | declined rest last hkey hfull hbefore hadmits hafter =>
    exact ⟨fun n hn => .inr (hafter ▸ hn), habsent hkey⟩

end

/-! ### The invariant -/

/-- The links, the size and the map of `c` describe the nodes `seq`. -/
structure Inv (keyOf : V → K) (c : LRUCache K V) (seq : List (Nat × V)) : Prop where
  linked : c.list.Linked seq
  size : c.list.size = seq.length
  indexed : Indexed keyOf seq c.map []
  limit : seq.length ≤ c.capacity

theorem inv_init (keyOf : V → K) (capacity shouldPromoteNum : Nat) :
    (init K V capacity shouldPromoteNum).Inv keyOf [] :=
  ⟨NodeList.linked_empty, rfl, Indexed.empty keyOf, Nat.zero_le _⟩

section

variable {keyOf : V → K} {c : LRUCache K V} {seq : List (Nat × V)}

theorem Inv.nodes_eq (h : c.Inv keyOf seq) : c.nodes = seq := by
  have hlen : (seq.map Prod.fst).length < c.list.size + 1 := by
    rw [List.length_map, h.size]
    exact Nat.lt_succ_self _
  rw [nodes, (h.linked.ring.follow_eq hlen).1, Option.getD_some, List.filterMap_map]
  have hself : ∀ n ∈ seq, ((c.list.value n.1).map fun value => (n.1, value)) = some n := by
    intro n hn
    rw [h.linked.values n hn]
    rfl
  exact (List.filterMap_congr hself).trans List.filterMap_some

theorem Inv.wellFormed (h : c.Inv keyOf seq) : c.WellFormed keyOf := by
  have hn := h.nodes_eq
  have hlt : seq.length < c.list.size + 1 := h.size ▸ Nat.lt_succ_self _
  refine ⟨?_, ?_, ?_, ?_, ?_, ?_, ?_, ?_⟩
  · rw [hn]
    exact h.linked.forward_eq hlt
  · rw [hn]
    exact h.linked.backward_eq hlt
  · rw [hn]
    exact h.size
  · rw [hn]
    exact h.indexed.ptrs
  · rw [hn]
    exact h.indexed.keys
  · intro k p
    rw [hn, h.indexed.mapped]
    exact and_iff_right List.not_mem_nil
  · rw [hn]
    exact h.indexed.entries_perm
  · rw [hn]
    exact h.limit

/-- **A promotion moves its node to the front or leaves it**, and changes no map and no size. -/
theorem Inv.promote {s₁ s₂ : List (Nat × V)} {n : Nat × V} (h : c.Inv keyOf (s₁ ++ n :: s₂)) :
    ∃ after, (c.promote n.1).Inv keyOf after ∧
      (after = s₁ ++ n :: s₂ ∨ after = n :: (s₁ ++ s₂)) ∧
        (c.promote n.1).capacity = c.capacity := by
  rw [LRUCache.promote]
  split
  · refine ⟨n :: (s₁ ++ s₂), ⟨?_, ?_, ?_, ?_⟩, .inr rfl, rfl⟩
    · exact ((h.linked.setPromotions _ _).moveToFront).setPromotions _ _
    · refine h.size.trans ?_
      simp only [List.length_append, List.length_cons]
      omega
    · exact h.indexed.perm List.perm_middle (List.Perm.refl _)
    · refine le_of_eq_of_le ?_ h.limit
      simp only [List.length_append, List.length_cons]
      omega
  · exact ⟨_, ⟨h.linked.setPromotions _ _, h.size, h.indexed, h.limit⟩, .inl rfl, rfl⟩

/-- **A visit** finds the value of its key and promotes its node. -/
theorem Inv.visit (h : c.Inv keyOf seq) (key : K) :
    ∃ c' r after, c.visit key = some (c', r) ∧ c'.Inv keyOf after ∧
      c'.capacity = c.capacity ∧ Visits keyOf key seq after r := by
  rw [LRUCache.visit]
  cases hl : c.map.lookup key with
  | none => exact ⟨c, none, seq, rfl, h, rfl, .missed (h.indexed.not_mem_keys hl) rfl⟩
  | some node =>
    obtain ⟨v, hv, hk⟩ := h.indexed.mem_of_lookup hl
    obtain ⟨s₁, s₂, rfl⟩ := List.append_of_mem hv
    obtain ⟨after, hinv, hafter, hcap⟩ := h.promote
    refine ⟨c.promote node, some v, after, ?_, hinv, hcap, .found s₁ s₂ (node, v) rfl hk hafter⟩
    simp only [h.linked.values _ hv, Option.map_some]

theorem Inv.peek (h : c.Inv keyOf seq) (key : K) :
    ∃ r, c.peek key = some r ∧ Visits keyOf key seq seq r := by
  rw [LRUCache.peek]
  cases hl : c.map.lookup key with
  | none => exact ⟨none, rfl, .missed (h.indexed.not_mem_keys hl) rfl⟩
  | some node =>
    obtain ⟨v, hv, hk⟩ := h.indexed.mem_of_lookup hl
    obtain ⟨s₁, s₂, hs⟩ := List.append_of_mem hv
    refine ⟨some v, ?_, .found s₁ s₂ (node, v) hs hk (.inl rfl)⟩
    simp only [h.linked.values _ hv, Option.map_some]

/-- **`PopBack` and `map_.erase`** take the last node out of the list and of the map. -/
theorem Inv.popBack {rest : List (Nat × V)} {last : Nat × V} (h : c.Inv keyOf (rest ++ [last])) :
    ∃ c', c.popBack keyOf = some (c', last.2) ∧ c'.Inv keyOf rest ∧
      c'.capacity = c.capacity ∧ c'.list.fresh = c.list.fresh := by
  have hsize : c.list.size = rest.length + 1 := h.size.trans (by simp)
  obtain ⟨l', hpop, hlinked, hsize', hfresh, hvalue, -⟩ := h.linked.popBack hsize
  have hv : l'.value last.1 = some last.2 := by
    rw [hvalue]
    exact h.linked.values last (List.mem_append_right _ List.mem_cons_self)
  have hindexed : Indexed keyOf (last :: rest) c.map [] :=
    h.indexed.perm (List.perm_append_singleton _ _) (List.Perm.refl _)
  have hnot : last.1 ∉ rest.map Prod.fst := (List.nodup_cons.mp hindexed.ptrs).1
  refine ⟨{ c with list := l'.delete last.1, map := c.map.erase (keyOf last.2) }, ?_, ?_, rfl,
    hfresh⟩
  · rw [LRUCache.popBack, hpop]
    simp only [hv, Option.map_some]
  · refine ⟨hlinked.delete hnot, hsize', hindexed.remove List.not_mem_nil, ?_⟩
    have hlimit := h.limit
    rw [List.length_append] at hlimit
    exact Nat.le_of_succ_le hlimit

/-- **`PushFront` and `map_.emplace`** of a new key. -/
theorem Inv.pushFront (h : c.Inv keyOf seq) {value : V}
    (hkey : keyOf value ∉ seq.map fun n => keyOf n.2) (hroom : seq.length < c.capacity) :
    (c.pushFront keyOf value).Inv keyOf ((c.list.fresh, value) :: seq) := by
  have hfresh : c.list.fresh ∉ seq.map Prod.fst := fun hmem =>
    h.linked.fresh_notMem (List.mem_cons_of_mem _ hmem)
  refine ⟨h.linked.pushFront value, congrArg (· + 1) h.size, ?_, hroom⟩
  exact (h.indexed.push hfresh hkey).link List.mem_cons_self

/-- **Insertion of a new key** into a cache that has room, and into a full one. -/
theorem Inv.insert (h : c.Inv keyOf seq) (hcap : 0 < c.capacity) {value : V}
    (hkey : keyOf value ∉ seq.map fun n => keyOf n.2) :
    ∃ c' removed after, c.insert keyOf value = some (c', removed) ∧ c'.Inv keyOf after ∧
      c'.capacity = c.capacity ∧
        (seq.length < c.capacity ∧ removed = none ∧ after = (c.list.fresh, value) :: seq ∨
          ∃ rest last, seq = rest ++ [last] ∧ seq.length = c.capacity ∧
            removed = some last.2 ∧ after = (c.list.fresh, value) :: rest) := by
  rw [LRUCache.insert, makeRoom, h.size]
  by_cases hfull : seq.length = c.capacity
  · rw [if_pos hfull]
    rcases List.eq_nil_or_concat' seq with rfl | ⟨rest, last, rfl⟩
    · exact absurd hcap (hfull ▸ Nat.lt_irrefl _)
    · obtain ⟨c', hpop, hinv, hcap', hfresh⟩ := h.popBack
      rw [hpop, ← hfresh]
      have hkey' : keyOf value ∉ rest.map fun n => keyOf n.2 := by
        intro hmem
        rw [List.map_append] at hkey
        exact hkey (List.mem_append_left _ hmem)
      have hlen : rest.length + 1 = c'.capacity := by
        rw [hcap', ← hfull, List.length_append, List.length_singleton]
      refine ⟨_, _, _, rfl, hinv.pushFront hkey' (by omega), hcap', .inr ⟨rest, last, rfl, ?_⟩⟩
      exact ⟨hfull, rfl, rfl⟩
  · have hroom : seq.length < c.capacity := Nat.lt_of_le_of_ne h.limit hfull
    rw [if_neg hfull]
    exact ⟨_, _, _, rfl, h.pushFront hkey hroom, rfl, .inl ⟨hroom, rfl, rfl⟩⟩

theorem Inv.puts_insert (h : c.Inv keyOf seq) (hcap : 0 < c.capacity) {value : V}
    (admits : V → Bool) (hkey : keyOf value ∉ seq.map fun n => keyOf n.2)
    (hadmits : ∀ rest last, seq = rest ++ [last] → seq.length = c.capacity →
      admits last.2 = true) :
    ∃ c' removed after, c.insert keyOf value = some (c', removed) ∧ c'.Inv keyOf after ∧
      c'.capacity = c.capacity ∧ Puts keyOf c.capacity admits value seq after removed := by
  obtain ⟨c', removed, after, hins, hinv, hcap', hcase⟩ := h.insert hcap hkey
  refine ⟨c', removed, after, hins, hinv, hcap', ?_⟩
  rcases hcase with ⟨hroom, rfl, hafter⟩ | ⟨rest, last, hseq, hfull, rfl, hafter⟩
  · exact .pushed _ hkey hroom hafter
  · exact .evicted _ rest last hkey hfull hseq (hadmits rest last hseq hfull) hafter

theorem Inv.putWithDisuse (h : c.Inv keyOf seq) (hcap : 0 < c.capacity) (value : V) :
    ∃ c' r after, c.putWithDisuse keyOf value = some (c', r) ∧ c'.Inv keyOf after ∧
      c'.capacity = c.capacity ∧ Puts keyOf c.capacity (fun _ => true) value seq after r := by
  obtain ⟨c₁, r₁, after₁, hvisit, hinv₁, hcap₁, hvisits⟩ := h.visit (keyOf value)
  rw [LRUCache.putWithDisuse, hvisit, Option.bind_some]
  cases r₁ with
  | some v => exact ⟨c₁, none, after₁, rfl, hinv₁, hcap₁, .found v hvisits⟩
  | none =>
    cases hvisits with
    | missed hkey hafter =>
      subst hafter
      obtain ⟨c', r, after, hins, hinv, hcap', hputs⟩ :=
        hinv₁.puts_insert (hcap₁ ▸ hcap) (fun _ => true) hkey fun _ _ _ _ => rfl
      exact ⟨c', r, after, hins, hinv, hcap'.trans hcap₁, hcap₁ ▸ hputs⟩

theorem Inv.putWithCompair (h : c.Inv keyOf seq) (hcap : 0 < c.capacity) (value : V)
    (compair : V → V → Bool) :
    ∃ c' removed after, c.putWithCompair keyOf value compair = some c' ∧ c'.Inv keyOf after ∧
      c'.capacity = c.capacity ∧
        Puts keyOf c.capacity (fun last => compair last value) value seq after removed := by
  obtain ⟨c₁, r₁, after₁, hvisit, hinv₁, hcap₁, hvisits⟩ := h.visit (keyOf value)
  rw [LRUCache.putWithCompair, hvisit, Option.bind_some]
  cases r₁ with
  | some v => exact ⟨c₁, none, after₁, rfl, hinv₁, hcap₁, .found v hvisits⟩
  | none =>
    cases hvisits with
    | missed hkey hafter =>
      subst hafter
      simp only [Option.isSome_none, Bool.false_eq_true, if_false]
      rw [hinv₁.size]
      by_cases hfull : after₁.length = c₁.capacity
      · rw [if_pos hfull]
        rcases List.eq_nil_or_concat' after₁ with rfl | ⟨rest, last, rfl⟩
        · exact absurd hcap (hcap₁ ▸ hfull ▸ Nat.lt_irrefl _)
        · have hlast : c₁.list.value (c₁.list.pre 0) = some last.2 := by
            rw [hinv₁.linked.ring.last_eq, List.map_append]
            refine (congrArg _ (List.getLastD_concat ..)).trans ?_
            exact hinv₁.linked.values last (List.mem_append_right _ List.mem_cons_self)
          rw [hlast, Option.bind_some]
          by_cases hadmits : compair last.2 value = true
          · rw [if_pos hadmits]
            obtain ⟨c', removed, after, hins, hinv, hcap', hputs⟩ :=
              hinv₁.puts_insert (hcap₁ ▸ hcap) (fun last => compair last value) hkey (by
                intro rest' last' heq _
                obtain ⟨-, hlasts⟩ := List.append_inj' heq rfl
                rw [← List.singleton_inj.mp hlasts]
                exact hadmits)
            refine ⟨c', removed, after, ?_, hinv, hcap'.trans hcap₁, hcap₁ ▸ hputs⟩
            rw [hins]
            rfl
          · rw [if_neg hadmits]
            refine ⟨c₁, none, _, rfl, hinv₁, hcap₁, .declined rest last hkey ?_ rfl ?_ rfl⟩
            · exact hfull.trans hcap₁
            · exact Bool.eq_false_iff.mpr hadmits
      · rw [if_neg hfull]
        obtain ⟨c', removed, after, hins, hinv, hcap', hputs⟩ :=
          hinv₁.puts_insert (hcap₁ ▸ hcap) (fun last => compair last value) hkey
            fun _ _ _ hlen => absurd hlen hfull
        refine ⟨c', removed, after, ?_, hinv, hcap'.trans hcap₁, hcap₁ ▸ hputs⟩
        rw [hins]
        rfl

end

theorem put_eq (keyOf : V → K) (c : LRUCache K V) (value : V) :
    c.put keyOf value = (c.putWithDisuse keyOf value).map Prod.fst := by
  rw [put, putWithDisuse, Option.map_bind]
  refine congrArg _ (funext fun r => ?_)
  simp only [Function.comp]
  split <;> rfl

theorem putMove_eq_put (keyOf : V → K) (c : LRUCache K V) (value : V) :
    c.putMove keyOf value = c.put keyOf value := by
  rw [putMove, put]
  refine congrArg _ (funext fun r => ?_)
  split
  · rfl
  · rw [insert, Option.map_map]
    cases r.1.makeRoom keyOf with
    | none => rfl
    | some room =>
      have hvalue : (room.1.list.pushFront value).value room.1.list.fresh = some value :=
        room.1.list.alloc_value_self value
      simp only [Option.bind_some, hvalue]
      rfl

theorem Inv.put {keyOf : V → K} {c : LRUCache K V} {seq : List (Nat × V)} (h : c.Inv keyOf seq)
    (hcap : 0 < c.capacity) (value : V) :
    ∃ c' removed after, c.put keyOf value = some c' ∧ c'.Inv keyOf after ∧
      c'.capacity = c.capacity ∧
        Puts keyOf c.capacity (fun _ => true) value c.nodes c'.nodes removed := by
  obtain ⟨c', r, after, hput, hinv, hcap', hputs⟩ := h.putWithDisuse hcap value
  refine ⟨c', r, after, ?_, hinv, hcap', ?_⟩
  · rw [put_eq, hput]
    rfl
  · rw [h.nodes_eq, hinv.nodes_eq]
    exact hputs

/-- **One call**: it has a result, and keeps the invariant. -/
theorem Inv.step {keyOf : V → K} {c : LRUCache K V} {seq : List (Nat × V)} (h : c.Inv keyOf seq)
    (hcap : 0 < c.capacity) (op : Op K V) :
    ∃ c' r after, c.step keyOf op = some (c', r) ∧ c'.Inv keyOf after ∧
      c'.capacity = c.capacity ∧ Effect keyOf c op c' r := by
  cases op with
  | put value =>
    obtain ⟨c', removed, after, hput, hinv, hcap', hputs⟩ := h.put hcap value
    exact ⟨c', none, after, by rw [LRUCache.step, hput]; rfl, hinv, hcap', rfl, removed, hputs⟩
  | putMove value =>
    obtain ⟨c', removed, after, hput, hinv, hcap', hputs⟩ := h.put hcap value
    rw [← putMove_eq_put] at hput
    exact ⟨c', none, after, by rw [LRUCache.step, hput]; rfl, hinv, hcap', rfl, removed, hputs⟩
  | putWithDisuse value =>
    obtain ⟨c', r, after, hput, hinv, hcap', hputs⟩ := h.putWithDisuse hcap value
    refine ⟨c', r, after, hput, hinv, hcap', ?_⟩
    rw [Effect, h.nodes_eq, hinv.nodes_eq]
    exact hputs
  | putWithCompair value compair =>
    obtain ⟨c', removed, after, hput, hinv, hcap', hputs⟩ := h.putWithCompair hcap value compair
    refine ⟨c', none, after, by rw [LRUCache.step, hput]; rfl, hinv, hcap', rfl, removed, ?_⟩
    rw [h.nodes_eq, hinv.nodes_eq]
    exact hputs
  | get key =>
    obtain ⟨c', r, after, hvisit, hinv, hcap', hvisits⟩ := h.visit key
    refine ⟨c', r, after, hvisit, hinv, hcap', ?_⟩
    rw [Effect, h.nodes_eq, hinv.nodes_eq]
    exact hvisits
  | peek key =>
    obtain ⟨r, hpeek, hvisits⟩ := h.peek key
    refine ⟨c, r, seq, by rw [LRUCache.step, hpeek]; rfl, h, rfl, rfl, ?_⟩
    rw [h.nodes_eq]
    exact hvisits

theorem exists_run_inv (keyOf : V → K) {capacity : Nat} (hcap : 0 < capacity)
    (shouldPromoteNum : Nat) (ops : List (Op K V)) :
    ∃ c seq, run (next keyOf) (init K V capacity shouldPromoteNum) ops = some c ∧
      c.Inv keyOf seq ∧ c.capacity = capacity := by
  induction ops using List.reverseRecOn with
  | nil => exact ⟨_, [], rfl, inv_init keyOf capacity shouldPromoteNum, rfl⟩
  | append_singleton ops op ih =>
    obtain ⟨c, seq, hrun, hinv, hc⟩ := ih
    obtain ⟨c', r, after, hstep, hinv', hc', -⟩ := hinv.step (hc ▸ hcap) op
    refine ⟨c', after, run_concat.mpr ⟨c, hrun, ?_⟩, hinv', hc'.trans hc⟩
    rw [next, hstep]
    rfl

/-- The key that was read stays, and the one behind it is handed out. -/
example :
    ((run (next Prod.fst) (init Nat (Nat × Nat) 2 0) [.put (1, 10), .put (2, 20), .get 1]).bind
      fun c => c.step Prod.fst (.putWithDisuse (3, 30))).map (fun x => (x.1.nodes, x.2)) =
      some ([(3, 3, 30), (1, 1, 10)], some (2, 20)) := rfl

end LRUCache

end Mokv.Cache
