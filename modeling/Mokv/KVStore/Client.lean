import Mokv.KVStore.Bookkeeping

/-!
# Clients of the key-value store

The stores of the LLM layer are written against the `KVStore` interface.  A client is a
program over the operations of that interface (`Prog`), and what the interface promises is
a map with key-sorted listings (`KVMap`).  `Batch` and `BatchDelete` are loops of `Put` and
`Delete` that stop at the first failure, so a program is a sequence of atomic operations
and can be interleaved with others.

`Prog.runDB_eq_run` connects the two: on a `DBKVStore` whose books are right a program
that keeps away from the reserved keys and the tombstone gets the answers of the map.
-/

namespace Mokv

open Lib

/-! ### Programs -/

/-- A program over the operations of `KVStore`. -/
inductive Prog (α : Type) : Type where
  | pure (a : α)
  | get (key : Bytes) (next : Option Bytes → Prog α)
  | put (key value : Bytes) (next : KVResult → Prog α)
  | delete (key : Bytes) (next : KVResult → Prog α)
  | listKeysByPrefix (pre : Bytes) (next : List Bytes → Prog α)
  | listEntriesByPrefix (pre : Bytes) (next : List Entry → Prog α)

namespace Prog

variable {α β : Type}

/-- One program after the other. -/
def bind : Prog α → (α → Prog β) → Prog β
  | .pure a, f => f a
  | .get key next, f => .get key fun r => (next r).bind f
  | .put key value next, f => .put key value fun r => (next r).bind f
  | .delete key next, f => .delete key fun r => (next r).bind f
  | .listKeysByPrefix pre next, f => .listKeysByPrefix pre fun r => (next r).bind f
  | .listEntriesByPrefix pre next, f => .listEntriesByPrefix pre fun r => (next r).bind f

instance : Monad Prog where
  pure := .pure
  bind := .bind

/-- `KVStore::Batch`. -/
def batch : List Entry → Prog KVResult
  | [] => .pure .ok
  | e :: es => .put e.1 e.2 fun result => if result.success then batch es else .pure result

/-- `KVStore::BatchDelete`. -/
def batchDelete : List Bytes → Prog KVResult
  | [] => .pure .ok
  | key :: keys => .delete key fun result =>
      if result.success then batchDelete keys else .pure result

end Prog

/-! ### The map -/

/-- A map from keys to values, in the order of the keys. -/
structure KVMap where
  entries : List Entry
  sorted : SortedKeys entries

namespace KVMap

theorem sorted_empty : SortedKeys ([] : List Entry) := sortedKeys_nil

def empty : KVMap := ⟨[], sorted_empty⟩

def get (m : KVMap) (key : Bytes) : Option Bytes := m.entries.lookup key

def put (m : KVMap) (key value : Bytes) : KVMap := ⟨Lib.put key value m.entries, m.sorted.put _ _⟩

def delete (m : KVMap) (key : Bytes) : KVMap :=
  ⟨m.entries.filter fun e => e.1 ≠ key, m.sorted.filter _⟩

def listEntriesByPrefix (m : KVMap) (pre : Bytes) : List Entry :=
  m.entries.filter fun e => e.1.take pre.length = pre

def listKeysByPrefix (m : KVMap) (pre : Bytes) : List Bytes :=
  (m.listEntriesByPrefix pre).map Prod.fst

@[simp] theorem get_empty (k : Bytes) : empty.get k = none := rfl

theorem get_put (m : KVMap) (key value j : Bytes) :
    (m.put key value).get j = if j = key then some value else m.get j :=
  m.sorted.lookup_put key value j

theorem get_delete (m : KVMap) (key j : Bytes) :
    (m.delete key).get j = if j = key then none else m.get j :=
  lookup_filter_ne key m.entries j

theorem mem_entries (m : KVMap) {e : Entry} : e ∈ m.entries ↔ m.get e.1 = some e.2 :=
  m.sorted.lookup_eq_some.symm

theorem mem_listEntriesByPrefix (m : KVMap) (pre : Bytes) {e : Entry} :
    e ∈ m.listEntriesByPrefix pre ↔ m.get e.1 = some e.2 ∧ e.1.take pre.length = pre := by
  rw [listEntriesByPrefix, List.mem_filter, m.mem_entries]
  simp

theorem sorted_listEntriesByPrefix (m : KVMap) (pre : Bytes) :
    SortedKeys (m.listEntriesByPrefix pre) := m.sorted.filter _

theorem mem_listKeysByPrefix (m : KVMap) (pre : Bytes) {k : Bytes} :
    k ∈ m.listKeysByPrefix pre ↔ (m.get k).isSome ∧ k.take pre.length = pre := by
  rw [listKeysByPrefix, List.mem_map, Option.isSome_iff_exists]
  constructor
  · rintro ⟨e, he, rfl⟩
    obtain ⟨hget, hpre⟩ := (m.mem_listEntriesByPrefix pre).mp he
    exact ⟨⟨e.2, hget⟩, hpre⟩
  · rintro ⟨⟨v, hget⟩, hpre⟩
    exact ⟨(k, v), (m.mem_listEntriesByPrefix pre).mpr ⟨hget, hpre⟩, rfl⟩

end KVMap

/-! ### Runs on the map -/

namespace Prog

variable {α β : Type}

/-- A program on the map; every operation succeeds. -/
def run : Prog α → KVMap → α × KVMap
  | .pure a, m => (a, m)
  | .get key next, m => (next (m.get key)).run m
  | .put key value next, m => (next .ok).run (m.put key value)
  | .delete key next, m => (next .ok).run (m.delete key)
  | .listKeysByPrefix pre next, m => (next (m.listKeysByPrefix pre)).run m
  | .listEntriesByPrefix pre next, m => (next (m.listEntriesByPrefix pre)).run m

theorem run_bind (p : Prog α) (f : α → Prog β) (m : KVMap) :
    (p >>= f).run m = (f (p.run m).1).run (p.run m).2 := by
  show (p.bind f).run m = _
  induction p generalizing m with
  | pure a => rfl
  | get key next ih => exact ih _ m
  | put key value next ih => exact ih _ _
  | delete key next ih => exact ih _ _
  | listKeysByPrefix pre next ih => exact ih _ m
  | listEntriesByPrefix pre next ih => exact ih _ m

/-- **A batch puts its entries in order.** -/
theorem run_batch (es : List Entry) (m : KVMap) :
    (batch es).run m = (.ok, es.foldl (fun m e => m.put e.1 e.2) m) := by
  induction es generalizing m with
  | nil => rfl
  | cons e es ih => exact ih _

theorem run_batchDelete (keys : List Bytes) (m : KVMap) :
    (batchDelete keys).run m = (.ok, keys.foldl KVMap.delete m) := by
  induction keys generalizing m with
  | nil => rfl
  | cons key keys ih => exact ih _

end Prog

namespace KVMap

theorem get_foldl_delete (keys : List Bytes) (m : KVMap) (j : Bytes) :
    (keys.foldl delete m).get j = if j ∈ keys then none else m.get j := by
  induction keys generalizing m with
  | nil => simp
  | cons key keys ih =>
    rw [List.foldl_cons, ih, get_delete]
    by_cases hj : j ∈ keys
    · simp [hj]
    · by_cases hk : j = key <;> simp [hj, hk]

/-- **What a batch of different keys leaves.** -/
theorem get_foldl_put {es : List Entry} (h : (es.map Prod.fst).Nodup) (m : KVMap) (j : Bytes) :
    (es.foldl (fun m e => m.put e.1 e.2) m).get j = (es.lookup j).or (m.get j) := by
  induction es generalizing m with
  | nil => rfl
  | cons e es ih =>
    rw [List.map_cons, List.nodup_cons] at h
    rw [List.foldl_cons, ih h.2, get_put, lookup_cons]
    by_cases hj : j = e.1
    · subst hj
      have hnone : es.lookup e.1 = none := by
        refine lookup_eq_none ?_
        intro b hb he
        exact h.1 (List.mem_map.mpr ⟨b, hb, he⟩)
      rw [if_pos rfl, if_pos rfl, hnone]
      rfl
    · rw [if_neg hj, if_neg hj]

end KVMap

/-! ### Runs on a `DBKVStore` -/

namespace Prog

open DBKVStore

variable {α : Type}

/-- A program on a `DBKVStore`. -/
def runDB (cfg : DBConfig) : Prog α → DBKVStore → α × DBKVStore
  | .pure a, s => (a, s)
  | .get key next, s => (next (s.get key)).runDB cfg s
  | .put key value next, s => (next (s.put cfg key value).2).runDB cfg (s.put cfg key value).1
  | .delete key next, s => (next (s.delete cfg key).2).runDB cfg (s.delete cfg key).1
  | .listKeysByPrefix pre next, s => (next (s.listKeysByPrefix pre)).runDB cfg s
  | .listEntriesByPrefix pre next, s => (next (s.listEntriesByPrefix pre)).runDB cfg s

/-- The program uses no reserved key and stores no tombstone.  What a listing answers are
keys of clients. -/
def Allowed : Prog α → Prop
  | .pure _ => True
  | .get key next => isReservedKey key = false ∧ ∀ r, (next r).Allowed
  | .put key value next =>
    isReservedKey key = false ∧ value ≠ tombstoneValue ∧ ∀ r, (next r).Allowed
  | .delete key next => isReservedKey key = false ∧ ∀ r, (next r).Allowed
  | .listKeysByPrefix _ next =>
    ∀ keys, (∀ k ∈ keys, isReservedKey k = false) → (next keys).Allowed
  | .listEntriesByPrefix _ next => ∀ es, (next es).Allowed

theorem Allowed.bind {β : Type} {p : Prog α} {f : α → Prog β} (h : p.Allowed)
    (hf : ∀ a, (f a).Allowed) : (p >>= f).Allowed := by
  show (p.bind f).Allowed
  induction p with
  | pure a => exact hf a
  | get key next ih => exact ⟨h.1, fun r => ih r (h.2 r)⟩
  | put key value next ih => exact ⟨h.1, h.2.1, fun r => ih r (h.2.2 r)⟩
  | delete key next ih => exact ⟨h.1, fun r => ih r (h.2 r)⟩
  | listKeysByPrefix pre next ih => exact fun keys hk => ih keys (h keys hk)
  | listEntriesByPrefix pre next ih => exact fun es => ih es (h es)

theorem allowed_batch {es : List Entry}
    (h : ∀ e ∈ es, isReservedKey e.1 = false ∧ e.2 ≠ tombstoneValue) : (batch es).Allowed := by
  induction es with
  | nil => trivial
  | cons e es ih =>
    obtain ⟨hk, hv⟩ := h e List.mem_cons_self
    refine ⟨hk, hv, ?_⟩
    intro r
    show (if r.success then batch es else _).Allowed
    split
    · exact ih fun e' he' => h e' (List.mem_cons_of_mem _ he')
    · trivial

theorem allowed_batchDelete {keys : List Bytes} (h : ∀ k ∈ keys, isReservedKey k = false) :
    (batchDelete keys).Allowed := by
  induction keys with
  | nil => trivial
  | cons key keys ih =>
    refine ⟨h key List.mem_cons_self, ?_⟩
    intro r
    show (if r.success then batchDelete keys else _).Allowed
    split
    · exact ih fun k hk => h k (List.mem_cons_of_mem _ hk)
    · trivial

end Prog

namespace DBKVStore

/-- The books are right, and the map has the keys of clients. -/
structure Agrees (s : DBKVStore) (m : KVMap) : Prop where
  ledger : Ledger [] s
  get : ∀ k, m.get k = if isReservedKey k then none else s.get k

section

variable {s : DBKVStore} {m : KVMap}

theorem Agrees.get_eq (h : Agrees s m) {k : Bytes} (hk : isReservedKey k = false) :
    m.get k = s.get k := by
  rw [h.get, hk]
  rfl

theorem Agrees.change (h : Agrees s m) (cfg : DBConfig) {c : Change} (hc : c.Ok)
    (hbefore : c.before = s.db.get c.key) {m' : KVMap}
    (hm : ∀ j, m'.get j = if j = c.key then c.after else m.get j) :
    Agrees (c.note cfg (c.commit cfg s)) m' := by
  have hl := h.ledger.change cfg hc hbefore
  refine ⟨hl, ?_⟩
  intro k
  rw [hm, h.get]
  cases hk : isReservedKey k with
  | true =>
    have hne : k ≠ c.key := by
      rintro rfl
      rw [hc.key] at hk
      cases hk
    rw [if_neg hne]
    rfl
  | false =>
    rw [DBKVStore.get_eq hl.healthy, c.get_note_of_not_reserved cfg _ hk, c.get_commit cfg s hc,
      DBKVStore.get_eq h.ledger.healthy]
    rfl

theorem Agrees.put (h : Agrees s m) (cfg : DBConfig) {key value : Bytes}
    (hk : isReservedKey key = false) (hv : value ≠ tombstoneValue) :
    (s.put cfg key value).2 = .ok ∧ Agrees (s.put cfg key value).1 (m.put key value) := by
  constructor
  · rw [DBKVStore.put, refusal_eq h.ledger.healthy, hk]
    rfl
  · rw [put_eq cfg h.ledger.healthy, hk]
    exact h.change cfg (c := .put key value (s.db.get key))
      ⟨hk, fun he => hv (Option.some.inj he)⟩ rfl (m.get_put key value)

theorem Agrees.delete (h : Agrees s m) (cfg : DBConfig) {key : Bytes}
    (hk : isReservedKey key = false) :
    (s.delete cfg key).2 = .ok ∧ Agrees (s.delete cfg key).1 (m.delete key) := by
  have hdel := delete_eq cfg h.ledger.healthy key
  rw [hk] at hdel
  cases hg : s.db.get key with
  | none =>
    have hsame : (s.delete cfg key).1 = s := by rw [hdel, hg]; rfl
    constructor
    · rw [DBKVStore.delete, refusal_eq h.ledger.healthy, hk, DBKVStore.get_eq h.ledger.healthy, hg]
      rfl
    · rw [hsame]
      refine ⟨h.ledger, ?_⟩
      intro j
      rw [m.get_delete, h.get]
      by_cases hj : j = key
      · subst hj
        rw [if_pos rfl, hk]
        exact (DBKVStore.get_eq h.ledger.healthy j ▸ hg).symm
      · rw [if_neg hj]
  | some previous =>
    rw [hg] at hdel
    constructor
    · rw [DBKVStore.delete, refusal_eq h.ledger.healthy, hk, DBKVStore.get_eq h.ledger.healthy, hg]
      rfl
    · rw [hdel]
      exact h.change cfg (c := .delete key previous) ⟨hk, by simp [Change.after]⟩ hg.symm
        (m.get_delete key)

/-! The listings agree because both are sorted and have the same elements. -/

theorem Agrees.mem_listKeysByPrefix (h : Agrees s m) (pre k : Bytes) :
    k ∈ s.listKeysByPrefix pre ↔ (m.get k).isSome ∧ k.take pre.length = pre := by
  have hpre : (pre = [] ∨ k.take pre.length = pre) ↔ k.take pre.length = pre := by
    constructor
    · rintro (rfl | he)
      · rfl
      · exact he
    · exact Or.inr
  rw [DBKVStore.listKeysByPrefix, List.mem_insertionSort, List.mem_filter, decide_eq_true_iff, hpre]
  refine and_congr_left ?_
  intro _
  rw [h.get]
  refine (h.ledger.mem_listKeys k).trans ?_
  cases isReservedKey k <;> simp

theorem Agrees.pairwise_listKeysByPrefix (h : Agrees s m) (pre : Bytes) :
    (s.listKeysByPrefix pre).Pairwise (· < ·) := by
  have hle := List.pairwise_insertionSort (· ≤ ·)
    (s.knownKeys.filter fun key => pre = [] ∨ key.take pre.length = pre)
  have hne : (s.listKeysByPrefix pre).Nodup :=
    (List.perm_insertionSort (· ≤ ·) _).nodup_iff.mpr (h.ledger.nodup.filter _)
  exact (hle.and hne).imp fun hab => lt_of_le_of_ne hab.1 hab.2

theorem Agrees.listKeysByPrefix (h : Agrees s m) (pre : Bytes) :
    s.listKeysByPrefix pre = m.listKeysByPrefix pre := by
  refine (h.pairwise_listKeysByPrefix pre).eq_of_mem_iff ?_ ?_
  · exact List.pairwise_map.mpr (m.sorted_listEntriesByPrefix pre)
  · intro k
    rw [h.mem_listKeysByPrefix, m.mem_listKeysByPrefix]

theorem Agrees.listEntriesByPrefix (h : Agrees s m) (pre : Bytes) :
    s.listEntriesByPrefix pre = m.listEntriesByPrefix pre := by
  have hlist : s.listEntriesByPrefix pre =
      (s.listKeysByPrefix pre).filterMap fun k => (s.get k).map fun v => (k, v) := by
    rw [DBKVStore.listEntriesByPrefix, healthCheck, h.ledger.healthy]
    rfl
  rw [hlist]
  refine List.Pairwise.eq_of_mem_iff (r := fun a b : Entry => a.1 < b.1) ?_
    (m.sorted_listEntriesByPrefix pre) ?_
  · rw [List.pairwise_filterMap]
    refine (h.pairwise_listKeysByPrefix pre).imp ?_
    intro a b hab x hx y hy
    obtain ⟨v, -, rfl⟩ := Option.map_eq_some_iff.mp hx
    obtain ⟨w, -, rfl⟩ := Option.map_eq_some_iff.mp hy
    exact hab
  · rintro ⟨k, v⟩
    rw [List.mem_filterMap, m.mem_listEntriesByPrefix]
    constructor
    · rintro ⟨j, hj, he⟩
      obtain ⟨w, hw, hwv⟩ := Option.map_eq_some_iff.mp he
      obtain ⟨rfl, rfl⟩ := Prod.mk.inj hwv
      obtain ⟨hp, hpre⟩ := (h.mem_listKeysByPrefix pre j).mp hj
      refine ⟨?_, hpre⟩
      rw [h.get] at hp ⊢
      split at hp
      · cases hp
      · rw [if_neg ‹_›]
        exact hw
    · rintro ⟨hget, hpre⟩
      refine ⟨k, (h.mem_listKeysByPrefix pre k).mpr ⟨by rw [hget]; rfl, hpre⟩, ?_⟩
      rw [h.get] at hget
      split at hget
      · cases hget
      · rw [hget]
        rfl

end

end DBKVStore

open DBKVStore in
/-- **On a `DBKVStore` with its books in order a program gets the answers of the map.** -/
theorem Prog.runDB_eq_run {α : Type} (cfg : DBConfig) (p : Prog α) (hp : p.Allowed) {s : DBKVStore}
    {m : KVMap} (h : Agrees s m) :
    (p.runDB cfg s).1 = (p.run m).1 ∧ Agrees (p.runDB cfg s).2 (p.run m).2 := by
  induction p generalizing s m with
  | pure a => exact ⟨rfl, h⟩
  | get key next ih =>
    rw [runDB, run, h.get_eq hp.1]
    exact ih _ (hp.2 _) h
  | put key value next ih =>
    obtain ⟨hok, hput⟩ := h.put cfg hp.1 hp.2.1
    rw [runDB, run, hok]
    exact ih _ (hp.2.2 _) hput
  | delete key next ih =>
    obtain ⟨hok, hdel⟩ := h.delete cfg hp.1
    rw [runDB, run, hok]
    exact ih _ (hp.2 _) hdel
  | listKeysByPrefix pre next ih =>
    rw [runDB, run, h.listKeysByPrefix]
    refine ih _ (hp _ ?_) h
    intro k hk
    rw [← h.listKeysByPrefix] at hk
    have hpresent := ((h.mem_listKeysByPrefix pre k).mp hk).1
    rw [h.get] at hpresent
    split at hpresent
    · cases hpresent
    · simpa using ‹¬ isReservedKey k = true›
  | listEntriesByPrefix pre next ih =>
    rw [runDB, run, h.listEntriesByPrefix]
    exact ih _ (hp _) h

end Mokv
