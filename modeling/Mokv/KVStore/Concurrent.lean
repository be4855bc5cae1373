import Mokv.Lib.Run
import Mokv.KVStore.Bookkeeping

/-!
# The key-value store under concurrent callers

`PutAsync` and `DeleteAsync` run each call on a thread of its own.  The atomic steps of a
call are the read of the previous value, the write of the database and the section under
`metadata_mutex_`; nothing keeps other calls on the same key from coming in between.

The books come out right along every run in which no step is overtaken (`NotOvertaken`):
a call writes the database while the entry still has the size it read, and its section
does not come before that of an earlier write of the other kind.  Two concurrent puts of
one key show that the code does not see to it.
-/

namespace Mokv.DBKVStore

open Lib

/-- A call of `PutAsync` or `DeleteAsync`. -/
inductive Call where
  | put (key value : Bytes)
  | delete (key : Bytes)
deriving DecidableEq

def Call.key : Call → Bytes
  | put key _ => key
  | delete key => key

/-- Where a call is. -/
inductive Phase where
  | started
  /-- The previous value is read. -/
  | read (c : Change)
  /-- The database is written. -/
  | wrote
  | finished (result : KVResult)
deriving DecidableEq

def Phase.isFinished : Phase → Bool
  | finished _ => true
  | _ => false

/-- The store and the calls.  The changes whose section is still to come stand in the order
in which they wrote the database. -/
structure Calls (n : Nat) where
  store : DBKVStore
  phase : Fin n → Phase
  written : List (Fin n × Change)

namespace Calls

variable {n : Nat}

/-- All calls are issued and none has run. -/
def start (store : DBKVStore) : Calls n := ⟨store, fun _ => .started, []⟩

/-- The call moves on. -/
def goto (s : Calls n) (i : Fin n) (p : Phase) : Calls n :=
  { s with phase := Function.update s.phase i p }

/-- The first step of a call: the checks and the read of the previous value. -/
def readPrevious (store : DBKVStore) (call : Call) : Phase :=
  match store.refusal call.key with
  | some result => .finished result
  | none =>
    match call with
    | .put key value => .read (.put key value (store.get key))
    | .delete key =>
      match store.get key with
      | none => .finished .ok
      | some previous => .read (.delete key previous)

/-- One atomic step of one call. -/
def step (cfg : DBConfig) (calls : Fin n → Call) (s : Calls n) (i : Fin n) : Option (Calls n) :=
  match s.phase i with
  | .started => some (s.goto i (readPrevious s.store (calls i)))
  | .read c => some { s.goto i .wrote with
      store := c.commit cfg s.store
      written := s.written ++ [(i, c)] }
  | .wrote => (s.written.lookup i).map fun c =>
      { s.goto i (.finished .ok) with
        store := c.note cfg s.store
        written := s.written.eraseP (·.1 == i) }
  | .finished _ => none

/-- The step is not overtaken: at the write of the database the entry has the size that was
read, and at the section no earlier write of the other kind on the same key still waits for
its own. -/
def NotOvertaken (s : Calls n) (i : Fin n) : Prop :=
  match s.phase i with
  | .read c => entrySize c.key c.before = entrySize c.key (s.store.db.get c.key)
  | .wrote =>
    match s.written.lookup i with
    | some c => ∀ d ∈ s.written.takeWhile (·.1 != i), d.2.key = c.key →
        d.2.after.isSome = c.after.isSome
    | none => True
  | _ => True

instance (s : Calls n) (i : Fin n) : Decidable (NotOvertaken s i) := by
  unfold NotOvertaken
  split
  · infer_instance
  · split <;> infer_instance
  · infer_instance

/-- No call puts the tombstone. -/
def Plain (calls : Fin n → Call) : Prop := ∀ i key, calls i ≠ .put key tombstoneValue

/-- What every step that is not overtaken carries. -/
structure Inv (s : Calls n) : Prop where
  ledger : Ledger (s.written.map Prod.snd) s.store
  nodup : (s.written.map Prod.fst).Nodup
  wrote : ∀ p ∈ s.written, s.phase p.1 = .wrote
  changes : ∀ i c, s.phase i = .read c → c.Ok

theorem inv_start {store : DBKVStore} (h : Ledger [] store) : Inv (start store : Calls n) :=
  ⟨h, List.nodup_nil, by simp [start], by simp [start]⟩

theorem ok_of_readPrevious {store : DBKVStore} (h : store.closed = false) {call : Call}
    (hcall : ∀ key, call ≠ .put key tombstoneValue) {c : Change}
    (hc : readPrevious store call = .read c) : c.Ok := by
  unfold readPrevious at hc
  rw [refusal_eq h] at hc
  cases hr : isReservedKey call.key with
  | true => simp [hr] at hc
  | false =>
    simp only [hr, Bool.false_eq_true, if_false] at hc
    cases call with
    | put key value =>
      obtain rfl := Phase.read.inj hc
      refine ⟨hr, ?_⟩
      intro he
      exact hcall key (congrArg (Call.put key) (Option.some.inj he))
    | delete key =>
      simp only at hc
      split at hc
      · cases hc
      · obtain rfl := Phase.read.inj hc
        exact ⟨hr, by simp [Change.after]⟩

section

variable {s t : Calls n} {i : Fin n}

theorem phase_goto (s : Calls n) (i j : Fin n) (p : Phase) :
    (s.goto i p).phase j = if j = i then p else s.phase j := Function.update_apply ..

theorem Inv.ne_of_phase (h : Inv s) (hi : s.phase i ≠ .wrote) {p : Fin n × Change}
    (hp : p ∈ s.written) : p.1 ≠ i := by
  rintro rfl
  exact hi (h.wrote p hp)

theorem Inv.changes_goto (h : Inv s) {p : Phase} (hp : ∀ c, p = .read c → c.Ok) :
    ∀ j c, (s.goto i p).phase j = .read c → c.Ok := by
  intro j c hj
  rw [phase_goto] at hj
  split at hj
  · exact hp c hj
  · exact h.changes j c hj

theorem Inv.wrote_goto (h : Inv s) (p : Phase) {q : Fin n × Change} (hq : q ∈ s.written)
    (hne : q.1 ≠ i) : (s.goto i p).phase q.1 = .wrote := by
  rw [phase_goto, if_neg hne]
  exact h.wrote q hq

theorem Inv.readPrevious (h : Inv s) (hp : s.phase i = .started) {call : Call}
    (hcall : ∀ key, call ≠ .put key tombstoneValue) :
    Inv (s.goto i (readPrevious s.store call)) := by
  refine ⟨h.ledger, h.nodup, ?_, h.changes_goto fun c => ok_of_readPrevious h.ledger.healthy hcall⟩
  intro q hq
  exact h.wrote_goto _ hq (h.ne_of_phase (by rw [hp]; simp) hq)

theorem Inv.commit (h : Inv s) (cfg : DBConfig) {c : Change} (hp : s.phase i = .read c)
    (hsize : entrySize c.key c.before = entrySize c.key (s.store.db.get c.key)) :
    Inv { s.goto i .wrote with
      store := c.commit cfg s.store
      written := s.written ++ [(i, c)] } := by
  have hnew : ∀ q ∈ s.written, q.1 ≠ i := fun q hq => h.ne_of_phase (by rw [hp]; simp) hq
  refine ⟨?_, ?_, ?_, h.changes_goto (by simp)⟩
  · rw [List.map_append]
    exact h.ledger.commit cfg (h.changes i c hp) hsize
  · rw [List.map_append, List.nodup_append]
    refine ⟨h.nodup, List.nodup_singleton _, ?_⟩
    intro a ha b hb
    obtain ⟨q, hq, rfl⟩ := List.mem_map.mp ha
    rw [List.mem_singleton.mp hb]
    exact hnew q hq
  · intro q hq
    rcases List.mem_append.mp hq with hq | hq
    · exact h.wrote_goto _ hq (hnew q hq)
    · rw [List.mem_singleton.mp hq]
      exact (phase_goto s i i .wrote).trans (if_pos rfl)

theorem Inv.note (h : Inv s) (cfg : DBConfig) {c : Change} (hc : s.written.lookup i = some c)
    (hkind : ∀ d ∈ s.written.takeWhile (·.1 != i), d.2.key = c.key →
      d.2.after.isSome = c.after.isSome) (result : KVResult) :
    Inv { s.goto i (.finished result) with
      store := c.note cfg s.store
      written := s.written.eraseP (·.1 == i) } := by
  obtain ⟨a, b, hsplit, ha, he⟩ := exists_split_of_lookup hc
  have htake : s.written.takeWhile (·.1 != i) = a := by
    rw [hsplit, List.takeWhile_append_of_pos (by simpa using ha)]
    simp
  have hnodup : (i :: (a ++ b).map Prod.fst).Nodup := by
    have hn := h.nodup
    rw [hsplit, List.map_append, List.map_cons, List.nodup_middle, ← List.map_append] at hn
    exact hn
  have hledger : Ledger (a.map Prod.snd ++ c :: b.map Prod.snd) s.store := by
    have hl := h.ledger
    rw [hsplit, List.map_append, List.map_cons] at hl
    exact hl
  rw [he]
  refine ⟨?_, hnodup.of_cons, ?_, h.changes_goto (by simp)⟩
  · rw [List.map_append]
    refine hledger.note cfg ?_
    intro d hd
    obtain ⟨q, hq, rfl⟩ := List.mem_map.mp hd
    exact hkind q (by rw [htake]; exact hq)
  · intro q hq
    have hne : q.1 ≠ i := by
      intro hi
      exact (List.nodup_cons.mp hnodup).1 (hi ▸ List.mem_map_of_mem hq)
    refine h.wrote_goto _ ?_ hne
    rw [hsplit]
    rcases List.mem_append.mp hq with hm | hm
    · exact List.mem_append_left _ hm
    · exact List.mem_append_right _ (List.mem_cons_of_mem _ hm)

theorem Inv.step (h : Inv s) {cfg : DBConfig} {calls : Fin n → Call} (hcalls : Plain calls)
    (hok : NotOvertaken s i) (ht : s.step cfg calls i = some t) : Inv t := by
  unfold NotOvertaken at hok
  unfold Calls.step at ht
  cases hp : s.phase i with
  | started =>
    rw [hp] at ht
    cases ht
    exact h.readPrevious hp (hcalls i)
  | read c =>
    rw [hp] at ht hok
    cases ht
    exact h.commit cfg hp hok
  | wrote =>
    rw [hp] at ht hok
    obtain ⟨c, hc, rfl⟩ := Option.map_eq_some_iff.mp ht
    rw [hc] at hok
    exact h.note cfg hc hok .ok
  | finished result =>
    rw [hp] at ht
    cases ht

end

/-- All calls have returned. -/
def Done (s : Calls n) : Prop := ∀ i, (s.phase i).isFinished

instance (s : Calls n) : Decidable (Done s) :=
  inferInstanceAs (Decidable (∀ i, (s.phase i).isFinished))

theorem Inv.written_eq_nil {s : Calls n} (h : Inv s) (hdone : Done s) : s.written = [] := by
  refine List.eq_nil_iff_forall_not_mem.mpr ?_
  intro p hp
  have hfin := hdone p.1
  rw [h.wrote p hp] at hfin
  cases hfin

/-- **Along every run without overtaking the books are right when all calls have returned.** -/
theorem concurrent_bookkeeping (cfg : DBConfig) (calls : Fin n → Call) (hcalls : Plain calls)
    {store : DBKVStore} (hstore : Ledger [] store) (schedule : List (Fin n)) {s : Calls n}
    (hrun : run (Calls.step cfg calls) (start store) schedule = some s)
    (hok : StepsOk (Calls.step cfg calls) NotOvertaken (start store) schedule) (hdone : Done s) :
    s.store.listKeys.Nodup ∧
      (∀ k, k ∈ s.store.listKeys ↔ isReservedKey k = false ∧ (s.store.get k).isSome) ∧
      s.store.bytesSize = s.store.contentSize % 2 ^ 64 ∧
      (s.store.contentSize < 2 ^ 64 → s.store.bytesSize = s.store.contentSize) := by
  have hinv : Inv s :=
    run_invariant (inv_start hstore) (fun _ _ _ hs ha ht => hs.step hcalls ha ht) hrun hok
  have hl : Ledger [] s.store := by
    have h := hinv.ledger
    rwa [hinv.written_eq_nil hdone] at h
  refine ⟨hl.nodup, hl.mem_listKeys, hl.bytesSize_eq, ?_⟩
  intro hfits
  rw [hl.bytesSize_eq, Nat.mod_eq_of_lt hfits]

/-- A put and a delete of one key. -/
def putDelete (i : Fin 2) : Call := if i.val = 0 then .put [1] [7] else .delete [1]

theorem concurrent_bookkeeping_putDelete :
    ∃ s, run (Calls.step ⟨100, payload⟩ putDelete) (start (ofDB (DB.new fun _ => none)))
        [0, 0, 0, 1, 1, 1] = some s ∧ Done s ∧
      s.store.bytesSize = s.store.contentSize % 2 ^ 64 := by
  have hok : StepsOk (Calls.step ⟨100, payload⟩ putDelete) NotOvertaken
      (start (ofDB (DB.new fun _ => none))) [0, 0, 0, 1, 1, 1] := by decide
  have hplain : Plain putDelete := by
    intro i key
    unfold putDelete
    split <;> simp [tombstoneValue]
  obtain ⟨s, hrun, hdone⟩ : ∃ s, run (Calls.step ⟨100, payload⟩ putDelete)
      (start (ofDB (DB.new fun _ => none))) [0, 0, 0, 1, 1, 1] = some s ∧ Done s :=
    ⟨_, rfl, by decide⟩
  exact ⟨s, hrun, hdone,
    (concurrent_bookkeeping _ _ hplain (ledger_new _) _ hrun hok hdone).2.2.1⟩

/-- Two puts of one key. -/
def twoPuts (_ : Fin 2) : Call := .put [1] [7]

/-- **Two concurrent puts of a new key are counted twice.**  Both read that the key is
absent, both write it, and each section adds its bytes. -/
theorem puts_counted_twice :
    ∃ s, run (Calls.step ⟨100, payload⟩ twoPuts) (start (ofDB (DB.new fun _ => none)))
        [0, 1, 0, 1, 0, 1] = some s ∧ Done s ∧ s.store.listKeys = [[1]] ∧
      s.store.contentSize = 2 ∧ s.store.bytesSize = 4 := by
  refine ⟨_, rfl, ?_, ?_, ?_, ?_⟩
  · decide
  · decide
  · decide
  · decide

end Calls

end Mokv.DBKVStore
