import Mokv.Lib.Run
import Mokv.Bytes
import Mokv.Raft.RingBuffer

/-!
# The Raft log

`RaftLog` (`mokv/raft/raft_log.hpp`) has four counters beside its queue: `index_` of the
last entry, `commited_`, `last_append_` of the apply thread, and `start_index_`, where
the log began.  They should stay in order, with as many entries queued as there are
indices after `start_index_` (`RaftLog.Ordered`); the apply thread then reads slots that
were written.

`UpdateCommit` clamps to `index_`, but `Put(entry)` takes the commit index of the entry
as it comes.  `ordered_in_every_state_iff`: the counters stay in order along a run
exactly when no accepted entry carries a commit index beyond its own position (and no
index reaches `2 ^ 64`).
-/

namespace Mokv.Raft

open Lib

/-- `Entry` of the protocol.  All numbers are `int32`. -/
structure Entry where
  term : Int
  index : Int
  key : Bytes
  value : Bytes
  mode : Int
  commited : Int
deriving DecidableEq

/-- A default-constructed entry. -/
def Entry.empty : Entry := ⟨0, 0, [], [], 0, 0⟩

/-- `RaftLog`, without the database behind it. -/
structure RaftLog where
  index : Nat
  commited : Nat
  lastAppend : Nat
  startIndex : Nat
  queue : RingBufferQueue Entry
  stop : Bool

namespace RaftLog

/-! ### The operations -/

/-- `RaftLog::RaftLog`: the index saved in the meta file, or zero. -/
def load (saved : Nat) : RaftLog :=
  ⟨saved, saved, saved, saved, RingBufferQueue.empty Entry.empty, false⟩

/-- `Put(entry)`; no result when it returns `false`. -/
def putEntry (l : RaftLog) (entry : Entry) : Option RaftLog :=
  if l.stop then none
  else
    match l.queue.pushBack entry with
    | none => none
    | some q =>
      some { l with
        queue := q
        index := (l.index + 1) % 2 ^ 64
        commited := if toSizeT entry.commited > l.commited then toSizeT entry.commited
          else l.commited }

/-- The entry that `Put(key, value, term, idx)` makes. -/
def newEntry (l : RaftLog) (key value : Bytes) (term : Int) : Entry :=
  ⟨toInt32 term, toInt32 (l.index + 1 : Nat), key, value, 0, 0⟩

/-- `Put(key, value, term, idx)`, with `idx`. -/
def put (l : RaftLog) (key value : Bytes) (term : Int) : Option (RaftLog × Nat) :=
  (l.putEntry (l.newEntry key value term)).map fun l' => (l', l'.index)

/-- `Reset`. -/
def reset (l : RaftLog) (expectIndex : Nat) : RaftLog :=
  if l.index > expectIndex then
    let r := l.queue.truncate (l.index - expectIndex)
    { l with queue := r.1, index := l.index - r.2 }
  else l

/-- `UpdateCommit`. -/
def updateCommit (l : RaftLog) (leaderCommit : Nat) : RaftLog :=
  { l with commited := max l.commited (min l.index leaderCommit) }

/-- One turn of the apply thread, with the entry it puts into the database. -/
def apply (l : RaftLog) : Option (RaftLog × Entry) :=
  if l.lastAppend < l.commited then
    some ({ l with lastAppend := l.lastAppend + 1 }, l.queue.at (l.lastAppend - l.startIndex))
  else none

/-- The entries in order. -/
def entries (l : RaftLog) : List Entry := l.queue.toList

end RaftLog

/-- `At`, in `size_t` arithmetic. -/
def RaftLog.at (l : RaftLog) (index : Nat) : Option Entry :=
  l.queue.rAt ((l.index + (2 ^ 64 - index)) % 2 ^ 64)

namespace RaftLog

/-! ### Runs -/

/-- What may be called on a log. -/
inductive Op where
  | put (key value : Bytes) (term : Int)
  | putEntry (entry : Entry)
  | updateCommit (leaderCommit : Nat)
  | reset
  | apply
deriving DecidableEq

/-- One call.  A refused put changes nothing; the apply thread sleeps when it has nothing
to do. -/
def step (l : RaftLog) : Op → Option RaftLog
  | .put key value term => some (((l.put key value term).map Prod.fst).getD l)
  | .putEntry entry => some ((l.putEntry entry).getD l)
  | .updateCommit leaderCommit => some (l.updateCommit leaderCommit)
  | .reset => some (l.reset l.commited)
  | .apply => l.apply.map Prod.fst

/-- The counters are in order and count the queue. -/
structure Ordered (l : RaftLog) : Prop where
  start_le : l.startIndex ≤ l.lastAppend
  last_le : l.lastAppend ≤ l.commited
  commited_le : l.commited ≤ l.index
  size_eq : l.index - l.startIndex = l.queue.size

instance (l : RaftLog) : Decidable l.Ordered :=
  decidable_of_iff (l.startIndex ≤ l.lastAppend ∧ l.lastAppend ≤ l.commited ∧
      l.commited ≤ l.index ∧ l.index - l.startIndex = l.queue.size)
    ⟨fun h => ⟨h.1, h.2.1, h.2.2.1, h.2.2.2⟩, fun h => ⟨h.1, h.2, h.3, h.4⟩⟩

/-- The log takes another entry. -/
def accepts (l : RaftLog) : Bool := !l.stop && l.queue.head + 1 != RingBufferQueue.ringBufferSize

/-- An accepted entry does not promise more than the log then holds. -/
def PutOk (l : RaftLog) : Op → Prop
  | .put _ _ _ => l.accepts = true → l.index + 1 < 2 ^ 64
  | .putEntry entry =>
    l.accepts = true → l.index + 1 < 2 ^ 64 ∧ toSizeT entry.commited ≤ l.index + 1
  | _ => True

/-! ### One step -/

theorem putEntry_eq {l : RaftLog} (h : l.queue.Ok) (entry : Entry) :
    (l.accepts = false ∧ l.putEntry entry = none) ∨
      (l.accepts = true ∧ ∃ q, l.queue.pushBack entry = some q ∧ q.Ok ∧ q.head = l.queue.head + 1 ∧
        q.toList = l.queue.toList ++ [entry] ∧
        l.putEntry entry = some { l with
          queue := q
          index := (l.index + 1) % 2 ^ 64
          commited := max l.commited (toSizeT entry.commited) }) := by
  rw [accepts]
  cases hs : l.stop with
  | true => exact Or.inl ⟨rfl, by rw [putEntry, hs]; rfl⟩
  | false =>
    have hpush := h.pushBack_eq entry
    by_cases hfull : l.queue.head + 1 = RingBufferQueue.ringBufferSize
    · rw [if_pos hfull] at hpush
      refine Or.inl ⟨by simp [hfull], ?_⟩
      rw [putEntry, hs, hpush]
      rfl
    · rw [if_neg hfull] at hpush
      obtain ⟨h1, h2, h3⟩ := h.pushBack hpush
      refine Or.inr ⟨by simp [hfull], _, hpush, h1, h2, h3, ?_⟩
      have hmax : (if toSizeT entry.commited > l.commited then toSizeT entry.commited
          else l.commited) = max l.commited (toSizeT entry.commited) := by
        split <;> omega
      rw [putEntry, hs, hpush]
      simp only [hmax]
      rfl

/-- **A put keeps the order exactly when the entry's commit index is within the log.** -/
theorem ordered_putEntry_iff {l : RaftLog} (h : l.queue.Ok) (ho : l.Ordered) (entry : Entry) :
    ((l.putEntry entry).getD l).queue.Ok ∧
      (((l.putEntry entry).getD l).Ordered ↔
        (l.accepts = true → l.index + 1 < 2 ^ 64 ∧ toSizeT entry.commited ≤ l.index + 1)) := by
  obtain ⟨h1, h2, h3, h4⟩ := ho
  rcases putEntry_eq h entry with ⟨ha, hp⟩ | ⟨ha, q, -, hq, hhead, -, hp⟩
  · rw [hp, ha]
    exact ⟨h, iff_of_true ⟨h1, h2, h3, h4⟩ (by simp)⟩
  · rw [hp, ha, Option.getD_some]
    refine ⟨hq, ?_⟩
    rw [h.size_eq] at h4
    constructor
    · rintro ⟨g1, g2, g3, g4⟩ -
      simp only [hq.size_eq, hhead] at g1 g2 g3 g4
      have : (l.index + 1) % 2 ^ 64 ≤ l.index + 1 := Nat.mod_le _ _
      have : (l.index + 1) % 2 ^ 64 < 2 ^ 64 := Nat.mod_lt _ (by decide)
      omega
    · intro hok
      obtain ⟨g1, g2⟩ := hok rfl
      have hmod : (l.index + 1) % 2 ^ 64 = l.index + 1 := Nat.mod_eq_of_lt g1
      refine ⟨h1, ?_, ?_, ?_⟩ <;> simp only [hmod, hq.size_eq, hhead] <;> omega

theorem toSizeT_zero : toSizeT 0 = 0 := rfl

theorem fst_put_getD (l : RaftLog) (key value : Bytes) (term : Int) :
    ((l.put key value term).map Prod.fst).getD l =
      (l.putEntry (l.newEntry key value term)).getD l := by
  rw [put]
  cases l.putEntry (l.newEntry key value term) <;> rfl

theorem ordered_step_iff {l t : RaftLog} {op : Op} (h : l.queue.Ok) (ho : l.Ordered)
    (hstep : l.step op = some t) : t.queue.Ok ∧ (t.Ordered ↔ l.PutOk op) := by
  obtain ⟨h1, h2, h3, h4⟩ := ho
  cases op with
  | put key value term =>
    obtain rfl := Option.some.inj hstep
    obtain ⟨g1, g2⟩ := ordered_putEntry_iff h ⟨h1, h2, h3, h4⟩ (l.newEntry key value term)
    rw [fst_put_getD]
    refine ⟨g1, g2.trans ?_⟩
    have hz : toSizeT (l.newEntry key value term).commited = 0 := toSizeT_zero
    rw [hz, PutOk]
    exact imp_congr_right fun _ => and_iff_left (Nat.zero_le _)
  | putEntry entry =>
    obtain rfl := Option.some.inj hstep
    exact ordered_putEntry_iff h ⟨h1, h2, h3, h4⟩ entry
  | updateCommit leaderCommit =>
    obtain rfl := Option.some.inj hstep
    refine ⟨h, iff_of_true ⟨h1, ?_, ?_, h4⟩ trivial⟩ <;> simp only [updateCommit] <;> omega
  | reset =>
    obtain rfl := Option.some.inj hstep
    rw [h.size_eq] at h4
    rw [reset]
    split
    · obtain ⟨g1, g2, g3⟩ := h.truncate (l.index - l.commited)
      refine ⟨g1, iff_of_true ⟨h1, h2, ?_, ?_⟩ trivial⟩ <;> simp only [g1.size_eq, g2, g3] <;> omega
    · exact ⟨h, iff_of_true ⟨h1, h2, h3, by rw [h.size_eq]; exact h4⟩ trivial⟩
  | apply =>
    obtain ⟨r, hr, rfl⟩ := Option.map_eq_some_iff.mp hstep
    rw [apply] at hr
    split at hr
    · obtain rfl := Option.some.inj hr
      exact ⟨h, iff_of_true ⟨by simp only; omega, by simp only; omega, h3, h4⟩ trivial⟩
    · cases hr

/-- **`At` reads the entry that lies as far before the last one as its index says.** -/
theorem at_eq_of_place {l : RaftLog} (h : l.queue.Ok) {i k : Nat} (hi : i < 2 ^ 64)
    (hk : k < l.queue.head) (hplace : (i + (l.queue.head - (k + 1))) % 2 ^ 64 = l.index) :
    l.at i = l.entries[k]? := by
  have hlt := h.head_lt
  have hsize := RingBufferQueue.ringBufferSize_eq
  have hback : (l.index + (2 ^ 64 - i)) % 2 ^ 64 = l.queue.head - (k + 1) := by omega
  rw [RaftLog.at, hback]
  exact h.rAt_eq hk

/-- Ordered states, with the queue inside its array. -/
def Inv (l : RaftLog) : Prop := l.queue.Ok ∧ l.Ordered

theorem inv_load (saved : Nat) : (load saved).Inv := by
  refine ⟨RingBufferQueue.ok_empty _, Nat.le_refl _, Nat.le_refl _, Nat.le_refl _, ?_⟩
  exact Nat.sub_self saved

theorem Inv.apply_reads {l : RaftLog} (h : l.Inv) (hlt : l.lastAppend < l.commited) :
    l.entries[l.lastAppend - l.startIndex]? = some (l.queue.at (l.lastAppend - l.startIndex)) := by
  obtain ⟨hq, h1, h2, h3, h4⟩ := h
  rw [hq.size_eq] at h4
  exact hq.getElem?_toList (by omega)

/-- **When the counters stay in order.**  All states of a run are ordered exactly when
every accepted entry carries a commit index of at most its own position and no index
reaches `2 ^ 64`; the apply thread then reads appended entries only. -/
theorem ordered_in_every_state_iff (saved : Nat) (ops : List Op) :
    ((∀ p l, p <+: ops → run step (load saved) p = some l → l.Ordered) ↔
      StepsOk step PutOk (load saved) ops) ∧
    (StepsOk step PutOk (load saved) ops → ∀ l, run step (load saved) ops = some l →
      l.lastAppend < l.commited →
        l.entries[l.lastAppend - l.startIndex]? =
          some (l.queue.at (l.lastAppend - l.startIndex))) := by
  have hinv : ∀ p l, StepsOk step PutOk (load saved) p → run step (load saved) p = some l →
      l.Inv := fun p l hok hr => run_invariant (inv_load saved) (fun l op t hl hop hstep =>
        ⟨(ordered_step_iff hl.1 hl.2 hstep).1, (ordered_step_iff hl.1 hl.2 hstep).2.mpr hop⟩) hr hok
  refine ⟨?_, fun hok l hr => (hinv ops l hok hr).apply_reads⟩
  have hstuck : ∀ (l : RaftLog) op, l.step op = none → l.PutOk op := by
    intro l op hnone
    -- only the apply thread can have nothing to do
    cases op with
    | apply => trivial
    | put key value term => cases hnone
    | putEntry entry => cases hnone
    | updateCommit leaderCommit => trivial
    | reset => trivial
  exact forall_prefix_iff_stepsOk (I := fun l : RaftLog => l.queue.Ok) (A := Ordered)
    (inv_load saved).1 (inv_load saved).2
    (fun _ _ _ hq ho _ hstep => ordered_step_iff hq ho hstep) hstuck (stepsOk_true (load saved) ops)

/-- **A lagging follower takes a commit index its log does not reach.** -/
theorem putEntry_overtakes_index :
    ∃ l, run step (load 0) [.putEntry ⟨1, 1, [1], [10], 0, 5⟩] = some l ∧ l.index = 1 ∧
      l.commited = 5 ∧ ¬ l.Ordered :=
  ⟨_, rfl, by decide, by decide, by decide⟩

/-! ### Logs that were not truncated -/

/-- A log that began empty and lost nothing: its index counts its entries. -/
structure Shape (l : RaftLog) : Prop where
  start : l.startIndex = 0
  queue : l.queue.Ok
  index_eq : l.index = l.queue.head
  commited_lt : l.commited < RingBufferQueue.ringBufferSize
  running : l.stop = false

/-- `l'` is a later state of `l`. -/
structure Grows (l l' : RaftLog) : Prop where
  shape : l'.Shape
  entries : l.entries <+: l'.entries
  commited : l.commited ≤ l'.commited

theorem shape_load : (load 0).Shape :=
  ⟨rfl, RingBufferQueue.ok_empty _, rfl, show 0 < RingBufferQueue.ringBufferSize by decide, rfl⟩

namespace Shape

variable {l : RaftLog}

theorem length_entries (h : l.Shape) : l.entries.length = l.index := by
  rw [entries, RingBufferQueue.length_toList, h.queue.size_eq, h.index_eq]

theorem index_lt (h : l.Shape) : l.index < RingBufferQueue.ringBufferSize :=
  h.index_eq ▸ h.queue.head_lt

theorem at_eq (h : l.Shape) {k : Nat} (hk : k < l.index) : l.at (k + 1) = l.entries[k]? := by
  have hlt := h.index_lt
  have hsize := RingBufferQueue.ringBufferSize_eq
  have hhead := h.index_eq
  exact at_eq_of_place h.queue (by omega) (by omega) (by omega)

theorem refl (h : l.Shape) : l.Grows l := ⟨h, List.prefix_refl _, Nat.le_refl _⟩

/-- A put appends the entry unless the array is full. -/
theorem putEntry (h : l.Shape) {entry : Entry}
    (hstamp : toSizeT entry.commited < RingBufferQueue.ringBufferSize) :
    (l.putEntry entry = none ∧ l.index + 1 = RingBufferQueue.ringBufferSize) ∨
      ∃ l', l.putEntry entry = some l' ∧ l.Grows l' ∧ l'.entries = l.entries ++ [entry] ∧
        l'.commited = max l.commited (toSizeT entry.commited) ∧ l'.lastAppend = l.lastAppend := by
  have hlt := h.index_lt
  have hcom := h.commited_lt
  have hsize := RingBufferQueue.ringBufferSize_eq
  rcases putEntry_eq h.queue entry with ⟨ha, hp⟩ | ⟨ha, q, -, hq, hhead, hlist, hp⟩
  · refine Or.inl ⟨hp, ?_⟩
    rw [accepts, h.running] at ha
    rw [h.index_eq]
    simpa using ha
  · have hmod : (l.index + 1) % 2 ^ 64 = l.index + 1 := Nat.mod_eq_of_lt (by omega)
    refine Or.inr ⟨_, hp, ⟨⟨h.start, hq, ?_, ?_, h.running⟩, ?_, ?_⟩, hlist, rfl, rfl⟩
    · simp only [hhead]
      rw [hmod, h.index_eq]
    · simp only
      omega
    · exact ⟨[entry], hlist.symm⟩
    · exact Nat.le_max_left _ _

theorem putEntry_some (h : l.Shape) {entry : Entry} {l' : RaftLog}
    (hstamp : toSizeT entry.commited < RingBufferQueue.ringBufferSize)
    (hl : l.putEntry entry = some l') :
    l.Grows l' ∧ l'.entries = l.entries ++ [entry] ∧
      l'.commited = max l.commited (toSizeT entry.commited) ∧ l'.lastAppend = l.lastAppend := by
  rcases h.putEntry hstamp with ⟨hnone, -⟩ | ⟨l'', hl'', hspec⟩
  · rw [hnone] at hl
    cases hl
  · obtain rfl := Option.some.inj (hl.symm.trans hl'')
    exact hspec

theorem updateCommit (h : l.Shape) (n : Nat) : l.Grows (l.updateCommit n) := by
  have hlt := h.index_lt
  have hcom := h.commited_lt
  refine ⟨⟨h.start, h.queue, h.index_eq, ?_, h.running⟩, List.prefix_refl _, Nat.le_max_left _ _⟩
  simp only [RaftLog.updateCommit]
  omega

theorem apply (h : l.Shape) {l' : RaftLog} {entry : Entry} (ha : l.apply = some (l', entry)) :
    l.Grows l' ∧ l'.entries = l.entries ∧ l'.commited = l.commited ∧
      l'.lastAppend = l.lastAppend + 1 ∧ l.lastAppend < l.commited ∧
      (l.lastAppend < l.index → l.entries[l.lastAppend]? = some entry) := by
  rw [RaftLog.apply] at ha
  split at ha
  · rename_i hlt
    obtain ⟨rfl, rfl⟩ := Prod.mk.injEq .. ▸ Option.some.inj ha
    refine ⟨⟨⟨h.start, h.queue, h.index_eq, h.commited_lt, h.running⟩, List.prefix_refl _,
      Nat.le_refl _⟩, rfl, rfl, rfl, hlt, ?_⟩
    intro hi
    rw [h.start, Nat.sub_zero]
    exact h.queue.getElem?_toList (h.index_eq ▸ hi)
  · cases ha

end Shape

theorem Grows.index_le {l l' : RaftLog} (h : l.Shape) (hg : l.Grows l') : l.index ≤ l'.index := by
  rw [← h.length_entries, ← hg.shape.length_entries]
  exact hg.entries.length_le

end RaftLog

end Mokv.Raft
