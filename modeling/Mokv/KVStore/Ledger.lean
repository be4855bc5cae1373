import Mathlib.Algebra.BigOperators.Group.Finset.Basic
import Mathlib.Algebra.BigOperators.Ring.Finset
import Mathlib.Data.Int.ModEq
import Mokv.KVStore.Basic

/-!
# The books of the key-value store

Four pieces of state have to agree: what the database holds, the list of keys, the byte
counter and the index stored under the reserved key.  A `Put` or `Delete` that does
anything is one `Change`, made in two parts: `commit` writes the database and `note`
brings the list, the counter and the index up to date.  `Ledger pend s` says how the four
agree while the changes `pend` are committed and not yet noted: a key with such changes is
present as its last change left it, and the counter lacks exactly what they will add.

`Ledger.commit` and `Ledger.note` are the two step lemmas.  With nothing pending, the
ledger is the books of a single caller.
-/

namespace Mokv

open Lib Codec

namespace DBKVStore

/-- The bytes of an entry; an absent one has none. -/
def entrySize (key : Bytes) : Option Bytes → Nat
  | some value => key.length + value.length
  | none => 0

/-- A `Put` or `Delete` on its way, with the previous value it has read. -/
inductive Change where
  | put (key value : Bytes) (previous : Option Bytes)
  | delete (key previous : Bytes)
deriving DecidableEq

namespace Change

def key : Change → Bytes
  | put key _ _ => key
  | delete key _ => key

/-- What the caller read. -/
def before : Change → Option Bytes
  | put _ _ previous => previous
  | delete _ previous => some previous

/-- What it leaves. -/
def after : Change → Option Bytes
  | put _ value _ => some value
  | delete _ _ => none

/-- What is written into the database. -/
def stored : Change → Bytes
  | put _ value _ => value
  | delete _ _ => tombstoneValue

/-- The write of the database. -/
def commit (cfg : DBConfig) (s : DBKVStore) (c : Change) : DBKVStore :=
  { s with db := s.db.put cfg c.key c.stored }

/-- The section under `metadata_mutex_`. -/
def note (cfg : DBConfig) (s : DBKVStore) : Change → DBKVStore
  | put key value previous => s.notePut cfg key value previous
  | delete key previous => s.noteDelete cfg key previous

/-- What `note` adds to the byte counter. -/
def gain (c : Change) : Int := (entrySize c.key c.after : Int) - entrySize c.key c.before

/-- The key is a client's, and the value is not the mark of a deletion. -/
structure Ok (c : Change) : Prop where
  key : isReservedKey c.key = false
  value : c.after ≠ some tombstoneValue

end Change

/-- The value under the reserved key is the list of keys. -/
def Indexed (s : DBKVStore) : Prop := s.db.get kMetaKeyIndex = some (serializeKeys s.knownKeys)

/-! ### The two parts of a change -/

theorem reserved_kMetaKeyIndex : isReservedKey kMetaKeyIndex = true := by decide

theorem ne_kMetaKeyIndex {k : Bytes} (h : isReservedKey k = false) : k ≠ kMetaKeyIndex := by
  rintro rfl
  rw [reserved_kMetaKeyIndex] at h
  cases h

theorem serializeKeys_ne_tombstone (keys : List Bytes) : serializeKeys keys ≠ tombstoneValue := by
  unfold serializeKeys
  intro h
  have hlast := congrArg List.getLast? h
  rcases List.eq_nil_or_concat (keys.insertionSort (· ≤ ·)) with hs | ⟨ks, k, hs⟩
  · rw [hs] at hlast
    cases hlast
  · rw [hs, List.concat_eq_append, List.flatMap_append, List.flatMap_singleton,
      ← List.append_assoc, List.getLast?_concat] at hlast
    exact absurd hlast (by decide)

theorem hide_serializeKeys (keys : List Bytes) :
    DB.hide (serializeKeys keys) = some (serializeKeys keys) :=
  DB.hide_of_ne (serializeKeys_ne_tombstone keys)

section

variable (cfg : DBConfig) (s : DBKVStore) {c : Change}

theorem Change.hide_stored (hc : c.Ok) : DB.hide c.stored = c.after := by
  cases c with
  | put key value previous => exact DB.hide_of_ne fun h => hc.value (congrArg some h)
  | delete key previous => exact DB.hide_tombstone

theorem Change.get_commit (hc : c.Ok) (j : Bytes) :
    (c.commit cfg s).db.get j = if j = c.key then c.after else s.db.get j := by
  rw [commit, DB.get_put, hide_stored hc]

theorem Change.get_note (c : Change) (j : Bytes) :
    (c.note cfg s).db.get j =
      if j = kMetaKeyIndex then some (serializeKeys (c.note cfg s).knownKeys)
      else s.db.get j := by
  cases c <;>
    · rw [note, ← hide_serializeKeys]
      exact DB.get_put cfg s.db _ _ j

theorem Change.indexed_note (c : Change) : Indexed (c.note cfg s) := by
  rw [Indexed, get_note, if_pos rfl]

theorem Change.get_note_of_not_reserved (c : Change) {j : Bytes} (hj : isReservedKey j = false) :
    (c.note cfg s).db.get j = s.db.get j := by
  rw [get_note, if_neg (ne_kMetaKeyIndex hj)]

theorem Change.mem_note_self (c : Change) (hs : s.knownKeys.Nodup) :
    c.key ∈ (c.note cfg s).knownKeys ↔ c.after.isSome := by
  cases c with
  | put key value previous =>
    show key ∈ (if key ∈ s.knownKeys then s.knownKeys else s.knownKeys ++ [key]) ↔ true
    split <;> simp [*]
  | delete key previous =>
    show key ∈ s.knownKeys.erase key ↔ false
    simp [hs.mem_erase_iff]

theorem Change.mem_note_of_ne (c : Change) {j : Bytes} (hj : j ≠ c.key) :
    j ∈ (c.note cfg s).knownKeys ↔ j ∈ s.knownKeys := by
  cases c with
  | put key value previous =>
    show j ∈ (if key ∈ s.knownKeys then s.knownKeys else s.knownKeys ++ [key]) ↔ _
    split
    · rfl
    · rw [List.mem_append, List.mem_singleton]
      exact or_iff_left hj
  | delete key previous => exact List.mem_erase_of_ne hj

theorem Change.nodup_note (c : Change) (hs : s.knownKeys.Nodup) :
    (c.note cfg s).knownKeys.Nodup := by
  cases c with
  | put key value previous =>
    show (if key ∈ s.knownKeys then s.knownKeys else s.knownKeys ++ [key]).Nodup
    split
    · exact hs
    · exact List.nodup_append.mpr ⟨hs, List.nodup_singleton _, by
        intro a ha b hb
        rw [List.mem_singleton.mp hb]
        rintro rfl
        contradiction⟩
  | delete key previous => exact hs.erase _

/-- **The section brings the counter up to date.** -/
theorem Change.trackedBytesSize_note (c : Change) :
    ((c.note cfg s).trackedBytesSize : Int) ≡ s.trackedBytesSize + c.gain [ZMOD 2 ^ 64] := by
  cases c with
  | put key value previous =>
    cases previous with
    | none =>
      show (toSizeT (s.trackedBytesSize + (key.length + value.length : Nat)) : Int) ≡
        s.trackedBytesSize + ((key.length + value.length : Nat) - 0) [ZMOD 2 ^ 64]
      rw [Int.sub_zero]
      exact toSizeT_modEq _
    | some old =>
      show (toSizeT (toSizeT (s.trackedBytesSize - (key.length + old.length : Nat)) +
          (key.length + value.length : Nat)) : Int) ≡
        s.trackedBytesSize + ((key.length + value.length : Nat) - (key.length + old.length : Nat))
          [ZMOD 2 ^ 64]
      refine (toSizeT_modEq _).trans (((toSizeT_modEq _).add_right _).trans ?_)
      exact congrArg (· % 2 ^ 64) (by omega)
  | delete key previous =>
    show (toSizeT (s.trackedBytesSize - (key.length + previous.length : Nat)) : Int) ≡
      s.trackedBytesSize + (0 - (key.length + previous.length : Nat)) [ZMOD 2 ^ 64]
    rw [Int.zero_sub, ← Int.sub_eq_add_neg]
    exact toSizeT_modEq _

theorem Change.trackedBytesSize_note_lt (c : Change) :
    (c.note cfg s).trackedBytesSize < 2 ^ 64 := by
  cases c <;> exact toSizeT_lt _

end

/-! ### The ledger -/

/-- The last change of a key. -/
def lastOn (pend : List Change) (k : Bytes) : Option Change :=
  (pend.filter fun c => c.key = k).getLast?

/-- The keys are no reserved ones, and no other key is present. -/
structure Covers (s : DBKVStore) (keys : Finset Bytes) : Prop where
  key : ∀ k ∈ keys, isReservedKey k = false
  mem : ∀ k, isReservedKey k = false → (s.db.get k).isSome → k ∈ keys

/-- What agrees while the changes `pend` are committed and not yet noted. -/
structure Ledger (pend : List Change) (s : DBKVStore) : Prop where
  healthy : s.closed = false
  changes : ∀ c ∈ pend, c.Ok
  nodup : s.knownKeys.Nodup
  key : ∀ k ∈ s.knownKeys, isReservedKey k = false
  settled : ∀ k, isReservedKey k = false → lastOn pend k = none →
    (k ∈ s.knownKeys ↔ (s.db.get k).isSome)
  pending : ∀ k c, lastOn pend k = some c → (s.db.get k).isSome = c.after.isSome
  fits : s.trackedBytesSize < 2 ^ 64
  bytes : ∀ keys, Covers s keys →
    (s.trackedBytesSize : Int) + (pend.map Change.gain).sum ≡
      ((∑ k ∈ keys, entrySize k (s.db.get k) : Nat) : Int) [ZMOD 2 ^ 64]
  index : Indexed s ∨ (s.db.get kMetaKeyIndex = none ∧ s.knownKeys = [])

theorem lastOn_nil (k : Bytes) : lastOn [] k = none := rfl

theorem lastOn_concat (pend : List Change) (c : Change) (k : Bytes) :
    lastOn (pend ++ [c]) k = if c.key = k then some c else lastOn pend k := by
  rw [lastOn, List.filter_append]
  split
  · rw [List.filter_cons_of_pos (by simpa using ‹c.key = k›), List.filter_nil, List.getLast?_concat]
  · rw [List.filter_cons_of_neg (by simpa using ‹¬ c.key = k›), List.filter_nil, List.append_nil]
    rfl

theorem mem_of_lastOn {pend : List Change} {k : Bytes} {c : Change} (h : lastOn pend k = some c) :
    c ∈ pend ∧ c.key = k := by
  have hmem := List.mem_filter.mp (List.mem_of_getLast? h)
  exact ⟨hmem.1, by simpa using hmem.2⟩

theorem lastOn_remove_of_ne {a b : List Change} {c : Change} {k : Bytes} (h : c.key ≠ k) :
    lastOn (a ++ c :: b) k = lastOn (a ++ b) k := by
  rw [lastOn, List.filter_append, List.filter_cons_of_neg (by simpa using h), ← List.filter_append]
  rfl

/-- When a change leaves, the last change of its key stays or makes way for one of the same
kind. -/
theorem lastOn_remove_self {a b : List Change} {c : Change}
    (hkind : ∀ d ∈ a, d.key = c.key → d.after.isSome = c.after.isSome) :
    ∃ d, lastOn (a ++ c :: b) c.key = some d ∧ (lastOn (a ++ b) c.key = none → d = c) ∧
      ∀ e, lastOn (a ++ b) c.key = some e → e.after.isSome = d.after.isSome := by
  simp only [lastOn, List.filter_append, List.filter_cons_of_pos (p := fun d => d.key = c.key)
    (a := c) (l := b) (by simp)]
  rcases List.eq_nil_or_concat (b.filter fun d => d.key = c.key) with hb | ⟨ys, d, hb⟩
  · rw [hb, List.append_nil]
    refine ⟨c, List.getLast?_concat, fun _ => rfl, ?_⟩
    intro e he
    have hmem := List.mem_filter.mp (List.mem_of_getLast? he)
    exact hkind e hmem.1 (by simpa using hmem.2)
  · rw [hb, List.concat_eq_append, ← List.append_assoc, List.getLast?_concat, ← List.cons_append,
      ← List.append_assoc, List.getLast?_concat]
    refine ⟨d, rfl, (fun h => by cases h), ?_⟩
    intro e he
    rw [Option.some.inj he]

theorem Covers.of_get {s t : DBKVStore} {keys : Finset Bytes} (h : Covers t keys)
    (hget : ∀ k, isReservedKey k = false → s.db.get k = t.db.get k) : Covers s keys :=
  ⟨h.key, fun k hk hp => h.mem k hk (by rw [← hget k hk]; exact hp)⟩

theorem sum_congr_get {s t : DBKVStore} {keys : Finset Bytes}
    (hkey : ∀ k ∈ keys, isReservedKey k = false)
    (hget : ∀ k, isReservedKey k = false → s.db.get k = t.db.get k) :
    ∑ k ∈ keys, entrySize k (s.db.get k) = ∑ k ∈ keys, entrySize k (t.db.get k) :=
  Finset.sum_congr rfl fun k hk => by rw [hget k (hkey k hk)]

/-- A database that answers the same keeps the ledger: the flush thread does not matter. -/
theorem Ledger.of_get_eq {pend : List Change} {s : DBKVStore} (h : Ledger pend s) {db : DB}
    (hget : ∀ k, db.get k = s.db.get k) : Ledger pend { s with db := db } := by
  refine ⟨h.healthy, h.changes, h.nodup, h.key, ?_, ?_, h.fits, ?_, ?_⟩
  · intro k hk hl
    rw [hget]
    exact h.settled k hk hl
  · intro k c hl
    rw [hget]
    exact h.pending k c hl
  · intro keys hc
    rw [sum_congr_get (t := s) hc.key fun k _ => hget k]
    exact h.bytes keys (hc.of_get fun k _ => (hget k).symm)
  · rw [Indexed, hget]
    exact h.index

section

variable {pend : List Change} {s : DBKVStore} {c : Change}

theorem sum_commit (cfg : DBConfig) (s : DBKVStore) (hc : c.Ok) {keys : Finset Bytes}
    (hk : c.key ∈ keys) :
    ∑ k ∈ keys, entrySize k ((c.commit cfg s).db.get k) + entrySize c.key (s.db.get c.key) =
      ∑ k ∈ keys, entrySize k (s.db.get k) + entrySize c.key c.after := by
  have hrest : ∑ k ∈ keys.erase c.key, entrySize k ((c.commit cfg s).db.get k) =
      ∑ k ∈ keys.erase c.key, entrySize k (s.db.get k) := by
    refine Finset.sum_congr rfl ?_
    intro k hk
    rw [c.get_commit cfg s hc, if_neg (Finset.ne_of_mem_erase hk)]
  rw [← Finset.add_sum_erase _ _ hk,
    ← Finset.add_sum_erase _ (fun k => entrySize k (s.db.get k)) hk, hrest,
    c.get_commit cfg s hc, if_pos rfl]
  omega

theorem Covers.of_commit {cfg : DBConfig} (hc : c.Ok) {keys : Finset Bytes}
    (h : Covers (c.commit cfg s) keys) : Covers s (insert c.key keys) := by
  constructor
  · intro k hk
    rcases Finset.mem_insert.mp hk with rfl | hk
    · exact hc.key
    · exact h.key k hk
  · intro k hk hp
    by_cases he : k = c.key
    · exact Finset.mem_insert.mpr (Or.inl he)
    · refine Finset.mem_insert_of_mem (h.mem k hk ?_)
      rw [c.get_commit cfg s hc, if_neg he]
      exact hp

theorem Covers.sum_insert {keys : Finset Bytes} (h : Covers s keys) {j : Bytes}
    (hj : isReservedKey j = false) :
    ∑ k ∈ insert j keys, entrySize k (s.db.get k) = ∑ k ∈ keys, entrySize k (s.db.get k) := by
  refine Finset.sum_insert_of_eq_zero_if_notMem ?_
  intro hn
  cases hg : s.db.get j with
  | none => rfl
  | some v => exact absurd (h.mem j hj (by rw [hg]; rfl)) hn

/-- **The database is written.**  The caller's previous value may be stale, as long as its
size is not. -/
theorem Ledger.commit (h : Ledger pend s) (cfg : DBConfig) (hc : c.Ok)
    (hsize : entrySize c.key c.before = entrySize c.key (s.db.get c.key)) :
    Ledger (pend ++ [c]) (c.commit cfg s) := by
  refine ⟨h.healthy, ?_, h.nodup, h.key, ?_, ?_, h.fits, ?_, ?_⟩
  · intro d hd
    rcases List.mem_append.mp hd with hd | hd
    · exact h.changes d hd
    · rw [List.mem_singleton.mp hd]
      exact hc
  · intro k hk hl
    rw [lastOn_concat] at hl
    split at hl
    · cases hl
    · rw [c.get_commit cfg s hc, if_neg (Ne.symm ‹_›)]
      exact h.settled k hk hl
  · intro k d hl
    rw [lastOn_concat] at hl
    rw [c.get_commit cfg s hc]
    split at hl
    · cases hl
      rw [if_pos (Eq.symm ‹_›)]
    · rw [if_neg (Ne.symm ‹_›)]
      exact h.pending k d hl
  · intro keys hcov
    have hold := h.bytes _ (hcov.of_commit hc)
    have hsum := sum_commit cfg s hc (Finset.mem_insert_self c.key keys)
    rw [hcov.sum_insert hc.key, ← hsize] at hsum
    have hnew := hold.add_right c.gain
    rw [List.map_append, List.sum_append, List.map_singleton, List.sum_singleton,
      ← Int.add_assoc]
    refine hnew.trans (congrArg (· % 2 ^ 64) ?_)
    rw [Change.gain]
    omega
  · rw [Indexed, c.get_commit cfg s hc, if_neg (Ne.symm (ne_kMetaKeyIndex hc.key))]
    exact h.index

/-- **The section under the mutex.**  Changes of the same key that were committed earlier
and are still to be noted must be of the same kind. -/
theorem Ledger.note {a b : List Change} (h : Ledger (a ++ c :: b) s) (cfg : DBConfig)
    (hkind : ∀ d ∈ a, d.key = c.key → d.after.isSome = c.after.isSome) :
    Ledger (a ++ b) (c.note cfg s) := by
  have hc : c.Ok := h.changes c (List.mem_append_right a List.mem_cons_self)
  have hget : ∀ k, isReservedKey k = false → (c.note cfg s).db.get k = s.db.get k :=
    fun k hk => c.get_note_of_not_reserved cfg s hk
  have hchanges : ∀ d ∈ a ++ b, d.Ok := by
    intro d hd
    refine h.changes d ?_
    rcases List.mem_append.mp hd with hd | hd
    · exact List.mem_append_left _ hd
    · exact List.mem_append_right _ (List.mem_cons_of_mem _ hd)
  refine ⟨?_, hchanges, c.nodup_note cfg s h.nodup, ?_, ?_, ?_, c.trackedBytesSize_note_lt cfg s,
    ?_, ?_⟩
  · cases c <;> exact h.healthy
  · intro k hk
    by_cases he : k = c.key
    · rw [he]
      exact hc.key
    · exact h.key k ((c.mem_note_of_ne cfg s he).mp hk)
  · intro k hk hl
    rw [hget k hk]
    by_cases he : k = c.key
    · subst he
      -- no other change of the key is pending, so this one was the last
      obtain ⟨d, hd, hself, -⟩ := lastOn_remove_self (b := b) hkind
      rw [c.mem_note_self cfg s h.nodup, h.pending c.key d hd, hself hl]
    · rw [c.mem_note_of_ne cfg s he]
      exact h.settled k hk (by rw [lastOn_remove_of_ne (Ne.symm he)]; exact hl)
  · intro k d hl
    obtain ⟨hd, hk⟩ := mem_of_lastOn hl
    rw [hget k (by rw [← hk]; exact (hchanges d hd).key)]
    by_cases he : k = c.key
    · subst he
      obtain ⟨e, he, -, hsame⟩ := lastOn_remove_self (b := b) hkind
      rw [h.pending c.key e he, hsame d hl]
    · exact h.pending k d (by rw [lastOn_remove_of_ne (Ne.symm he)]; exact hl)
  · intro keys hcov
    have hcov' : Covers s keys := hcov.of_get fun k hk => (hget k hk).symm
    rw [sum_congr_get hcov.key hget]
    refine Int.ModEq.trans ?_ (h.bytes keys hcov')
    refine ((c.trackedBytesSize_note cfg s).add_right _).trans (congrArg (· % 2 ^ 64) ?_)
    simp only [List.map_append, List.sum_append, List.map_cons, List.sum_cons]
    omega
  · exact Or.inl (c.indexed_note cfg s)

end

end DBKVStore

end Mokv
