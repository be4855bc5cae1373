import Mokv.KVStore.Bookkeeping

/-!
# Reopening the key-value store

When a store is destroyed and another one is built on the same database, the constructor
reads the list of keys back from the stored index (`loadKeyIndex`).  The index is a text of
escaped keys, one a line, and the reader skips empty lines.  The escape keeps keys with
newlines, tabs and backslashes apart; the one key whose line is empty is the empty key.

`deserializeKeys_serializeKeys` says what comes back, and `reopen_restores_iff` that the
list and the byte counter come back exactly when the empty key is not in the store.
-/

namespace Mokv.DBKVStore

open Lib Codec

/-- **What comes back from a serialized list**: the sorted list, without the empty key. -/
theorem deserializeKeys_serializeKeys (keys : List Bytes) :
    deserializeKeys (serializeKeys keys) = (keys.insertionSort (· ≤ ·)).filter (· ≠ []) := by
  have hlines : getlines (serializeKeys keys) = (keys.insertionSort (· ≤ ·)).map escape := by
    have h := @getlines_flatMap ((keys.insertionSort (· ≤ ·)).map escape) (by
      intro line hl
      obtain ⟨key, -, rfl⟩ := List.mem_map.mp hl
      exact newline_not_mem_escape key)
    rwa [List.flatMap_map] at h
  rw [deserializeKeys, hlines, List.filter_map, List.map_map]
  have hid : (unescape ∘ escape) = id := funext unescape_escape
  rw [hid, List.map_id]
  refine List.filter_congr ?_
  intro key _
  simp [escape_eq_nil]

theorem countEntry_eq (db : DB) {tracked : Nat} (h : tracked < 2 ^ 64) (key : Bytes) :
    countEntry db tracked key = (tracked + entrySize key (db.get key)) % 2 ^ 64 := by
  unfold countEntry
  cases db.get key with
  | none => exact (Nat.mod_eq_of_lt h).symm
  | some value =>
    show toSizeT (tracked + (key.length + value.length : Nat)) =
      (tracked + (key.length + value.length)) % 2 ^ 64
    unfold toSizeT
    omega

theorem foldl_countEntry (db : DB) (keys : List Bytes) {tracked : Nat} (h : tracked < 2 ^ 64) :
    keys.foldl (countEntry db) tracked =
      (tracked + (keys.map fun k => entrySize k (db.get k)).sum) % 2 ^ 64 := by
  induction keys generalizing tracked with
  | nil => exact (Nat.mod_eq_of_lt h).symm
  | cons key keys ih =>
    have hlt : countEntry db tracked key < 2 ^ 64 := by
      rw [countEntry_eq db h]
      exact Nat.mod_lt _ (Nat.two_pow_pos 64)
    rw [List.foldl_cons, ih hlt, countEntry_eq db h, List.map_cons, List.sum_cons, Nat.mod_add_mod,
      Nat.add_assoc]

section

variable {s : DBKVStore} {db : DB}

theorem ofDB_of_indexed (h : Indexed s) (hget : ∀ k, db.get k = s.db.get k) :
    (ofDB db).listKeys = (s.listKeys.insertionSort (· ≤ ·)).filter (· ≠ []) ∧
      (ofDB db).bytesSize =
        ((ofDB db).listKeys.map fun k => entrySize k (db.get k)).sum % 2 ^ 64 := by
  have hi : db.get kMetaKeyIndex = some (serializeKeys s.knownKeys) := (hget _).trans h
  unfold ofDB loadKeyIndex listKeys bytesSize
  simp only [hi, deserializeKeys_serializeKeys, true_and]
  rw [foldl_countEntry db _ (Nat.two_pow_pos 64), Nat.zero_add]

theorem ofDB_of_absent (h : s.db.get kMetaKeyIndex = none) (hget : ∀ k, db.get k = s.db.get k) :
    ofDB db = ⟨db, [], 0, false⟩ := by
  have hi : db.get kMetaKeyIndex = none := (hget _).trans h
  unfold ofDB loadKeyIndex
  simp only [hi]

/-- With the books right, the empty key is absent exactly when it is not in the list. -/
theorem Ledger.get_nil (h : Ledger [] s) : s.get [] = none ↔ [] ∉ s.listKeys := by
  rw [h.mem_listKeys, ← Option.not_isSome_iff_eq_none]
  have hr : isReservedKey [] = false := by decide
  simp [hr]

theorem Ledger.perm_of_get_nil (h : Ledger [] s) (he : s.get [] = none) :
    ((s.listKeys.insertionSort (· ≤ ·)).filter (· ≠ [])).Perm s.listKeys := by
  have hperm := List.perm_insertionSort (· ≤ ·) s.listKeys
  rw [List.filter_eq_self.mpr]
  · exact hperm
  · intro k hk
    have hne : k ≠ [] := by
      rintro rfl
      exact h.get_nil.mp he (hperm.mem_iff.mp hk)
    simpa using hne

/-- The same set of keys and the same number of bytes. -/
def Restores (s t : DBKVStore) : Prop :=
  (∀ k, k ∈ t.listKeys ↔ k ∈ s.listKeys) ∧ t.bytesSize = s.bytesSize

theorem Ledger.restores_iff (h : Ledger [] s) (hget : ∀ k, db.get k = s.db.get k) :
    Restores s (ofDB db) ↔ s.get [] = none := by
  rcases h.index with hi | ⟨habs, hknown⟩
  · obtain ⟨hkeys, hbytes⟩ := ofDB_of_indexed hi hget
    constructor
    · rintro ⟨hset, -⟩
      rw [h.get_nil, ← hset, hkeys]
      simp
    · intro he
      have hperm := h.perm_of_get_nil he
      refine ⟨fun k => by rw [hkeys]; exact hperm.mem_iff, ?_⟩
      rw [hbytes, hkeys, h.bytesSize_eq, contentSize]
      simp only [get_eq h.healthy, hget]
      rw [(hperm.map _).sum_eq]
  · have hlist : s.listKeys = [] := hknown
    rw [ofDB_of_absent habs hget]
    refine iff_of_true ⟨fun k => by rw [hlist]; rfl, ?_⟩ (by rw [h.get_nil, hlist]; simp)
    rw [h.bytesSize_eq, contentSize, hlist]
    rfl

end

end Mokv.DBKVStore
