import Mathlib.Data.List.Sort
import Mokv.Codec
import Mokv.DB.Refinement

/-!
# The key-value store over a database

`DBKVStore` (`mokv/kvstore.cpp`) adds to a `DB` what the `KVStore` interface asks for and a
log-structured store does not give: the list of its keys and the number of bytes it holds.
Both are kept in memory beside the database, and the list of keys is written back into the
database, under a reserved key, after every change.

`put` and `delete` are written as the sequence of their atomic parts (the read of the
previous value, the write of the database, the section under `metadata_mutex_`), so that
the concurrent model can use the same parts one at a time.
-/

namespace Mokv

open Lib Codec

/-- `KVResult`. -/
structure KVResult where
  success : Bool
  value : Bytes
  message : String
  leaderId : Int
deriving DecidableEq

/-- `KVResult::OK()`. -/
def KVResult.ok : KVResult := ⟨true, [], "OK", -1⟩

/-- `KVResult::Fail`. -/
def KVResult.fail (message : String) : KVResult := ⟨false, [], message, -1⟩

/-- The state of a `DBKVStore`.  The pointer `db_` is null exactly when the store is closed. -/
structure DBKVStore where
  db : DB
  knownKeys : List Bytes
  trackedBytesSize : Nat
  closed : Bool

namespace DBKVStore

/-- `kMetaKeyIndex`. -/
def kMetaKeyIndex : Bytes := text "__mokv__:meta:key_index"

/-- `kReservedPrefix`. -/
def kReservedPrefix : Bytes := text "__mokv__:"

/-- `DBKVStore::IsReservedKey`. -/
def isReservedKey (key : Bytes) : Bool :=
  key.take (min key.length kReservedPrefix.length) = kReservedPrefix

/-- `SerializeKeys`. -/
def serializeKeys (keys : List Bytes) : Bytes :=
  (keys.insertionSort (· ≤ ·)).flatMap fun key => escape key ++ [10]

/-- `DeserializeKeys`. -/
def deserializeKeys (payload : Bytes) : List Bytes :=
  ((getlines payload).filter (· ≠ [])).map unescape

/-! ### Reading -/

/-- `DBKVStore::HealthCheck`. -/
def healthCheck (s : DBKVStore) : Bool := !s.closed

/-- `DBKVStore::Get`. -/
def get (s : DBKVStore) (key : Bytes) : Option Bytes :=
  if s.healthCheck then s.db.get key else none

/-- `DBKVStore::ListKeys`. -/
def listKeys (s : DBKVStore) : List Bytes := s.knownKeys

/-- `DBKVStore::ListKeysByPrefix`. -/
def listKeysByPrefix (s : DBKVStore) (pre : Bytes) : List Bytes :=
  (s.knownKeys.filter fun key => pre = [] ∨ key.take pre.length = pre).insertionSort (· ≤ ·)

/-- `DBKVStore::ListEntriesByPrefix`. -/
def listEntriesByPrefix (s : DBKVStore) (pre : Bytes) : List Entry :=
  if s.healthCheck then
    (s.listKeysByPrefix pre).filterMap fun key => (s.get key).map fun value => (key, value)
  else []

/-- `DBKVStore::Size`. -/
def size (s : DBKVStore) : Nat := s.knownKeys.length

/-- `DBKVStore::BytesSize`. -/
def bytesSize (s : DBKVStore) : Nat := s.trackedBytesSize

/-! ### Writing -/

/-- The section of `Put` under `metadata_mutex_`.  `tracked_bytes_size_` is a `size_t`. -/
def notePut (cfg : DBConfig) (s : DBKVStore) (key value : Bytes) (previous : Option Bytes) :
    DBKVStore :=
  let known := if key ∈ s.knownKeys then s.knownKeys else s.knownKeys ++ [key]
  let tracked :=
    match previous with
    | some old => toSizeT (s.trackedBytesSize - (key.length + old.length : Nat))
    | none => s.trackedBytesSize
  { s with
    knownKeys := known
    trackedBytesSize := toSizeT (tracked + (key.length + value.length : Nat))
    db := s.db.put cfg kMetaKeyIndex (serializeKeys known) }

/-- The section of `Delete` under `metadata_mutex_`. -/
def noteDelete (cfg : DBConfig) (s : DBKVStore) (key previous : Bytes) : DBKVStore :=
  let known := s.knownKeys.erase key
  { s with
    knownKeys := known
    trackedBytesSize := toSizeT (s.trackedBytesSize - (key.length + previous.length : Nat))
    db := s.db.put cfg kMetaKeyIndex (serializeKeys known) }

/-- The check that `Put` and `Delete` start with. -/
def refusal (s : DBKVStore) (key : Bytes) : Option KVResult :=
  if !s.healthCheck then some (.fail "DBKVStore is closed")
  else if isReservedKey key then some (.fail "reserved key prefix is managed by mokv")
  else none

/-- `DBKVStore::Put`. -/
def put (cfg : DBConfig) (s : DBKVStore) (key value : Bytes) : DBKVStore × KVResult :=
  match s.refusal key with
  | some result => (s, result)
  | none =>
    let previous := s.get key
    let s := { s with db := s.db.put cfg key value }
    (s.notePut cfg key value previous, .ok)

/-- `DBKVStore::Delete`. -/
def delete (cfg : DBConfig) (s : DBKVStore) (key : Bytes) : DBKVStore × KVResult :=
  match s.refusal key with
  | some result => (s, result)
  | none =>
    match s.get key with
    | none => (s, .ok)
    | some previous =>
      let s := { s with db := s.db.delete cfg key }
      (s.noteDelete cfg key previous, .ok)

/-- A loop over calls that returns the first failure. -/
def untilFailure {α : Type} (call : DBKVStore → α → DBKVStore × KVResult) :
    DBKVStore → List α → DBKVStore × KVResult
  | s, [] => (s, .ok)
  | s, a :: as =>
    match call s a with
    | (s, result) => if result.success then untilFailure call s as else (s, result)

/-- `DBKVStore::Batch`. -/
def batch (cfg : DBConfig) (s : DBKVStore) (entries : List Entry) : DBKVStore × KVResult :=
  untilFailure (fun s e => s.put cfg e.1 e.2) s entries

/-- `DBKVStore::BatchDelete`. -/
def batchDelete (cfg : DBConfig) (s : DBKVStore) (keys : List Bytes) : DBKVStore × KVResult :=
  untilFailure (fun s key => s.delete cfg key) s keys

/-- `DBKVStore::Clear`. -/
def clear (cfg : DBConfig) (s : DBKVStore) : DBKVStore × KVResult :=
  untilFailure (fun s key => s.delete cfg key) s s.listKeys

/-- One turn of the loop of `LoadKeyIndex` over the keys. -/
def countEntry (db : DB) (tracked : Nat) (key : Bytes) : Nat :=
  match db.get key with
  | some value => toSizeT (tracked + (key.length + value.length : Nat))
  | none => tracked

/-- `DBKVStore::LoadKeyIndex`. -/
def loadKeyIndex (s : DBKVStore) : DBKVStore :=
  match s.db.get kMetaKeyIndex with
  | none => s
  | some payload =>
    let known := deserializeKeys payload
    { s with
      knownKeys := known
      trackedBytesSize := known.foldl (countEntry s.db) 0 }

/-- The constructor of `DBKVStore`, on what the constructor of `DB` found. -/
def ofDB (db : DB) : DBKVStore := loadKeyIndex ⟨db, [], 0, false⟩

end DBKVStore

end Mokv
