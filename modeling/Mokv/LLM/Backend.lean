import Mokv.LLM.Refinement

/-!
# The LLM stores on a `DBKVStore`

The results about the stores are about a key-value store that is a map.  The programs of
the stores use no reserved key, since their keys start with `llm`, and store no tombstone,
since their payloads are lines (`Call.allowed`).  So on a `DBKVStore` they get the answers
of the map (`Prog.runDB_eq_run`), and what the stores refine holds there too.
-/

namespace Mokv.LLM

open Lib Codec ConversationStore DBKVStore

theorem RecordKey.isReservedKey_key (k : RecordKey) : isReservedKey k.key = false := by
  obtain ⟨ps, hps⟩ : ∃ ps, k.parts = text "llm" :: ps := by
    cases k <;> exact ⟨_, rfl⟩
  obtain ⟨y, -, hy, -⟩ := exists_joinKeyParts_cons (text "llm") ps
  have hkey : k.key = 0x6C :: ((escapeKeyPart (text "llm")).tail ++ y) := by
    rw [k.key_eq, hps, hy]
    rfl
  rw [hkey]
  refine decide_eq_false ?_
  intro h
  have hhead := congrArg List.head? h
  rw [List.head?_take, if_neg (by simp [kReservedPrefix, text])] at hhead
  cases hhead

theorem writeLines_ne_tombstoneValue (lines : List (List Bytes)) :
    writeLines lines ≠ tombstoneValue := by
  cases lines with
  | nil => decide
  | cons fields lines =>
    intro h
    have hmem : (10 : UInt8) ∈ writeLines (fields :: lines) := by simp [writeLines]
    rw [h] at hmem
    exact absurd hmem (by decide)

/-! ### The programs -/

theorem allowed_save (session : ConversationSession) : (save session).Allowed := by
  unfold save
  split
  · trivial
  · intro keys hkeys
    refine Prog.Allowed.bind ?_ ?_
    · unfold deleteStaleTurns
      split
      · trivial
      · exact Prog.allowed_batchDelete hkeys
    · intro r
      split
      · refine Prog.allowed_batch ?_
        intro e he
        rw [sessionEntries_eq] at he
        obtain ⟨⟨k, v⟩, hr, rfl⟩ := List.mem_map.mp he
        refine ⟨k.isReservedKey_key, ?_⟩
        simp only [sessionRecords, List.mem_cons, Prod.mk.injEq, List.mem_mapIdx] at hr
        rcases hr with ⟨-, rfl⟩ | ⟨-, rfl⟩ | ⟨i, hi, -, rfl⟩
        · exact writeLines_ne_tombstoneValue _
        · exact writeLines_ne_tombstoneValue _
        · exact writeLines_ne_tombstoneValue _
      · trivial

/-! One operation on a record. -/

theorem allowed_get {α : Type} (k : RecordKey) (f : Option Bytes → α) :
    (Prog.get k.key fun payload => .pure (f payload)).Allowed :=
  ⟨k.isReservedKey_key, fun _ => trivial⟩

theorem allowed_put (k : RecordKey) (lines : List (List Bytes)) :
    (Prog.put k.key (writeLines lines) .pure).Allowed :=
  ⟨k.isReservedKey_key, writeLines_ne_tombstoneValue lines, fun _ => trivial⟩

theorem allowed_delete (k : RecordKey) : (Prog.delete k.key .pure).Allowed :=
  ⟨k.isReservedKey_key, fun _ => trivial⟩

theorem allowed_ite {α : Type} {c : Prop} [Decidable c] {p q : Prog α} (hp : p.Allowed)
    (hq : q.Allowed) : (if c then p else q).Allowed := by
  split
  · exact hp
  · exact hq

theorem allowed_getConversation (t a s : Bytes) : (ConversationStore.get t a s).Allowed := by
  refine ⟨(RecordKey.conversationMeta t a s).isReservedKey_key, ?_⟩
  intro payload
  cases payload with
  | none => exact allowed_get (.conversation t a s) _
  | some payload =>
    rw [getWith]
    cases parseConversationSummary payload with
    | none => trivial
    | some summary => exact fun _ => trivial

/-- **No call touches a reserved key or stores a tombstone.** -/
theorem Call.allowed (call : Call) : call.prog.Allowed := by
  cases call with
  | putPromptCache entry => exact allowed_ite trivial (allowed_put (.promptCache _ _ _ _) _)
  | deletePromptCache t a m p => exact allowed_delete (.promptCache t a m p)
  | save session => exact allowed_save session
  | appendTurn d turn => exact (allowed_getConversation _ _ _).bind fun _ => allowed_save _
  | trimToLastTurns t a s keep =>
    refine (allowed_getConversation t a s).bind ?_
    intro existing
    cases existing with
    | none => trivial
    | some session => exact allowed_ite trivial (allowed_save _)
  | deleteConversation t a s =>
    intro keys hkeys
    refine Prog.allowed_batchDelete ?_
    intro k hk
    rcases List.mem_append.mp hk with hk | hk
    · exact hkeys k hk
    · rcases List.mem_cons.mp hk with rfl | hk
      · exact (RecordKey.conversationMeta t a s).isReservedKey_key
      · rw [List.mem_singleton.mp hk]
        exact (RecordKey.conversation t a s).isReservedKey_key
  | putRetrieval chunk => exact allowed_ite trivial (allowed_put (.retrieval _ _ _ _) _)
  | deleteRetrieval t b d c => exact allowed_delete (.retrieval t b d c)
  | putRuntimeConfig record => exact allowed_ite trivial (allowed_put (.runtimeConfig _ _ _) _)
  | deleteRuntimeConfig t a p => exact allowed_delete (.runtimeConfig t a p)

/-! ### Calls on the store -/

/-- One call on a `DBKVStore`. -/
def stepDB (cfg : DBConfig) (s : DBKVStore) (call : Call) : DBKVStore := (call.prog.runDB cfg s).2

theorem agrees_new (files : LSM.Files) : Agrees (ofDB (DB.new files)) KVMap.empty := by
  refine ⟨ledger_new files, ?_⟩
  intro k
  have hget : (ofDB (DB.new files)).get k = none := by
    rw [DBKVStore.get_eq (ledger_new files).healthy]
    exact get_new files k
  rw [hget, ite_self]
  rfl

theorem agrees_run (cfg : DBConfig) {calls : List Call} {s : DBKVStore} {m u : KVMap}
    (h : Agrees s m) (hrun : run step m calls = some u) :
    Agrees (calls.foldl (stepDB cfg) s) u := by
  induction calls generalizing s m with
  | nil =>
    obtain rfl := Option.some.inj hrun
    exact h
  | cons call calls ih => exact ih (call.prog.runDB_eq_run cfg call.allowed h).2 hrun

theorem Represents.gets_on_db {m : KVMap} {R : Records} (hrep : Represents m R) (hr : R.HasRoles)
    (cfg : DBConfig) {s : DBKVStore} (hag : Agrees s m) :
    (∀ t a mo p, ((PromptCacheStore.get t a mo p).runDB cfg s).1 = R.promptCache (t, a, mo, p)) ∧
    (∀ t a s', ((ConversationStore.get t a s').runDB cfg s).1 = R.conversation (t, a, s')) ∧
    (∀ t b d c, ((RetrievalStore.get t b d c).runDB cfg s).1 = R.retrieval (t, b, d, c)) ∧
    ∀ t a p, ((RuntimeConfigStore.get t a p).runDB cfg s).1 = R.runtimeConfig (t, a, p) := by
  refine ⟨?_, ?_, ?_, ?_⟩
  · intro t a mo p
    have hget : (PromptCacheStore.get t a mo p).Allowed := allowed_get (.promptCache t a mo p) _
    rw [(Prog.runDB_eq_run cfg _ hget hag).1]
    exact hrep.getPromptCache t a mo p
  · intro t a s'
    rw [(Prog.runDB_eq_run cfg _ (allowed_getConversation t a s') hag).1, hrep.getConversation,
      hr.map_visible]
  · intro t b d c
    have hget : (RetrievalStore.get t b d c).Allowed := allowed_get (.retrieval t b d c) _
    rw [(Prog.runDB_eq_run cfg _ hget hag).1]
    exact hrep.getRetrieval t b d c
  · intro t a p
    have hget : (RuntimeConfigStore.get t a p).Allowed := allowed_get (.runtimeConfig t a p) _
    rw [(Prog.runDB_eq_run cfg _ hget hag).1]
    exact hrep.getRuntimeConfig t a p

/-- **On a `DBKVStore` the stores refine independent maps.** -/
theorem refines_records_on_db (cfg : DBConfig) (files : LSM.Files) (calls : List Call)
    (hroles : ∀ call ∈ calls, call.HasRoles)
    (hfits : StepsOk step (fun m call => call.Fits m) KVMap.empty calls) :
    let s := calls.foldl (stepDB cfg) (ofDB (DB.new files))
    let R := calls.foldl Records.step Records.empty
    (∀ t a mo p, ((PromptCacheStore.get t a mo p).runDB cfg s).1 = R.promptCache (t, a, mo, p)) ∧
    (∀ t a s', ((ConversationStore.get t a s').runDB cfg s).1 = R.conversation (t, a, s')) ∧
    (∀ t b d c, ((RetrievalStore.get t b d c).runDB cfg s).1 = R.retrieval (t, b, d, c)) ∧
    ∀ t a p, ((RuntimeConfigStore.get t a p).runDB cfg s).1 = R.runtimeConfig (t, a, p) := by
  obtain ⟨m, hrun, hrep, hr⟩ := exists_represents calls hroles hfits
  exact hrep.gets_on_db hr cfg (agrees_run cfg (agrees_new files) hrun)

end Mokv.LLM
