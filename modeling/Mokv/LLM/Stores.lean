import Mokv.KVStore.Client
import Mokv.LLM.Keyspace
import Mokv.LLM.Records

/-!
# The LLM stores

The four stores of `mokv/llm/store.hpp`, as programs over the `KVStore` interface.  A prompt
cache entry, a retrieval chunk and a runtime configuration are one record each.  A
conversation is stored three times: as one legacy record with all its turns, as a summary
under the meta key, and as one record for each turn; every update rewrites all of them.
-/

namespace Mokv.LLM

open Codec

/-! ### Prompt cache -/

namespace PromptCacheStore

/-- `PromptCacheStore::Put`. -/
def put (entry : PromptCacheEntry) : Prog KVResult :=
  if entry.promptHash = [] ∨ entry.model = [] then
    .pure (.fail "prompt cache entry requires model and prompt_hash")
  else
    .put (Keyspace.promptCache entry.tenant entry.appId entry.model entry.promptHash)
      (serializePromptCache entry) .pure

/-- `PromptCacheStore::Get`. -/
def get (tenant appId model promptHash : Bytes) : Prog (Option PromptCacheEntry) :=
  .get (Keyspace.promptCache tenant appId model promptHash) fun payload =>
    .pure (payload.bind parsePromptCache)

/-- `PromptCacheStore::List`.  `std::sort` leaves equal times in any order; here they keep the
order of the keys. -/
def list (tenant appId model : Bytes) : Prog (List PromptCacheEntry) :=
  .listEntriesByPrefix (Keyspace.promptCachePrefix tenant appId model) fun items =>
    .pure ((items.filterMap fun item => parsePromptCache item.2).insertionSort
      fun lhs rhs => rhs.cachedAtMs ≤ lhs.cachedAtMs)

/-- `PromptCacheStore::Delete`. -/
def delete (tenant appId model promptHash : Bytes) : Prog KVResult :=
  .delete (Keyspace.promptCache tenant appId model promptHash) .pure

end PromptCacheStore

/-! ### Conversations -/

namespace ConversationStore

/-- The summary that `Save` writes.  `turn_count` is a `uint32_t`. -/
def summaryOf (session : ConversationSession) : ConversationSummary where
  tenant := session.tenant
  appId := session.appId
  sessionId := session.sessionId
  model := session.model
  turnCount := UInt32.ofNat session.turns.length
  updatedAtMs := lastTurnTimestamp session.turns

/-- The batch that `Save` writes.  The loop over the turns counts in a `uint32_t`, so it ends
only for fewer than `2 ^ 32` of them. -/
def sessionEntries (session : ConversationSession) : List Entry :=
  (Keyspace.conversation session.tenant session.appId session.sessionId,
      serializeLegacyConversation session) ::
    (Keyspace.conversationMeta session.tenant session.appId session.sessionId,
      serializeConversationSummary (summaryOf session)) ::
    session.turns.mapIdx fun i turn =>
      (Keyspace.conversationTurn session.tenant session.appId session.sessionId (UInt32.ofNat i),
        serializeConversationTurn turn)

/-- The first part of `Save`: the turn records that are there are deleted. -/
def deleteStaleTurns (staleTurnKeys : List Bytes) : Prog KVResult :=
  if staleTurnKeys = [] then .pure .ok else Prog.batchDelete staleTurnKeys

/-- `ConversationStore::Save`. -/
def save (session : ConversationSession) : Prog KVResult :=
  if session.sessionId = [] then .pure (.fail "conversation requires session_id")
  else
    .listKeysByPrefix
      (Keyspace.conversationTurnPrefix session.tenant session.appId session.sessionId)
      fun staleTurnKeys => do
        let deleteResult ← deleteStaleTurns staleTurnKeys
        if deleteResult.success then Prog.batch (sessionEntries session)
        else Prog.pure deleteResult

/-- `detail::EndsWith`. -/
def endsWith (value suffix : Bytes) : Bool :=
  suffix.length ≤ value.length && value.drop (value.length - suffix.length) = suffix

/-- `ConversationStore::List`. -/
def list (tenant appId : Bytes) : Prog (List ConversationSummary) :=
  .listEntriesByPrefix (Keyspace.conversationPrefix tenant appId) fun items =>
    .pure (((items.filter fun item => endsWith item.1 (text ":meta")).filterMap
      fun item => parseConversationSummary item.2).insertionSort
        fun lhs rhs => rhs.updatedAtMs ≤ lhs.updatedAtMs)

/-- `ConversationStore::ListTurns`. -/
def listTurns (tenant appId sessionId : Bytes) : Prog (List ConversationTurn) :=
  .listEntriesByPrefix (Keyspace.conversationTurnPrefix tenant appId sessionId) fun items =>
    .pure (items.filterMap fun item => parseConversationTurn item.2)

/-- `ConversationStore::Get` after the read of the summary. -/
def getWith (tenant appId sessionId : Bytes) (summaryPayload : Option Bytes) :
    Prog (Option ConversationSession) :=
  match summaryPayload with
  | some payload =>
    match parseConversationSummary payload with
    | none => .pure none
    | some summary => do
      let turns ← listTurns tenant appId sessionId
      Prog.pure (some ⟨summary.tenant, summary.appId, summary.sessionId, summary.model, turns⟩)
  | none =>
    .get (Keyspace.conversation tenant appId sessionId) fun legacyPayload =>
      .pure (legacyPayload.bind parseLegacyConversation)

/-- `ConversationStore::Get`. -/
def get (tenant appId sessionId : Bytes) : Prog (Option ConversationSession) :=
  .get (Keyspace.conversationMeta tenant appId sessionId) (getWith tenant appId sessionId)

/-- The session that `AppendTurn` saves. -/
def appended (descriptor : ConversationDescriptor) (turn : ConversationTurn)
    (existing : Option ConversationSession) : ConversationSession :=
  let session :=
    match existing with
    | some session => session
    | none => ⟨descriptor.tenant, descriptor.appId, descriptor.sessionId, descriptor.model, []⟩
  let session :=
    if descriptor.model = [] then session else { session with model := descriptor.model }
  { session with turns := session.turns ++ [turn] }

/-- `ConversationStore::AppendTurn`. -/
def appendTurn (descriptor : ConversationDescriptor) (turn : ConversationTurn) :
    Prog KVResult := do
  let existing ← get descriptor.tenant descriptor.appId descriptor.sessionId
  save (appended descriptor turn existing)

/-- The session that `TrimToLastTurns` saves. -/
def trimmed (keepLastTurns : Nat) (session : ConversationSession) : ConversationSession :=
  { session with turns := session.turns.drop (session.turns.length - keepLastTurns) }

/-- `ConversationStore::TrimToLastTurns`. -/
def trimToLastTurns (tenant appId sessionId : Bytes) (keepLastTurns : Nat) : Prog KVResult := do
  match ← get tenant appId sessionId with
  | none => Prog.pure (.fail "conversation not found")
  | some session =>
    if session.turns.length ≤ keepLastTurns then Prog.pure .ok
    else save (trimmed keepLastTurns session)

/-- `ConversationStore::Delete`. -/
def delete (tenant appId sessionId : Bytes) : Prog KVResult :=
  .listKeysByPrefix (Keyspace.conversationTurnPrefix tenant appId sessionId) fun keys =>
    Prog.batchDelete
      (keys ++ [Keyspace.conversationMeta tenant appId sessionId,
        Keyspace.conversation tenant appId sessionId])

end ConversationStore

/-! ### Retrieval -/

namespace RetrievalStore

/-- `RetrievalStore::Put`. -/
def put (chunk : RetrievalChunk) : Prog KVResult :=
  if chunk.documentId = [] ∨ chunk.chunkId = [] then
    .pure (.fail "retrieval chunk requires document_id and chunk_id")
  else
    .put (Keyspace.retrieval chunk.tenant chunk.knowledgeBase chunk.documentId chunk.chunkId)
      (serializeRetrievalChunk chunk) .pure

/-- `RetrievalStore::Get`. -/
def get (tenant knowledgeBase documentId chunkId : Bytes) : Prog (Option RetrievalChunk) :=
  .get (Keyspace.retrieval tenant knowledgeBase documentId chunkId) fun payload =>
    .pure (payload.bind parseRetrievalChunk)

/-- `RetrievalStore::List`. -/
def list (tenant knowledgeBase documentId : Bytes) : Prog (List RetrievalChunk) :=
  .listEntriesByPrefix (Keyspace.retrievalPrefix tenant knowledgeBase documentId) fun items =>
    .pure (items.filterMap fun item => parseRetrievalChunk item.2)

/-- `RetrievalStore::Delete`. -/
def delete (tenant knowledgeBase documentId chunkId : Bytes) : Prog KVResult :=
  .delete (Keyspace.retrieval tenant knowledgeBase documentId chunkId) .pure

end RetrievalStore

/-! ### Runtime configuration -/

namespace RuntimeConfigStore

/-- `RuntimeConfigStore::Put`. -/
def put (record : RuntimeConfigRecord) : Prog KVResult :=
  if record.profile = [] then .pure (.fail "runtime config requires profile")
  else
    .put (Keyspace.runtimeConfig record.tenant record.appId record.profile)
      (serializeRuntimeConfig record) .pure

/-- `RuntimeConfigStore::Get`. -/
def get (tenant appId profile : Bytes) : Prog (Option RuntimeConfigRecord) :=
  .get (Keyspace.runtimeConfig tenant appId profile) fun payload =>
    .pure (payload.bind parseRuntimeConfig)

/-- `RuntimeConfigStore::List`. -/
def list (tenant appId : Bytes) : Prog (List RuntimeConfigRecord) :=
  .listEntriesByPrefix (Keyspace.runtimeConfigPrefix tenant appId) fun items =>
    .pure ((items.filterMap fun item => parseRuntimeConfig item.2).insertionSort
      fun lhs rhs => rhs.updatedAtMs ≤ lhs.updatedAtMs)

/-- `RuntimeConfigStore::Delete`. -/
def delete (tenant appId profile : Bytes) : Prog KVResult :=
  .delete (Keyspace.runtimeConfig tenant appId profile) .pure

end RuntimeConfigStore

end Mokv.LLM
