import Mokv.Codec

/-!
# The records of the LLM stores

The record types of `mokv/llm/store.hpp` and their text formats.  A record is stored as
lines of tab-separated fields, the name of the field first; a parser assigns the lines it
knows to a record with default fields, in any order, and at the end refuses a record whose
mandatory fields are empty.

Each format has one result: what the parser makes of a serialized record.
-/

namespace Mokv.LLM

open Codec

/-! ### Record types -/

structure PromptCacheEntry where
  tenant : Bytes := []
  appId : Bytes := []
  model : Bytes := []
  promptHash : Bytes := []
  response : Bytes := []
  cachedAtMs : Int64 := 0
  inputTokens : UInt32 := 0
  outputTokens : UInt32 := 0
deriving DecidableEq

structure ConversationTurn where
  role : Bytes := []
  content : Bytes := []
  createdAtMs : Int64 := 0
deriving DecidableEq

structure ConversationSession where
  tenant : Bytes := []
  appId : Bytes := []
  sessionId : Bytes := []
  model : Bytes := []
  turns : List ConversationTurn := []
deriving DecidableEq

structure ConversationDescriptor where
  tenant : Bytes
  appId : Bytes
  sessionId : Bytes
  model : Bytes
deriving DecidableEq

structure ConversationSummary where
  tenant : Bytes := []
  appId : Bytes := []
  sessionId : Bytes := []
  model : Bytes := []
  turnCount : UInt32 := 0
  updatedAtMs : Int64 := 0
deriving DecidableEq

structure RetrievalChunk where
  tenant : Bytes := []
  knowledgeBase : Bytes := []
  documentId : Bytes := []
  chunkId : Bytes := []
  content : Bytes := []
  embeddingRef : Bytes := []
  metadata : List (Bytes × Bytes) := []
deriving DecidableEq

structure RuntimeConfigRecord where
  tenant : Bytes := []
  appId : Bytes := []
  profile : Bytes := []
  payload : Bytes := []
  updatedAtMs : Int64 := 0
deriving DecidableEq

/-- `detail::LastTurnTimestamp`. -/
def lastTurnTimestamp (turns : List ConversationTurn) : Int64 :=
  match turns.getLast? with
  | none => 0
  | some turn => turn.createdAtMs

/-! ### Prompt cache entries -/

/-- `detail::SerializePromptCache`. -/
def serializePromptCache (entry : PromptCacheEntry) : Bytes :=
  writeLines
    [[text "tenant", escape entry.tenant],
      [text "app_id", escape entry.appId],
      [text "model", escape entry.model],
      [text "prompt_hash", escape entry.promptHash],
      [text "response", escape entry.response],
      [text "cached_at_ms", int64Text entry.cachedAtMs],
      [text "input_tokens", uint32Text entry.inputTokens],
      [text "output_tokens", uint32Text entry.outputTokens]]

/-- A line of `detail::ParsePromptCache`. -/
def assignPromptCache (entry : PromptCacheEntry) : List Bytes → Option PromptCacheEntry
  | [name, value] =>
    if name = text "tenant" then some { entry with tenant := unescape value }
    else if name = text "app_id" then some { entry with appId := unescape value }
    else if name = text "model" then some { entry with model := unescape value }
    else if name = text "prompt_hash" then some { entry with promptHash := unescape value }
    else if name = text "response" then some { entry with response := unescape value }
    else if name = text "cached_at_ms" then
      (parseInt64 value).map fun n => { entry with cachedAtMs := n }
    else if name = text "input_tokens" then
      (parseUInt32 value).map fun n => { entry with inputTokens := n }
    else if name = text "output_tokens" then
      (parseUInt32 value).map fun n => { entry with outputTokens := n }
    else some entry
  | _ => some entry

/-- `detail::ParsePromptCache`. -/
def parsePromptCache (payload : Bytes) : Option PromptCacheEntry :=
  (readLines assignPromptCache {} payload).bind fun entry =>
    if entry.model = [] ∨ entry.promptHash = [] then none else some entry

theorem parsePromptCache_serializePromptCache {entry : PromptCacheEntry} (hm : entry.model ≠ [])
    (hh : entry.promptHash ≠ []) : parsePromptCache (serializePromptCache entry) = some entry := by
  unfold parsePromptCache serializePromptCache
  rw [readLines_writeLines]
  · simp +decide [assignPromptCache, unescape_escape, parseInt64_int64Text, parseUInt32_uint32Text,
      hm, hh]
  · simp +decide [isField_escape, isField_int64Text, isField_uint32Text]

/-! ### Conversations -/

/-- `detail::SerializeConversationTurn`. -/
def serializeConversationTurn (turn : ConversationTurn) : Bytes :=
  writeLines
    [[text "role", escape turn.role],
      [text "content", escape turn.content],
      [text "created_at_ms", int64Text turn.createdAtMs]]

/-- A line of `detail::ParseConversationTurn`. -/
def assignConversationTurn (turn : ConversationTurn) : List Bytes → Option ConversationTurn
  | [name, value] =>
    if name = text "role" then some { turn with role := unescape value }
    else if name = text "content" then some { turn with content := unescape value }
    else if name = text "created_at_ms" then
      (parseInt64 value).map fun n => { turn with createdAtMs := n }
    else some turn
  | _ => some turn

/-- `detail::ParseConversationTurn`. -/
def parseConversationTurn (payload : Bytes) : Option ConversationTurn :=
  (readLines assignConversationTurn {} payload).bind fun turn =>
    if turn.role = [] then none else some turn

/-- **A turn is read back unless its role is empty.** -/
theorem parseConversationTurn_serializeConversationTurn (turn : ConversationTurn) :
    parseConversationTurn (serializeConversationTurn turn) =
      if turn.role = [] then none else some turn := by
  unfold parseConversationTurn serializeConversationTurn
  rw [readLines_writeLines]
  · simp +decide [assignConversationTurn, unescape_escape, parseInt64_int64Text]
  · simp +decide [isField_escape, isField_int64Text]

/-- `detail::SerializeConversationSummary`. -/
def serializeConversationSummary (summary : ConversationSummary) : Bytes :=
  writeLines
    [[text "tenant", escape summary.tenant],
      [text "app_id", escape summary.appId],
      [text "session_id", escape summary.sessionId],
      [text "model", escape summary.model],
      [text "turn_count", uint32Text summary.turnCount],
      [text "updated_at_ms", int64Text summary.updatedAtMs]]

/-- A line of `detail::ParseConversationSummary`. -/
def assignConversationSummary (summary : ConversationSummary) :
    List Bytes → Option ConversationSummary
  | [name, value] =>
    if name = text "tenant" then some { summary with tenant := unescape value }
    else if name = text "app_id" then some { summary with appId := unescape value }
    else if name = text "session_id" then some { summary with sessionId := unescape value }
    else if name = text "model" then some { summary with model := unescape value }
    else if name = text "turn_count" then
      (parseUInt32 value).map fun n => { summary with turnCount := n }
    else if name = text "updated_at_ms" then
      (parseInt64 value).map fun n => { summary with updatedAtMs := n }
    else some summary
  | _ => some summary

/-- `detail::ParseConversationSummary`. -/
def parseConversationSummary (payload : Bytes) : Option ConversationSummary :=
  (readLines assignConversationSummary {} payload).bind fun summary =>
    if summary.sessionId = [] then none else some summary

theorem parseConversationSummary_serializeConversationSummary (summary : ConversationSummary)
    (h : summary.sessionId ≠ []) :
    parseConversationSummary (serializeConversationSummary summary) = some summary := by
  unfold parseConversationSummary serializeConversationSummary
  rw [readLines_writeLines]
  · simp +decide [assignConversationSummary, unescape_escape, parseInt64_int64Text,
      parseUInt32_uint32Text, h]
  · simp +decide [isField_escape, isField_int64Text, isField_uint32Text]

/-- The line of a turn in `detail::SerializeLegacyConversation`. -/
def legacyTurnLine (turn : ConversationTurn) : List Bytes :=
  [text "turn", escape turn.role, int64Text turn.createdAtMs, escape turn.content]

/-- `detail::SerializeLegacyConversation`. -/
def serializeLegacyConversation (session : ConversationSession) : Bytes :=
  writeLines
    ([[text "tenant", escape session.tenant],
      [text "app_id", escape session.appId],
      [text "session_id", escape session.sessionId],
      [text "model", escape session.model]] ++ session.turns.map legacyTurnLine)

/-- A line of `detail::ParseLegacyConversation`. -/
def assignLegacyConversation (session : ConversationSession) :
    List Bytes → Option ConversationSession
  | [name, value] =>
    if name = text "tenant" then some { session with tenant := unescape value }
    else if name = text "app_id" then some { session with appId := unescape value }
    else if name = text "session_id" then some { session with sessionId := unescape value }
    else if name = text "model" then some { session with model := unescape value }
    else some session
  | [name, role, createdAt, content] =>
    if name = text "turn" then
      (parseInt64 createdAt).map fun n =>
        { session with turns := session.turns ++ [⟨unescape role, unescape content, n⟩] }
    else some session
  | _ => some session

/-- `detail::ParseLegacyConversation`. -/
def parseLegacyConversation (payload : Bytes) : Option ConversationSession :=
  (readLines assignLegacyConversation {} payload).bind fun session =>
    if session.sessionId = [] then none else some session

theorem foldlM_legacyTurnLine (turns : List ConversationTurn) (session : ConversationSession) :
    (turns.map legacyTurnLine).foldlM assignLegacyConversation session =
      some { session with turns := session.turns ++ turns } := by
  induction turns generalizing session with
  | nil => simp
  | cons turn turns ih =>
    rw [List.map_cons, List.foldlM_cons]
    simp +decide [legacyTurnLine, assignLegacyConversation, unescape_escape, parseInt64_int64Text]
    simp [ih]

theorem parseLegacyConversation_serializeLegacyConversation {session : ConversationSession}
    (h : session.sessionId ≠ []) :
    parseLegacyConversation (serializeLegacyConversation session) = some session := by
  unfold parseLegacyConversation serializeLegacyConversation
  rw [readLines_writeLines, List.foldlM_append]
  · simp +decide [assignLegacyConversation, unescape_escape, foldlM_legacyTurnLine, h]
  · rw [List.forall_mem_append, List.forall_mem_map]
    refine ⟨by simp +decide [isField_escape], ?_⟩
    intro turn _
    simp +decide [legacyTurnLine, isField_escape, isField_int64Text]

theorem parseConversationSummary_serializeConversationTurn (turn : ConversationTurn) :
    parseConversationSummary (serializeConversationTurn turn) = none := by
  unfold parseConversationSummary serializeConversationTurn
  rw [readLines_writeLines]
  · simp +decide [assignConversationSummary]
  · simp +decide [isField_escape, isField_int64Text]

theorem foldlM_legacyTurnLine_summary (turns : List ConversationTurn)
    (summary : ConversationSummary) :
    (turns.map legacyTurnLine).foldlM assignConversationSummary summary = some summary := by
  induction turns with
  | nil => rfl
  | cons turn turns ih =>
    rw [List.map_cons, List.foldlM_cons]
    exact ih

/-- **A legacy record passes for a summary** without turns. -/
theorem parseConversationSummary_serializeLegacyConversation {session : ConversationSession}
    (h : session.sessionId ≠ []) :
    parseConversationSummary (serializeLegacyConversation session) =
      some ⟨session.tenant, session.appId, session.sessionId, session.model, 0, 0⟩ := by
  unfold parseConversationSummary serializeLegacyConversation
  rw [readLines_writeLines, List.foldlM_append]
  · simp +decide [assignConversationSummary, unescape_escape, foldlM_legacyTurnLine_summary, h]
  · rw [List.forall_mem_append, List.forall_mem_map]
    refine ⟨by simp +decide [isField_escape], ?_⟩
    intro turn _
    simp +decide [legacyTurnLine, isField_escape, isField_int64Text]

/-! ### Retrieval chunks -/

/-- The line of a metadata pair in `detail::SerializeRetrievalChunk`. -/
def metadataLine (pair : Bytes × Bytes) : List Bytes := [text "meta", escape pair.1, escape pair.2]

/-- `detail::SerializeRetrievalChunk`. -/
def serializeRetrievalChunk (chunk : RetrievalChunk) : Bytes :=
  writeLines
    ([[text "tenant", escape chunk.tenant],
      [text "knowledge_base", escape chunk.knowledgeBase],
      [text "document_id", escape chunk.documentId],
      [text "chunk_id", escape chunk.chunkId],
      [text "content", escape chunk.content],
      [text "embedding_ref", escape chunk.embeddingRef]] ++ chunk.metadata.map metadataLine)

/-- A line of `detail::ParseRetrievalChunk`. -/
def assignRetrievalChunk (chunk : RetrievalChunk) : List Bytes → Option RetrievalChunk
  | [name, value] =>
    if name = text "tenant" then some { chunk with tenant := unescape value }
    else if name = text "knowledge_base" then some { chunk with knowledgeBase := unescape value }
    else if name = text "document_id" then some { chunk with documentId := unescape value }
    else if name = text "chunk_id" then some { chunk with chunkId := unescape value }
    else if name = text "content" then some { chunk with content := unescape value }
    else if name = text "embedding_ref" then some { chunk with embeddingRef := unescape value }
    else some chunk
  | [name, key, value] =>
    if name = text "meta" then
      some { chunk with metadata := chunk.metadata ++ [(unescape key, unescape value)] }
    else some chunk
  | _ => some chunk

/-- `detail::ParseRetrievalChunk`. -/
def parseRetrievalChunk (payload : Bytes) : Option RetrievalChunk :=
  (readLines assignRetrievalChunk {} payload).bind fun chunk =>
    if chunk.documentId = [] ∨ chunk.chunkId = [] then none else some chunk

theorem foldlM_metadataLine (pairs : List (Bytes × Bytes)) (chunk : RetrievalChunk) :
    (pairs.map metadataLine).foldlM assignRetrievalChunk chunk =
      some { chunk with metadata := chunk.metadata ++ pairs } := by
  induction pairs generalizing chunk with
  | nil => simp
  | cons pair pairs ih =>
    rw [List.map_cons, List.foldlM_cons]
    simp +decide [metadataLine, assignRetrievalChunk, unescape_escape]
    simp [ih]

theorem parseRetrievalChunk_serializeRetrievalChunk {chunk : RetrievalChunk}
    (hd : chunk.documentId ≠ []) (hc : chunk.chunkId ≠ []) :
    parseRetrievalChunk (serializeRetrievalChunk chunk) = some chunk := by
  unfold parseRetrievalChunk serializeRetrievalChunk
  rw [readLines_writeLines, List.foldlM_append]
  · simp +decide [assignRetrievalChunk, unescape_escape, foldlM_metadataLine, hd, hc]
  · rw [List.forall_mem_append, List.forall_mem_map]
    refine ⟨by simp +decide [isField_escape], ?_⟩
    intro pair _
    simp +decide [metadataLine, isField_escape]

/-! ### Runtime configurations -/

/-- `detail::SerializeRuntimeConfig`. -/
def serializeRuntimeConfig (record : RuntimeConfigRecord) : Bytes :=
  writeLines
    [[text "tenant", escape record.tenant],
      [text "app_id", escape record.appId],
      [text "profile", escape record.profile],
      [text "updated_at_ms", int64Text record.updatedAtMs],
      [text "payload", escape record.payload]]

/-- A line of `detail::ParseRuntimeConfig`. -/
def assignRuntimeConfig (record : RuntimeConfigRecord) : List Bytes → Option RuntimeConfigRecord
  | [name, value] =>
    if name = text "tenant" then some { record with tenant := unescape value }
    else if name = text "app_id" then some { record with appId := unescape value }
    else if name = text "profile" then some { record with profile := unescape value }
    else if name = text "updated_at_ms" then
      (parseInt64 value).map fun n => { record with updatedAtMs := n }
    else if name = text "payload" then some { record with payload := unescape value }
    else some record
  | _ => some record

/-- `detail::ParseRuntimeConfig`. -/
def parseRuntimeConfig (payload : Bytes) : Option RuntimeConfigRecord :=
  (readLines assignRuntimeConfig {} payload).bind fun record =>
    if record.profile = [] then none else some record

theorem parseRuntimeConfig_serializeRuntimeConfig {record : RuntimeConfigRecord}
    (h : record.profile ≠ []) :
    parseRuntimeConfig (serializeRuntimeConfig record) = some record := by
  unfold parseRuntimeConfig serializeRuntimeConfig
  rw [readLines_writeLines]
  · simp +decide [assignRuntimeConfig, unescape_escape, parseInt64_int64Text, h]
  · simp +decide [isField_escape, isField_int64Text]

/-! ### All formats -/

/-- **Every record that meets its mandatory fields is read back as it was written**,
whatever bytes its fields hold. -/
theorem records_round_trip :
    (∀ entry : PromptCacheEntry, entry.model ≠ [] → entry.promptHash ≠ [] →
      parsePromptCache (serializePromptCache entry) = some entry) ∧
    (∀ turn : ConversationTurn, turn.role ≠ [] →
      parseConversationTurn (serializeConversationTurn turn) = some turn) ∧
    (∀ summary : ConversationSummary, summary.sessionId ≠ [] →
      parseConversationSummary (serializeConversationSummary summary) = some summary) ∧
    (∀ session : ConversationSession, session.sessionId ≠ [] →
      parseLegacyConversation (serializeLegacyConversation session) = some session) ∧
    (∀ chunk : RetrievalChunk, chunk.documentId ≠ [] → chunk.chunkId ≠ [] →
      parseRetrievalChunk (serializeRetrievalChunk chunk) = some chunk) ∧
    ∀ record : RuntimeConfigRecord, record.profile ≠ [] →
      parseRuntimeConfig (serializeRuntimeConfig record) = some record := by
  refine ⟨?_, ?_, ?_, ?_, ?_, ?_⟩
  · intro entry hm hh
    exact parsePromptCache_serializePromptCache hm hh
  · intro turn h
    rw [parseConversationTurn_serializeConversationTurn, if_neg h]
  · exact parseConversationSummary_serializeConversationSummary
  · intro session h
    exact parseLegacyConversation_serializeLegacyConversation h
  · intro chunk hd hc
    exact parseRetrievalChunk_serializeRetrievalChunk hd hc
  · intro record h
    exact parseRuntimeConfig_serializeRuntimeConfig h

/-- A chunk whose content has a tab, a newline and a backslash, and a session whose turn
has an empty role. -/
theorem records_round_trip_sample :
    (parseRetrievalChunk (serializeRetrievalChunk
        ⟨[], [], [100], [99], [9, 10, 92], [], [([], [9]), ([109], [])]⟩) =
      some ⟨[], [], [100], [99], [9, 10, 92], [], [([], [9]), ([109], [])]⟩) ∧
    parseLegacyConversation (serializeLegacyConversation ⟨[], [], [115], [], [⟨[], [10], -1⟩]⟩) =
      some ⟨[], [], [115], [], [⟨[], [10], -1⟩]⟩ :=
  ⟨records_round_trip.2.2.2.2.1 _ (by decide) (by decide),
    records_round_trip.2.2.2.1 _ (by decide)⟩

end Mokv.LLM
