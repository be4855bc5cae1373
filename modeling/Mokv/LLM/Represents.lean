import Mokv.LLM.Stores

/-!
# What the LLM stores hold

`Records` is what the four stores are for: four independent maps from identifiers to
records.  `Records.payload` says under which keys a record stands in the key-value store,
and `Represents m R` that the store `m` holds `R` and nothing else.

The results are one for each operation: how it changes the records, and what a read
returns.  A conversation is read through its turn records, and a turn with an empty role
does not parse; `visible` is a session without these turns.
-/

namespace Mokv.LLM

open Lib Codec ConversationStore

/-! The identifiers of a record, as `Get` takes them. -/

def PromptCacheEntry.id (e : PromptCacheEntry) : Bytes × Bytes × Bytes × Bytes :=
  (e.tenant, e.appId, e.model, e.promptHash)

def ConversationSession.id (e : ConversationSession) : Bytes × Bytes × Bytes :=
  (e.tenant, e.appId, e.sessionId)

def RetrievalChunk.id (e : RetrievalChunk) : Bytes × Bytes × Bytes × Bytes :=
  (e.tenant, e.knowledgeBase, e.documentId, e.chunkId)

def RuntimeConfigRecord.id (e : RuntimeConfigRecord) : Bytes × Bytes × Bytes :=
  (e.tenant, e.appId, e.profile)

/-- The records of the four stores, by their identifiers. -/
structure Records where
  promptCache : Bytes × Bytes × Bytes × Bytes → Option PromptCacheEntry
  conversation : Bytes × Bytes × Bytes → Option ConversationSession
  retrieval : Bytes × Bytes × Bytes × Bytes → Option RetrievalChunk
  runtimeConfig : Bytes × Bytes × Bytes → Option RuntimeConfigRecord

/-- The session that a key belongs to. -/
def RecordKey.session? : RecordKey → Option (Bytes × Bytes × Bytes)
  | conversation t a s => some (t, a, s)
  | conversationMeta t a s => some (t, a, s)
  | conversationTurn t a s _ => some (t, a, s)
  | _ => none

/-- What a session stores under its keys. -/
def sessionPayload (session : ConversationSession) : RecordKey → Option Bytes
  | .conversation _ _ _ => some (serializeLegacyConversation session)
  | .conversationMeta _ _ _ => some (serializeConversationSummary (summaryOf session))
  | .conversationTurn _ _ _ i => (session.turns[i.toNat]?).map serializeConversationTurn
  | _ => none

namespace Records

def empty : Records := ⟨fun _ => none, fun _ => none, fun _ => none, fun _ => none⟩

/-- What is stored under the key of a record. -/
def payload (R : Records) (k : RecordKey) : Option Bytes :=
  match k with
  | .promptCache t a m h => (R.promptCache (t, a, m, h)).map serializePromptCache
  | .conversation t a s => (R.conversation (t, a, s)).bind (sessionPayload · k)
  | .conversationMeta t a s => (R.conversation (t, a, s)).bind (sessionPayload · k)
  | .conversationTurn t a s _ => (R.conversation (t, a, s)).bind (sessionPayload · k)
  | .retrieval t b d c => (R.retrieval (t, b, d, c)).map serializeRetrievalChunk
  | .runtimeConfig t a p => (R.runtimeConfig (t, a, p)).map serializeRuntimeConfig

/-- The records carry their identifiers and have their mandatory fields, and the turns of a
session can be counted. -/
structure Valid (R : Records) : Prop where
  promptCache : ∀ id e, R.promptCache id = some e → e.id = id ∧ e.model ≠ [] ∧ e.promptHash ≠ []
  conversation : ∀ id e, R.conversation id = some e →
    e.id = id ∧ e.sessionId ≠ [] ∧ e.turns.length < 2 ^ 32
  retrieval : ∀ id e, R.retrieval id = some e → e.id = id ∧ e.documentId ≠ [] ∧ e.chunkId ≠ []
  runtimeConfig : ∀ id e, R.runtimeConfig id = some e → e.id = id ∧ e.profile ≠ []

theorem valid_empty : empty.Valid := by
  constructor <;> · intros; contradiction

/-! Writes of one map.  A payload changes only under the keys of the record. -/

def setPromptCache (R : Records) (id : Bytes × Bytes × Bytes × Bytes)
    (v : Option PromptCacheEntry) : Records :=
  { R with promptCache := Function.update R.promptCache id v }

def setConversation (R : Records) (id : Bytes × Bytes × Bytes) (v : Option ConversationSession) :
    Records :=
  { R with conversation := Function.update R.conversation id v }

def setRetrieval (R : Records) (id : Bytes × Bytes × Bytes × Bytes) (v : Option RetrievalChunk) :
    Records :=
  { R with retrieval := Function.update R.retrieval id v }

def setRuntimeConfig (R : Records) (id : Bytes × Bytes × Bytes) (v : Option RuntimeConfigRecord) :
    Records :=
  { R with runtimeConfig := Function.update R.runtimeConfig id v }

theorem payload_setPromptCache (R : Records) (t a m h : Bytes) (v : Option PromptCacheEntry)
    (k : RecordKey) :
    (R.setPromptCache (t, a, m, h) v).payload k =
      if k = .promptCache t a m h then v.map serializePromptCache else R.payload k := by
  cases k with
  | promptCache t' a' m' h' =>
    show (Function.update R.promptCache (t, a, m, h) v (t', a', m', h')).map _ = _
    rw [Function.update_apply]
    simp only [Prod.mk.injEq, RecordKey.promptCache.injEq]
    split <;> rfl
  | _ => rw [if_neg (by simp)]; rfl

theorem payload_setRetrieval (R : Records) (t b d c : Bytes) (v : Option RetrievalChunk)
    (k : RecordKey) :
    (R.setRetrieval (t, b, d, c) v).payload k =
      if k = .retrieval t b d c then v.map serializeRetrievalChunk else R.payload k := by
  cases k with
  | retrieval t' b' d' c' =>
    show (Function.update R.retrieval (t, b, d, c) v (t', b', d', c')).map _ = _
    rw [Function.update_apply]
    simp only [Prod.mk.injEq, RecordKey.retrieval.injEq]
    split <;> rfl
  | _ => rw [if_neg (by simp)]; rfl

theorem payload_setRuntimeConfig (R : Records) (t a p : Bytes) (v : Option RuntimeConfigRecord)
    (k : RecordKey) :
    (R.setRuntimeConfig (t, a, p) v).payload k =
      if k = .runtimeConfig t a p then v.map serializeRuntimeConfig else R.payload k := by
  cases k with
  | runtimeConfig t' a' p' =>
    show (Function.update R.runtimeConfig (t, a, p) v (t', a', p')).map _ = _
    rw [Function.update_apply]
    simp only [Prod.mk.injEq, RecordKey.runtimeConfig.injEq]
    split <;> rfl
  | _ => rw [if_neg (by simp)]; rfl

theorem payload_of_session (R : Records) {k : RecordKey} {id : Bytes × Bytes × Bytes}
    (h : k.session? = some id) : R.payload k = (R.conversation id).bind (sessionPayload · k) := by
  cases k <;> cases h <;> rfl

theorem payload_setConversation (R : Records) (id : Bytes × Bytes × Bytes)
    (v : Option ConversationSession) (k : RecordKey) :
    (R.setConversation id v).payload k =
      if k.session? = some id then v.bind (sessionPayload · k) else R.payload k := by
  cases hk : k.session? with
  | none =>
    rw [if_neg (by simp)]
    cases k <;> first | rfl | cases hk
  | some id' =>
    rw [payload_of_session _ hk, payload_of_session _ hk]
    show (Function.update R.conversation id v id').bind _ = _
    rw [Function.update_apply]
    simp only [Option.some.injEq]
    split <;> rfl

theorem forall_update {κ ρ : Type} [DecidableEq κ] {f : κ → Option ρ} {P : κ → ρ → Prop}
    (h : ∀ id e, f id = some e → P id e) {i : κ} {v : Option ρ} (hv : ∀ e, v = some e → P i e) :
    ∀ id e, Function.update f i v id = some e → P id e := by
  intro id e he
  rw [Function.update_apply] at he
  split at he
  · subst id
    exact hv e he
  · exact h id e he

section

variable {R : Records} (h : R.Valid)

include h

theorem Valid.setPromptCache {id : Bytes × Bytes × Bytes × Bytes} {v : Option PromptCacheEntry}
    (hv : ∀ e, v = some e → e.id = id ∧ e.model ≠ [] ∧ e.promptHash ≠ []) :
    (R.setPromptCache id v).Valid :=
  ⟨forall_update h.promptCache hv, h.conversation, h.retrieval, h.runtimeConfig⟩

theorem Valid.setConversation {id : Bytes × Bytes × Bytes} {v : Option ConversationSession}
    (hv : ∀ e, v = some e → e.id = id ∧ e.sessionId ≠ [] ∧ e.turns.length < 2 ^ 32) :
    (R.setConversation id v).Valid :=
  ⟨h.promptCache, forall_update h.conversation hv, h.retrieval, h.runtimeConfig⟩

theorem Valid.setRetrieval {id : Bytes × Bytes × Bytes × Bytes} {v : Option RetrievalChunk}
    (hv : ∀ e, v = some e → e.id = id ∧ e.documentId ≠ [] ∧ e.chunkId ≠ []) :
    (R.setRetrieval id v).Valid :=
  ⟨h.promptCache, h.conversation, forall_update h.retrieval hv, h.runtimeConfig⟩

theorem Valid.setRuntimeConfig {id : Bytes × Bytes × Bytes} {v : Option RuntimeConfigRecord}
    (hv : ∀ e, v = some e → e.id = id ∧ e.profile ≠ []) : (R.setRuntimeConfig id v).Valid :=
  ⟨h.promptCache, h.conversation, h.retrieval, forall_update h.runtimeConfig hv⟩

end

end Records

/-- The store holds the records, and nothing else. -/
structure Represents (m : KVMap) (R : Records) : Prop where
  valid : R.Valid
  get : ∀ k : RecordKey, m.get k.key = R.payload k
  key : ∀ k, (m.get k).isSome → ∃ r : RecordKey, k = r.key

theorem represents_empty : Represents KVMap.empty Records.empty := by
  refine ⟨Records.valid_empty, ?_, by simp⟩
  intro k
  cases k <;> rfl

/-! ### Writing one record -/

section

variable {m : KVMap} {R R' : Records}

theorem Represents.put (h : Represents m R) (hv : R'.Valid) {k : RecordKey} {v : Bytes}
    (hpay : ∀ j, R'.payload j = if j = k then some v else R.payload j) :
    Represents (m.put k.key v) R' := by
  refine ⟨hv, ?_, ?_⟩
  · intro j
    rw [m.get_put, hpay, h.get]
    by_cases hj : j = k
    · rw [if_pos (congrArg RecordKey.key hj), if_pos hj]
    · rw [if_neg fun he => hj (RecordKey.key_injective he), if_neg hj]
  · intro j hj
    rw [m.get_put] at hj
    split at hj
    · exact ⟨k, ‹_›⟩
    · exact h.key j hj

theorem Represents.delete (h : Represents m R) (hv : R'.Valid) {k : RecordKey}
    (hpay : ∀ j, R'.payload j = if j = k then none else R.payload j) :
    Represents (m.delete k.key) R' := by
  refine ⟨hv, ?_, ?_⟩
  · intro j
    rw [m.get_delete, hpay, h.get]
    by_cases hj : j = k
    · rw [if_pos (congrArg RecordKey.key hj), if_pos hj]
    · rw [if_neg fun he => hj (RecordKey.key_injective he), if_neg hj]
  · intro j hj
    rw [m.get_delete] at hj
    split at hj
    · cases hj
    · exact h.key j hj

/-! Each of the three stores with one record for an identifier: what `Put`, `Delete` and
`Get` do. -/

theorem Represents.putPromptCache (h : Represents m R) (entry : PromptCacheEntry) :
    Represents ((PromptCacheStore.put entry).run m).2
      (if entry.promptHash = [] ∨ entry.model = [] then R
        else R.setPromptCache entry.id (some entry)) := by
  unfold PromptCacheStore.put
  split
  · exact h
  · rename_i hne
    rw [not_or] at hne
    refine Represents.put (k := .promptCache _ _ _ _) h (h.valid.setPromptCache ?_)
      (R.payload_setPromptCache _ _ _ _ (some entry))
    rintro e ⟨⟩
    exact ⟨rfl, hne.2, hne.1⟩

theorem Represents.deletePromptCache (h : Represents m R) (t a mo p : Bytes) :
    Represents ((PromptCacheStore.delete t a mo p).run m).2 (R.setPromptCache (t, a, mo, p) none) :=
  Represents.delete (k := .promptCache t a mo p) h (h.valid.setPromptCache (by simp))
    (R.payload_setPromptCache t a mo p none)

theorem Represents.getPromptCache (h : Represents m R) (t a mo p : Bytes) :
    ((PromptCacheStore.get t a mo p).run m).1 = R.promptCache (t, a, mo, p) := by
  show (m.get (RecordKey.promptCache t a mo p).key).bind parsePromptCache = _
  rw [h.get]
  show ((R.promptCache (t, a, mo, p)).map serializePromptCache).bind parsePromptCache = _
  cases he : R.promptCache (t, a, mo, p) with
  | none => rfl
  | some e =>
    obtain ⟨-, hm, hp⟩ := h.valid.promptCache _ e he
    exact parsePromptCache_serializePromptCache hm hp

theorem Represents.putRetrieval (h : Represents m R) (chunk : RetrievalChunk) :
    Represents ((RetrievalStore.put chunk).run m).2
      (if chunk.documentId = [] ∨ chunk.chunkId = [] then R
        else R.setRetrieval chunk.id (some chunk)) := by
  unfold RetrievalStore.put
  split
  · exact h
  · rename_i hne
    rw [not_or] at hne
    refine Represents.put (k := .retrieval _ _ _ _) h (h.valid.setRetrieval ?_)
      (R.payload_setRetrieval _ _ _ _ (some chunk))
    rintro e ⟨⟩
    exact ⟨rfl, hne.1, hne.2⟩

theorem Represents.deleteRetrieval (h : Represents m R) (t b d c : Bytes) :
    Represents ((RetrievalStore.delete t b d c).run m).2 (R.setRetrieval (t, b, d, c) none) :=
  Represents.delete (k := .retrieval t b d c) h (h.valid.setRetrieval (by simp))
    (R.payload_setRetrieval t b d c none)

theorem Represents.getRetrieval (h : Represents m R) (t b d c : Bytes) :
    ((RetrievalStore.get t b d c).run m).1 = R.retrieval (t, b, d, c) := by
  show (m.get (RecordKey.retrieval t b d c).key).bind parseRetrievalChunk = _
  rw [h.get]
  show ((R.retrieval (t, b, d, c)).map serializeRetrievalChunk).bind parseRetrievalChunk = _
  cases he : R.retrieval (t, b, d, c) with
  | none => rfl
  | some e =>
    obtain ⟨-, hd, hc⟩ := h.valid.retrieval _ e he
    exact parseRetrievalChunk_serializeRetrievalChunk hd hc

theorem Represents.putRuntimeConfig (h : Represents m R) (record : RuntimeConfigRecord) :
    Represents ((RuntimeConfigStore.put record).run m).2
      (if record.profile = [] then R else R.setRuntimeConfig record.id (some record)) := by
  unfold RuntimeConfigStore.put
  split
  · exact h
  · refine Represents.put (k := .runtimeConfig _ _ _) h (h.valid.setRuntimeConfig ?_)
      (R.payload_setRuntimeConfig _ _ _ (some record))
    rintro e ⟨⟩
    exact ⟨rfl, ‹_›⟩

theorem Represents.deleteRuntimeConfig (h : Represents m R) (t a p : Bytes) :
    Represents ((RuntimeConfigStore.delete t a p).run m).2 (R.setRuntimeConfig (t, a, p) none) :=
  Represents.delete (k := .runtimeConfig t a p) h (h.valid.setRuntimeConfig (by simp))
    (R.payload_setRuntimeConfig t a p none)

theorem Represents.getRuntimeConfig (h : Represents m R) (t a p : Bytes) :
    ((RuntimeConfigStore.get t a p).run m).1 = R.runtimeConfig (t, a, p) := by
  show (m.get (RecordKey.runtimeConfig t a p).key).bind parseRuntimeConfig = _
  rw [h.get]
  show ((R.runtimeConfig (t, a, p)).map serializeRuntimeConfig).bind parseRuntimeConfig = _
  cases he : R.runtimeConfig (t, a, p) with
  | none => rfl
  | some e => exact parseRuntimeConfig_serializeRuntimeConfig (h.valid.runtimeConfig _ e he).2

end

end Mokv.LLM
