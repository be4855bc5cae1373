import Mokv.LLM.Backend

/-!
# The listings of the LLM stores

A listing scans the keys that start with the joined identifiers, and nothing ends the last
of them.  So the scan also meets the records whose last identifier only starts with the
one that was asked for.

* `Represents.mem_listPromptCache` and its siblings: what a listing returns.
* `listing_exact_iff`: a listing is exact if and only if no stored record has an identifier
  that properly extends the last one.
-/

namespace Mokv.LLM

open Lib Codec ConversationStore DBKVStore

/-! ### The keys that a scan meets -/

namespace RecordKey

theorem take_eq_iff (pre key : Bytes) : key.take pre.length = pre ↔ pre <+: key := by
  rw [eq_comm, ← List.prefix_iff_eq_take]

theorem promptCachePrefix_isPrefix {t a m : Bytes} (hm : m ≠ []) {k : RecordKey}
    (hk : ∀ t' a' h, k ≠ promptCache t' a' [] h) :
    Keyspace.promptCachePrefix t a m <+: k.key ↔ ∃ m' h, k = promptCache t a m' h ∧ m <+: m' := by
  have hpre : Keyspace.promptCachePrefix t a m =
      joinKeyParts ([text "llm", text "prompt-cache", t, a] ++ [m]) := by
    rw [Keyspace.promptCachePrefix, if_neg hm, appendKeyPart_joinKeyParts (by simp)]
  rw [hpre, k.key_eq, joinKeyParts_isPrefix_iff (by simp) k.parts_ne_nil]
  cases k with
  | promptCache t' a' m' h =>
    have hm' : m' ≠ [] := fun he => hk t' a' h (by rw [he])
    simp [parts, hm']
  | conversation t' a' s => simp +decide [parts]
  | conversationMeta t' a' s => simp +decide [parts]
  | conversationTurn t' a' s i => simp +decide [parts]
  | retrieval t' b d c => simp +decide [parts]
  | runtimeConfig t' a' p => simp +decide [parts]

theorem retrievalPrefix_isPrefix {t b d : Bytes} (hd : d ≠ []) {k : RecordKey}
    (hk : ∀ t' b' c, k ≠ retrieval t' b' [] c) :
    Keyspace.retrievalPrefix t b d <+: k.key ↔ ∃ d' c, k = retrieval t b d' c ∧ d <+: d' := by
  have hpre : Keyspace.retrievalPrefix t b d =
      joinKeyParts ([text "llm", text "retrieval", t, b] ++ [d]) := by
    rw [Keyspace.retrievalPrefix, if_neg hd, appendKeyPart_joinKeyParts (by simp)]
  rw [hpre, k.key_eq, joinKeyParts_isPrefix_iff (by simp) k.parts_ne_nil]
  cases k with
  | retrieval t' b' d' c =>
    have hd' : d' ≠ [] := fun he => hk t' b' c (by rw [he])
    simp [parts, hd']
  | promptCache t' a' m h => simp +decide [parts]
  | conversation t' a' s => simp +decide [parts]
  | conversationMeta t' a' s => simp +decide [parts]
  | conversationTurn t' a' s i => simp +decide [parts]
  | runtimeConfig t' a' p => simp +decide [parts]

theorem runtimeConfigPrefix_isPrefix (t a : Bytes) (k : RecordKey) :
    Keyspace.runtimeConfigPrefix t a <+: k.key ↔ ∃ a' p, k = runtimeConfig t a' p ∧ a <+: a' := by
  show joinKeyParts ([text "llm", text "runtime-config", t] ++ [a]) <+: _ ↔ _
  rw [k.key_eq, joinKeyParts_isPrefix_iff (by simp) k.parts_ne_nil]
  cases k with
  | runtimeConfig t' a' p => simp [parts]
  | promptCache t' a' m h => simp +decide [parts]
  | conversation t' a' s => simp +decide [parts]
  | conversationMeta t' a' s => simp +decide [parts]
  | conversationTurn t' a' s i => simp +decide [parts]
  | retrieval t' b d c => simp +decide [parts]

theorem conversationPrefix_isPrefix (t a : Bytes) (k : RecordKey) :
    Keyspace.conversationPrefix t a <+: k.key ↔
      ∃ a' s, k.session? = some (t, a', s) ∧ a <+: a' := by
  show joinKeyParts ([text "llm", text "conversation", t] ++ [a]) <+: _ ↔ _
  rw [k.key_eq, joinKeyParts_isPrefix_iff (by simp) k.parts_ne_nil]
  cases k with
  | conversation t' a' s => simp [parts, session?]
  | conversationMeta t' a' s => simp [parts, session?]
  | conversationTurn t' a' s i => simp [parts, session?]
  | runtimeConfig t' a' p => simp +decide [parts, session?]
  | promptCache t' a' m h => simp +decide [parts, session?]
  | retrieval t' b d c => simp +decide [parts, session?]

end RecordKey

/-! ### What the listings return -/

section

variable {m : KVMap} {R : Records}

/-- **A scan meets the records whose keys start with the prefix.** -/
theorem Represents.mem_scan (h : Represents m R) (pre : Bytes) {item : Entry} :
    item ∈ m.listEntriesByPrefix pre ↔
      ∃ k : RecordKey, item.1 = k.key ∧ R.payload k = some item.2 ∧ pre <+: k.key := by
  rw [m.mem_listEntriesByPrefix, RecordKey.take_eq_iff]
  constructor
  · rintro ⟨hget, hpre⟩
    obtain ⟨k, hk⟩ := h.key item.1 (by rw [hget]; rfl)
    rw [hk] at hget hpre
    exact ⟨k, hk, (h.get k).symm.trans hget, hpre⟩
  · rintro ⟨k, hk, hpay, hpre⟩
    rw [hk]
    exact ⟨(h.get k).trans hpay, hpre⟩

/-- **A listing of records of one kind**: what the scan meets are records `P` under their keys,
and they parse. -/
theorem nodup_and_mem_parsed {pre : Bytes} {α : Type} {P : α → Prop} {keyOf serialize : α → Bytes}
    {parse : Bytes → Option α}
    (hscan : ∀ item, item ∈ m.listEntriesByPrefix pre ↔ ∃ e, P e ∧ item = (keyOf e, serialize e))
    (hparse : ∀ e, P e → parse (serialize e) = some e) :
    ((m.listEntriesByPrefix pre).filterMap fun item => parse item.2).Nodup ∧
      ∀ e, (e ∈ (m.listEntriesByPrefix pre).filterMap fun item => parse item.2) ↔ P e := by
  have hkey : ∀ item ∈ m.listEntriesByPrefix pre, ∀ e, parse item.2 = some e →
      P e ∧ keyOf e = item.1 := by
    intro item hmem e he
    obtain ⟨e', hP, rfl⟩ := (hscan item).mp hmem
    obtain rfl := Option.some.inj ((hparse e' hP).symm.trans he)
    exact ⟨hP, rfl⟩
  constructor
  · refine List.pairwise_filterMap.mpr ?_
    refine (m.sorted_listEntriesByPrefix pre).imp_of_mem ?_
    intro item item' hmem hmem' hlt e he e' he' heq
    rw [← (hkey item hmem e he).2, ← (hkey item' hmem' e' he').2, heq] at hlt
    exact absurd hlt (lt_irrefl _)
  · intro e
    rw [List.mem_filterMap]
    constructor
    · rintro ⟨item, hmem, he⟩
      exact (hkey item hmem e he).1
    · intro hP
      exact ⟨_, (hscan _).mpr ⟨e, hP, rfl⟩, hparse e hP⟩

/-- The entries whose model starts with the one asked for. -/
def Records.PromptCacheUnder (R : Records) (t a mo : Bytes) (e : PromptCacheEntry) : Prop :=
  R.promptCache e.id = some e ∧ e.tenant = t ∧ e.appId = a ∧ mo <+: e.model

theorem Represents.scan_promptCache (h : Represents m R) {t a mo : Bytes} (hmo : mo ≠ [])
    (item : Entry) :
    item ∈ m.listEntriesByPrefix (Keyspace.promptCachePrefix t a mo) ↔
      ∃ e, R.PromptCacheUnder t a mo e ∧
        item = (Keyspace.promptCache e.tenant e.appId e.model e.promptHash,
          serializePromptCache e) := by
  rw [h.mem_scan]
  constructor
  · rintro ⟨k, hk, hpay, hpre⟩
    have hmodel : ∀ t' a' p, k ≠ .promptCache t' a' [] p := by
      rintro t' a' p rfl
      obtain ⟨e, he, -⟩ := Option.map_eq_some_iff.mp hpay
      obtain ⟨hid, hm, -⟩ := h.valid.promptCache _ e he
      exact hm (congrArg (·.2.2.1) hid)
    obtain ⟨mo', p, rfl, hle⟩ := (RecordKey.promptCachePrefix_isPrefix hmo hmodel).mp hpre
    obtain ⟨e, he, hser⟩ := Option.map_eq_some_iff.mp hpay
    have hid := (h.valid.promptCache _ e he).1
    rw [← hid] at he
    obtain ⟨rfl, rfl, rfl, rfl⟩ :
        e.tenant = t ∧ e.appId = a ∧ e.model = mo' ∧ e.promptHash = p := by
      simpa [PromptCacheEntry.id] using hid
    exact ⟨e, ⟨he, rfl, rfl, hle⟩, Prod.ext hk hser.symm⟩
  · rintro ⟨e, ⟨he, rfl, rfl, hle⟩, rfl⟩
    refine ⟨.promptCache e.tenant e.appId e.model e.promptHash, rfl,
      congrArg (Option.map serializePromptCache) he, ?_⟩
    refine (RecordKey.promptCachePrefix_isPrefix hmo ?_).mpr ⟨_, _, rfl, hle⟩
    intro t' a' p' heq
    exact (h.valid.promptCache _ e he).2.1 (RecordKey.promptCache.inj heq).2.2.1

theorem Represents.listPromptCache (h : Represents m R) {t a mo : Bytes} (hmo : mo ≠ []) :
    ((PromptCacheStore.list t a mo).run m).1.Nodup ∧
      ∀ e, e ∈ ((PromptCacheStore.list t a mo).run m).1 ↔ R.PromptCacheUnder t a mo e := by
  show (List.insertionSort _ _).Nodup ∧ ∀ e, e ∈ List.insertionSort _ _ ↔ _
  rw [(List.perm_insertionSort _ _).nodup_iff]
  simp only [List.mem_insertionSort]
  refine nodup_and_mem_parsed (h.scan_promptCache hmo) ?_
  intro e he
  obtain ⟨-, hm, hp⟩ := h.valid.promptCache _ e he.1
  exact parsePromptCache_serializePromptCache hm hp

/-- The chunks whose document starts with the one asked for. -/
def Records.RetrievalUnder (R : Records) (t b d : Bytes) (e : RetrievalChunk) : Prop :=
  R.retrieval e.id = some e ∧ e.tenant = t ∧ e.knowledgeBase = b ∧ d <+: e.documentId

theorem Represents.scan_retrieval (h : Represents m R) {t b d : Bytes} (hd : d ≠ [])
    (item : Entry) :
    item ∈ m.listEntriesByPrefix (Keyspace.retrievalPrefix t b d) ↔
      ∃ e, R.RetrievalUnder t b d e ∧
        item = (Keyspace.retrieval e.tenant e.knowledgeBase e.documentId e.chunkId,
          serializeRetrievalChunk e) := by
  rw [h.mem_scan]
  constructor
  · rintro ⟨k, hk, hpay, hpre⟩
    have hdocument : ∀ t' b' c, k ≠ .retrieval t' b' [] c := by
      rintro t' b' c rfl
      obtain ⟨e, he, -⟩ := Option.map_eq_some_iff.mp hpay
      obtain ⟨hid, hm, -⟩ := h.valid.retrieval _ e he
      exact hm (congrArg (·.2.2.1) hid)
    obtain ⟨d', c, rfl, hle⟩ := (RecordKey.retrievalPrefix_isPrefix hd hdocument).mp hpre
    obtain ⟨e, he, hser⟩ := Option.map_eq_some_iff.mp hpay
    have hid := (h.valid.retrieval _ e he).1
    rw [← hid] at he
    obtain ⟨rfl, rfl, rfl, rfl⟩ :
        e.tenant = t ∧ e.knowledgeBase = b ∧ e.documentId = d' ∧ e.chunkId = c := by
      simpa [RetrievalChunk.id] using hid
    exact ⟨e, ⟨he, rfl, rfl, hle⟩, Prod.ext hk hser.symm⟩
  · rintro ⟨e, ⟨he, rfl, rfl, hle⟩, rfl⟩
    refine ⟨.retrieval e.tenant e.knowledgeBase e.documentId e.chunkId, rfl,
      congrArg (Option.map serializeRetrievalChunk) he, ?_⟩
    refine (RecordKey.retrievalPrefix_isPrefix hd ?_).mpr ⟨_, _, rfl, hle⟩
    intro t' b' c' heq
    exact (h.valid.retrieval _ e he).2.1 (RecordKey.retrieval.inj heq).2.2.1

theorem Represents.listRetrieval (h : Represents m R) {t b d : Bytes} (hd : d ≠ []) :
    ((RetrievalStore.list t b d).run m).1.Nodup ∧
      ∀ e, e ∈ ((RetrievalStore.list t b d).run m).1 ↔ R.RetrievalUnder t b d e := by
  refine nodup_and_mem_parsed (h.scan_retrieval hd) ?_
  intro e he
  obtain ⟨-, hdoc, hchunk⟩ := h.valid.retrieval _ e he.1
  exact parseRetrievalChunk_serializeRetrievalChunk hdoc hchunk

/-- The configurations whose app starts with the one asked for. -/
def Records.RuntimeConfigUnder (R : Records) (t a : Bytes) (e : RuntimeConfigRecord) : Prop :=
  R.runtimeConfig e.id = some e ∧ e.tenant = t ∧ a <+: e.appId

theorem Represents.scan_runtimeConfig (h : Represents m R) (t a : Bytes) (item : Entry) :
    item ∈ m.listEntriesByPrefix (Keyspace.runtimeConfigPrefix t a) ↔
      ∃ e, R.RuntimeConfigUnder t a e ∧
        item = (Keyspace.runtimeConfig e.tenant e.appId e.profile, serializeRuntimeConfig e) := by
  rw [h.mem_scan]
  constructor
  · rintro ⟨k, hk, hpay, hpre⟩
    obtain ⟨a', p, rfl, hle⟩ := (RecordKey.runtimeConfigPrefix_isPrefix t a k).mp hpre
    obtain ⟨e, he, hser⟩ := Option.map_eq_some_iff.mp hpay
    have hid := (h.valid.runtimeConfig _ e he).1
    rw [← hid] at he
    obtain ⟨rfl, rfl, rfl⟩ : e.tenant = t ∧ e.appId = a' ∧ e.profile = p := by
      simpa [RuntimeConfigRecord.id] using hid
    exact ⟨e, ⟨he, rfl, hle⟩, Prod.ext hk hser.symm⟩
  · rintro ⟨e, ⟨he, rfl, hle⟩, rfl⟩
    refine ⟨.runtimeConfig e.tenant e.appId e.profile, rfl,
      congrArg (Option.map serializeRuntimeConfig) he, ?_⟩
    exact (RecordKey.runtimeConfigPrefix_isPrefix _ _ _).mpr ⟨_, _, rfl, hle⟩

theorem Represents.listRuntimeConfig (h : Represents m R) (t a : Bytes) :
    ((RuntimeConfigStore.list t a).run m).1.Nodup ∧
      ∀ e, e ∈ ((RuntimeConfigStore.list t a).run m).1 ↔ R.RuntimeConfigUnder t a e := by
  show (List.insertionSort _ _).Nodup ∧ ∀ e, e ∈ List.insertionSort _ _ ↔ _
  rw [(List.perm_insertionSort _ _).nodup_iff]
  simp only [List.mem_insertionSort]
  refine nodup_and_mem_parsed (h.scan_runtimeConfig t a) ?_
  intro e he
  exact parseRuntimeConfig_serializeRuntimeConfig (h.valid.runtimeConfig _ e he.1).2

theorem endsWith_conversationMeta (t a s : Bytes) :
    endsWith (Keyspace.conversationMeta t a s) (text ":meta") = true := by
  have hkey : Keyspace.conversationMeta t a s =
      Keyspace.conversationSessionPrefix t a s ++ text ":meta" := by
    rw [Keyspace.conversationMeta, appendKeyPart]
    rfl
  rw [hkey, endsWith, List.length_append, Nat.add_sub_cancel, List.drop_left]
  simp

theorem summary_of_payload {session : ConversationSession} (hs : session.sessionId ≠ [])
    {k : RecordKey} {payload : Bytes} (hpay : sessionPayload session k = some payload)
    {summary : ConversationSummary} (hparse : parseConversationSummary payload = some summary) :
    summary.tenant = session.tenant ∧ summary.appId = session.appId := by
  cases k with
  | conversation t a s =>
    obtain rfl := Option.some.inj hpay
    rw [parseConversationSummary_serializeLegacyConversation hs] at hparse
    obtain rfl := Option.some.inj hparse
    exact ⟨rfl, rfl⟩
  | conversationMeta t a s =>
    obtain rfl := Option.some.inj hpay
    rw [parseConversationSummary_serializeConversationSummary (summaryOf session) hs] at hparse
    obtain rfl := Option.some.inj hparse
    exact ⟨rfl, rfl⟩
  | conversationTurn t a s i =>
    obtain ⟨turn, -, rfl⟩ := Option.map_eq_some_iff.mp hpay
    rw [parseConversationSummary_serializeConversationTurn] at hparse
    cases hparse
  | promptCache t a mo p => cases hpay
  | retrieval t b d c => cases hpay
  | runtimeConfig t a p => cases hpay

/-- The sessions whose app starts with the one asked for. -/
def Records.ConversationUnder (R : Records) (t a : Bytes) (session : ConversationSession) : Prop :=
  R.conversation session.id = some session ∧ session.tenant = t ∧ a <+: session.appId

/-- **`ConversationStore::List` returns summaries of these sessions**, -/
theorem Represents.of_mem_listConversation (h : Represents m R) {t a : Bytes}
    {summary : ConversationSummary} (hmem : summary ∈ ((ConversationStore.list t a).run m).1) :
    ∃ session, R.ConversationUnder t a session ∧ summary.tenant = session.tenant ∧
      summary.appId = session.appId := by
  obtain ⟨item, hitem, hparse⟩ := List.mem_filterMap.mp ((List.mem_insertionSort _).mp hmem)
  obtain ⟨k, -, hpay, hpre⟩ := (h.mem_scan _).mp (List.mem_of_mem_filter hitem)
  obtain ⟨a', s, hsession, hle⟩ := (RecordKey.conversationPrefix_isPrefix t a k).mp hpre
  rw [R.payload_of_session hsession] at hpay
  obtain ⟨session, he, hsaved⟩ := Option.bind_eq_some_iff.mp hpay
  obtain ⟨hid, hs, -⟩ := h.valid.conversation _ session he
  rw [← hid] at he
  obtain ⟨rfl, rfl, rfl⟩ : session.tenant = t ∧ session.appId = a' ∧ session.sessionId = s := by
    simpa [ConversationSession.id] using hid
  exact ⟨session, ⟨he, rfl, hle⟩, summary_of_payload hs hsaved hparse⟩

theorem Represents.mem_listConversation (h : Represents m R) {t a : Bytes}
    {session : ConversationSession} (hsession : R.ConversationUnder t a session) :
    summaryOf session ∈ ((ConversationStore.list t a).run m).1 := by
  obtain ⟨he, rfl, hle⟩ := hsession
  obtain ⟨-, hs, -⟩ := h.valid.conversation _ session he
  refine (List.mem_insertionSort _).mpr (List.mem_filterMap.mpr ?_)
  refine ⟨(Keyspace.conversationMeta session.tenant session.appId session.sessionId,
    serializeConversationSummary (summaryOf session)), List.mem_filter.mpr ⟨?_, ?_⟩, ?_⟩
  · refine (h.mem_scan _).mpr
      ⟨.conversationMeta session.tenant session.appId session.sessionId, rfl, ?_, ?_⟩
    · rw [R.payload_of_session rfl]
      exact congrArg (Option.bind · _) he
    · exact (RecordKey.conversationPrefix_isPrefix _ _ _).mpr ⟨_, _, rfl, hle⟩
  · exact endsWith_conversationMeta _ _ _
  · exact parseConversationSummary_serializeConversationSummary (summaryOf session) hs

/-! ### Exact listings -/

/-- The list holds what `P` says, everything once. -/
def ListsExactly {α : Type} (l : List α) (P : α → Prop) : Prop := l.Nodup ∧ ∀ x, x ∈ l ↔ P x

theorem Represents.listPromptCache_exact_iff (h : Represents m R) {t a mo : Bytes} (hmo : mo ≠ []) :
    ListsExactly ((PromptCacheStore.list t a mo).run m).1
        (fun e => R.promptCache e.id = some e ∧ e.tenant = t ∧ e.appId = a ∧ e.model = mo) ↔
      ∀ mo' p, (R.promptCache (t, a, mo', p)).isSome → mo <+: mo' → mo' = mo := by
  obtain ⟨hnodup, hmem⟩ := h.listPromptCache (t := t) (a := a) hmo
  constructor
  · rintro ⟨-, hexact⟩ mo' p hsome hle
    obtain ⟨e, he⟩ := Option.isSome_iff_exists.mp hsome
    have hid := (h.valid.promptCache _ e he).1
    rw [← hid] at he
    obtain ⟨rfl, rfl, rfl, rfl⟩ :
        e.tenant = t ∧ e.appId = a ∧ e.model = mo' ∧ e.promptHash = p := by
      simpa [PromptCacheEntry.id] using hid
    exact ((hexact e).mp ((hmem e).mpr ⟨he, rfl, rfl, hle⟩)).2.2.2
  · intro hno
    refine ⟨hnodup, ?_⟩
    intro e
    rw [hmem]
    constructor
    · rintro ⟨he, rfl, rfl, hle⟩
      exact ⟨he, rfl, rfl, hno e.model e.promptHash (Option.isSome_of_mem he) hle⟩
    · rintro ⟨he, rfl, rfl, rfl⟩
      exact ⟨he, rfl, rfl, List.prefix_refl _⟩

theorem Represents.listRetrieval_exact_iff (h : Represents m R) {t b d : Bytes} (hd : d ≠ []) :
    ListsExactly ((RetrievalStore.list t b d).run m).1
        (fun e => R.retrieval e.id = some e ∧ e.tenant = t ∧ e.knowledgeBase = b ∧
          e.documentId = d) ↔
      ∀ d' c, (R.retrieval (t, b, d', c)).isSome → d <+: d' → d' = d := by
  obtain ⟨hnodup, hmem⟩ := h.listRetrieval (t := t) (b := b) hd
  constructor
  · rintro ⟨-, hexact⟩ d' c hsome hle
    obtain ⟨e, he⟩ := Option.isSome_iff_exists.mp hsome
    have hid := (h.valid.retrieval _ e he).1
    rw [← hid] at he
    obtain ⟨rfl, rfl, rfl, rfl⟩ :
        e.tenant = t ∧ e.knowledgeBase = b ∧ e.documentId = d' ∧ e.chunkId = c := by
      simpa [RetrievalChunk.id] using hid
    exact ((hexact e).mp ((hmem e).mpr ⟨he, rfl, rfl, hle⟩)).2.2.2
  · intro hno
    refine ⟨hnodup, ?_⟩
    intro e
    rw [hmem]
    constructor
    · rintro ⟨he, rfl, rfl, hle⟩
      exact ⟨he, rfl, rfl, hno e.documentId e.chunkId (Option.isSome_of_mem he) hle⟩
    · rintro ⟨he, rfl, rfl, rfl⟩
      exact ⟨he, rfl, rfl, List.prefix_refl _⟩

theorem Represents.listRuntimeConfig_only_iff (h : Represents m R) (t a : Bytes) :
    (∀ e ∈ ((RuntimeConfigStore.list t a).run m).1, e.tenant = t ∧ e.appId = a) ↔
      ∀ a' p, (R.runtimeConfig (t, a', p)).isSome → a <+: a' → a' = a := by
  have hmem := (h.listRuntimeConfig t a).2
  constructor
  · intro honly a' p hsome hle
    obtain ⟨e, he⟩ := Option.isSome_iff_exists.mp hsome
    have hid := (h.valid.runtimeConfig _ e he).1
    rw [← hid] at he
    obtain ⟨rfl, rfl, rfl⟩ : e.tenant = t ∧ e.appId = a' ∧ e.profile = p := by
      simpa [RuntimeConfigRecord.id] using hid
    exact (honly e ((hmem e).mpr ⟨he, rfl, hle⟩)).2
  · intro hno e hlisted
    obtain ⟨he, rfl, hle⟩ := (hmem e).mp hlisted
    exact ⟨rfl, hno e.appId e.profile (Option.isSome_of_mem he) hle⟩

theorem Represents.listConversation_only_iff (h : Represents m R) (t a : Bytes) :
    (∀ e ∈ ((ConversationStore.list t a).run m).1, e.tenant = t ∧ e.appId = a) ↔
      ∀ a' s, (R.conversation (t, a', s)).isSome → a <+: a' → a' = a := by
  constructor
  · intro honly a' s hsome hle
    obtain ⟨session, he⟩ := Option.isSome_iff_exists.mp hsome
    have hid := (h.valid.conversation _ session he).1
    rw [← hid] at he
    obtain ⟨rfl, rfl, rfl⟩ : session.tenant = t ∧ session.appId = a' ∧ session.sessionId = s := by
      simpa [ConversationSession.id] using hid
    exact (honly _ (h.mem_listConversation ⟨he, rfl, hle⟩)).2
  · intro hno summary hmem
    obtain ⟨session, ⟨he, rfl, hle⟩, htenant, happ⟩ := h.of_mem_listConversation hmem
    refine ⟨htenant, happ.trans ?_⟩
    exact hno session.appId session.sessionId (Option.isSome_of_mem he) hle

end

theorem exists_represents_seen (calls : List Call)
    (hfits : StepsOk step (fun m call => call.Fits m) KVMap.empty calls) :
    ∃ m, run step KVMap.empty calls = some m ∧
      Represents m (calls.foldl Records.stepSeen Records.empty) := by
  obtain ⟨m, hrun⟩ := exists_run (fun m call _ => ⟨_, rfl⟩) hfits
  refine ⟨m, hrun, ?_⟩
  refine run_induction
    (P := fun calls m => Represents m (calls.foldl Records.stepSeen Records.empty)) represents_empty
    ?_ calls m hrun hfits
  intro calls m call t _ hrep hfit ht
  obtain rfl : (call.prog.run m).2 = t := Option.some.inj ht
  rw [List.foldl_append]
  exact hrep.step hfit

/-- **When the listings are exact.**  On a `DBKVStore` after any calls, a listing returns exactly
the records of its identifiers if and only if no record with the other identifiers has one that
properly extends the last. -/
theorem listing_exact_iff (cfg : DBConfig) (files : LSM.Files) (calls : List Call)
    (hfits : StepsOk step (fun m call => call.Fits m) KVMap.empty calls) :
    let s := calls.foldl (stepDB cfg) (ofDB (DB.new files))
    let R := calls.foldl Records.stepSeen Records.empty
    (∀ t a mo, mo ≠ [] →
      (ListsExactly ((PromptCacheStore.list t a mo).runDB cfg s).1
          (fun e => R.promptCache e.id = some e ∧ e.tenant = t ∧ e.appId = a ∧ e.model = mo) ↔
        ∀ mo' p, (R.promptCache (t, a, mo', p)).isSome → mo <+: mo' → mo' = mo)) ∧
    (∀ t b d, d ≠ [] →
      (ListsExactly ((RetrievalStore.list t b d).runDB cfg s).1
          (fun e => R.retrieval e.id = some e ∧ e.tenant = t ∧ e.knowledgeBase = b ∧
            e.documentId = d) ↔
        ∀ d' c, (R.retrieval (t, b, d', c)).isSome → d <+: d' → d' = d)) ∧
    (∀ t a,
      (∀ e ∈ ((RuntimeConfigStore.list t a).runDB cfg s).1, e.tenant = t ∧ e.appId = a) ↔
        ∀ a' p, (R.runtimeConfig (t, a', p)).isSome → a <+: a' → a' = a) ∧
    ∀ t a,
      (∀ e ∈ ((ConversationStore.list t a).runDB cfg s).1, e.tenant = t ∧ e.appId = a) ↔
        ∀ a' s', (R.conversation (t, a', s')).isSome → a <+: a' → a' = a := by
  obtain ⟨m, hrun, hrep⟩ := exists_represents_seen calls hfits
  have hag := agrees_run cfg (agrees_new files) hrun
  refine ⟨?_, ?_, ?_, ?_⟩
  · intro t a mo hmo
    have hlist : (PromptCacheStore.list t a mo).Allowed := fun _ => trivial
    rw [(Prog.runDB_eq_run cfg _ hlist hag).1]
    exact hrep.listPromptCache_exact_iff hmo
  · intro t b d hd
    have hlist : (RetrievalStore.list t b d).Allowed := fun _ => trivial
    rw [(Prog.runDB_eq_run cfg _ hlist hag).1]
    exact hrep.listRetrieval_exact_iff hd
  · intro t a
    have hlist : (RuntimeConfigStore.list t a).Allowed := fun _ => trivial
    rw [(Prog.runDB_eq_run cfg _ hlist hag).1]
    exact hrep.listRuntimeConfig_only_iff t a
  · intro t a
    have hlist : (ConversationStore.list t a).Allowed := fun _ => trivial
    rw [(Prog.runDB_eq_run cfg _ hlist hag).1]
    exact hrep.listConversation_only_iff t a

theorem listing_exact_iff_sample :
    StepsOk step (fun m call => call.Fits m) KVMap.empty sampleCalls ∧
      let s := sampleCalls.foldl (stepDB ⟨4, payload⟩) (ofDB (DB.new fun _ => none))
      (∀ e ∈ ((ConversationStore.list (text "t:1") (text "a\\")).runDB ⟨4, payload⟩ s).1,
        e.tenant = text "t:1" ∧ e.appId = text "a\\") ↔
      ∀ a' s', ((sampleCalls.foldl Records.stepSeen Records.empty).conversation
        (text "t:1", a', s')).isSome → text "a\\" <+: a' → a' = text "a\\" := by
  have hfits : StepsOk step (fun m call => call.Fits m) KVMap.empty sampleCalls := by
    decide +kernel
  obtain ⟨-, -, -, hconv⟩ := listing_exact_iff ⟨4, payload⟩ (fun _ => none) sampleCalls hfits
  exact ⟨hfits, hconv _ _⟩

/-- Records of two models, documents and apps, one name the beginning of the other. -/
def extendingCalls : List Call :=
  [.putPromptCache ⟨text "t", text "a", text "gpt", text "h", [], 2, 0, 0⟩,
    .putPromptCache ⟨text "t", text "a", text "gpt-4", text "h", [], 1, 0, 0⟩,
    .putRetrieval ⟨text "t", text "b", text "d10", text "c", [], [], []⟩,
    .putRuntimeConfig ⟨text "t", text "app2", text "p", [], 0⟩,
    .save ⟨text "t", text "app2", text "s", [], []⟩]

/-- **Each listing returns a record of somebody else.** -/
theorem listing_leaks :
    let s := extendingCalls.foldl (stepDB ⟨4, payload⟩) (ofDB (DB.new fun _ => none))
    ((PromptCacheStore.list (text "t") (text "a") (text "gpt")).runDB ⟨4, payload⟩ s).1.map
        PromptCacheEntry.model = [text "gpt", text "gpt-4"] ∧
      ((RetrievalStore.list (text "t") (text "b") (text "d1")).runDB ⟨4, payload⟩ s).1.map
        RetrievalChunk.documentId = [text "d10"] ∧
      ((RuntimeConfigStore.list (text "t") (text "app")).runDB ⟨4, payload⟩ s).1.map
        RuntimeConfigRecord.appId = [text "app2"] ∧
      ((ConversationStore.list (text "t") (text "app")).runDB ⟨4, payload⟩ s).1.map
        ConversationSummary.appId = [text "app2"] := by
  have hrun : run step KVMap.empty extendingCalls = some _ := rfl
  have hag := agrees_run ⟨4, payload⟩ (agrees_new fun _ => none) hrun
  have hlist : ∀ (pre : Bytes) {α : Type} (f : List Entry → α),
      (Prog.listEntriesByPrefix pre fun items => .pure (f items)).Allowed := fun _ _ _ _ => trivial
  refine ⟨?_, ?_, ?_, ?_⟩
  · rw [(Prog.runDB_eq_run _ (PromptCacheStore.list _ _ _) (hlist _ _) hag).1]
    decide +kernel
  · rw [(Prog.runDB_eq_run _ (RetrievalStore.list _ _ _) (hlist _ _) hag).1]
    decide +kernel
  · rw [(Prog.runDB_eq_run _ (RuntimeConfigStore.list _ _) (hlist _ _) hag).1]
    decide +kernel
  · rw [(Prog.runDB_eq_run _ (ConversationStore.list _ _) (hlist _ _) hag).1]
    decide +kernel

end Mokv.LLM
