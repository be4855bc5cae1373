import Mokv.Codec

/-!
# The keyspace of the LLM stores

All records share one flat keyspace: a key is a list of parts, escaped and joined with
colons (`Keyspace` in `mokv/llm/store.hpp`).  `RecordKey` lists the kinds of records with
their identifiers.

* `RecordKey.key_injective`: no two records share a key, whatever bytes the identifiers
  hold; an empty model or document id makes the key one part shorter.
* `RecordKey.take_turnPrefix`: the keys that start with the turn prefix of a session are
  the keys of its turns.
* `conversationTurn_lt`: the turn keys of a session are in the order of the turns.
-/

namespace Mokv.LLM

open Codec Lib

/-- `detail::FormatSequence`. -/
def formatSequence (sequence : UInt32) : Bytes := padded 10 sequence.toNat

namespace Keyspace

/-- `Keyspace::PromptCachePrefix`. -/
def promptCachePrefix (tenant appId model : Bytes) : Bytes :=
  let key := joinKeyParts [text "llm", text "prompt-cache", tenant, appId]
  if model = [] then key else appendKeyPart key model

/-- `Keyspace::PromptCache`. -/
def promptCache (tenant appId model promptHash : Bytes) : Bytes :=
  appendKeyPart (promptCachePrefix tenant appId model) promptHash

/-- `Keyspace::ConversationPrefix`. -/
def conversationPrefix (tenant appId : Bytes) : Bytes :=
  joinKeyParts [text "llm", text "conversation", tenant, appId]

/-- `Keyspace::ConversationSessionPrefix`. -/
def conversationSessionPrefix (tenant appId sessionId : Bytes) : Bytes :=
  appendKeyPart (conversationPrefix tenant appId) sessionId

/-- `Keyspace::Conversation`. -/
def conversation (tenant appId sessionId : Bytes) : Bytes :=
  conversationSessionPrefix tenant appId sessionId

/-- `Keyspace::ConversationMeta`. -/
def conversationMeta (tenant appId sessionId : Bytes) : Bytes :=
  appendKeyPart (conversationSessionPrefix tenant appId sessionId) (text "meta")

/-- `Keyspace::ConversationTurnPrefix`. -/
def conversationTurnPrefix (tenant appId sessionId : Bytes) : Bytes :=
  appendKeyPart (conversationSessionPrefix tenant appId sessionId) (text "turn")

/-- `Keyspace::ConversationTurn`. -/
def conversationTurn (tenant appId sessionId : Bytes) (sequence : UInt32) : Bytes :=
  appendKeyPart (conversationTurnPrefix tenant appId sessionId) (formatSequence sequence)

/-- `Keyspace::RetrievalPrefix`. -/
def retrievalPrefix (tenant knowledgeBase documentId : Bytes) : Bytes :=
  let key := joinKeyParts [text "llm", text "retrieval", tenant, knowledgeBase]
  if documentId = [] then key else appendKeyPart key documentId

/-- `Keyspace::Retrieval`. -/
def retrieval (tenant knowledgeBase documentId chunkId : Bytes) : Bytes :=
  appendKeyPart (retrievalPrefix tenant knowledgeBase documentId) chunkId

/-- `Keyspace::RuntimeConfigPrefix`. -/
def runtimeConfigPrefix (tenant appId : Bytes) : Bytes :=
  joinKeyParts [text "llm", text "runtime-config", tenant, appId]

/-- `Keyspace::RuntimeConfig`. -/
def runtimeConfig (tenant appId profile : Bytes) : Bytes :=
  appendKeyPart (runtimeConfigPrefix tenant appId) profile

end Keyspace

/-! ### The kinds of records -/

/-- A record and its identifiers. -/
inductive RecordKey where
  | promptCache (tenant appId model promptHash : Bytes)
  | conversation (tenant appId sessionId : Bytes)
  | conversationMeta (tenant appId sessionId : Bytes)
  | conversationTurn (tenant appId sessionId : Bytes) (sequence : UInt32)
  | retrieval (tenant knowledgeBase documentId chunkId : Bytes)
  | runtimeConfig (tenant appId profile : Bytes)
deriving DecidableEq

namespace RecordKey

/-- The key in the store. -/
def key : RecordKey → Bytes
  | promptCache t a m h => Keyspace.promptCache t a m h
  | conversation t a s => Keyspace.conversation t a s
  | conversationMeta t a s => Keyspace.conversationMeta t a s
  | conversationTurn t a s i => Keyspace.conversationTurn t a s i
  | retrieval t b d c => Keyspace.retrieval t b d c
  | runtimeConfig t a p => Keyspace.runtimeConfig t a p

/-- The parts of the key.  An empty model or document id is left out. -/
def parts : RecordKey → List Bytes
  | promptCache t a m h =>
    [text "llm", text "prompt-cache", t, a] ++ (if m = [] then [h] else [m, h])
  | conversation t a s => [text "llm", text "conversation", t, a, s]
  | conversationMeta t a s => [text "llm", text "conversation", t, a, s, text "meta"]
  | conversationTurn t a s i =>
    [text "llm", text "conversation", t, a, s, text "turn", formatSequence i]
  | retrieval t b d c => [text "llm", text "retrieval", t, b] ++ (if d = [] then [c] else [d, c])
  | runtimeConfig t a p => [text "llm", text "runtime-config", t, a, p]

theorem parts_ne_nil (k : RecordKey) : k.parts ≠ [] := by
  cases k <;> simp [parts]

theorem key_eq (k : RecordKey) : k.key = joinKeyParts k.parts := by
  cases k with
  | promptCache t a m h =>
    unfold key parts Keyspace.promptCache Keyspace.promptCachePrefix
    by_cases hm : m = [] <;> simp [hm, appendKeyPart_joinKeyParts]
  | retrieval t b d c =>
    unfold key parts Keyspace.retrieval Keyspace.retrievalPrefix
    by_cases hd : d = [] <;> simp [hd, appendKeyPart_joinKeyParts]
  | _ =>
    simp [key, parts, Keyspace.conversation, Keyspace.conversationMeta, Keyspace.conversationTurn,
      Keyspace.conversationTurnPrefix, Keyspace.conversationSessionPrefix,
      Keyspace.conversationPrefix, Keyspace.runtimeConfig, Keyspace.runtimeConfigPrefix,
      appendKeyPart_joinKeyParts]

/-- The record that a list of parts is the key of. -/
def ofParts : List Bytes → Option RecordKey
  | [_, kind, t, a, x] =>
    if kind = text "prompt-cache" then some (promptCache t a [] x)
    else if kind = text "conversation" then some (conversation t a x)
    else if kind = text "retrieval" then some (retrieval t a [] x)
    else some (runtimeConfig t a x)
  | [_, kind, t, a, x, y] =>
    if kind = text "prompt-cache" then some (promptCache t a x y)
    else if kind = text "conversation" then some (conversationMeta t a x)
    else some (retrieval t a x y)
  | [_, _, t, a, s, _, sequence] =>
    (readDigits 0 sequence).map fun n => conversationTurn t a s (UInt32.ofNat n)
  | _ => none

theorem ofParts_parts (k : RecordKey) : ofParts k.parts = some k := by
  cases k with
  | promptCache t a m h => by_cases hm : m = [] <;> simp +decide [parts, ofParts, hm]
  | retrieval t b d c => by_cases hd : d = [] <;> simp +decide [parts, ofParts, hd]
  | conversationTurn t a s i => simp [parts, ofParts, formatSequence, readDigits_padded]
  | _ => simp +decide [parts, ofParts]

/-- **No two records share a key.** -/
theorem key_injective {k l : RecordKey} (h : k.key = l.key) : k = l := by
  rw [key_eq, key_eq] at h
  have hparts := joinKeyParts_inj k.parts_ne_nil l.parts_ne_nil h
  have hk := k.ofParts_parts
  rw [hparts, ofParts_parts] at hk
  exact (Option.some.inj hk).symm

/-! ### The turns of a session -/

theorem turnPrefix_eq (t a s : Bytes) :
    Keyspace.conversationTurnPrefix t a s =
      joinKeyParts ([text "llm", text "conversation", t, a, s] ++ [text "turn"]) := by
  simp [Keyspace.conversationTurnPrefix, Keyspace.conversationSessionPrefix,
    Keyspace.conversationPrefix, appendKeyPart_joinKeyParts]

/-- **The keys under the turn prefix of a session are the keys of its turns.** -/
theorem take_turnPrefix (t a s : Bytes) (k : RecordKey) :
    k.key.take (Keyspace.conversationTurnPrefix t a s).length =
        Keyspace.conversationTurnPrefix t a s ↔
      ∃ i, k = conversationTurn t a s i := by
  rw [eq_comm, ← List.prefix_iff_eq_take]
  constructor
  · rintro ⟨x, hx⟩
    rw [turnPrefix_eq, key_eq] at hx
    obtain ⟨rest, hne, hparts, hrest⟩ := parts_of_joinKeyParts_append k.parts_ne_nil hx
    cases k with
    | promptCache t' a' m h =>
      exact absurd (congrArg (·[1]?) hparts) (by simp +decide [parts])
    | retrieval t' b d c =>
      exact absurd (congrArg (·[1]?) hparts) (by simp +decide [parts])
    | runtimeConfig t' a' p =>
      exact absurd (congrArg (·[1]?) hparts) (by simp +decide [parts])
    | conversation t' a' s' =>
      simp only [parts, List.cons_append, List.nil_append, List.cons.injEq, true_and] at hparts
      exact absurd hparts.2.2.2.symm hne
    | conversationMeta t' a' s' =>
      simp only [parts, List.cons_append, List.nil_append, List.cons.injEq, true_and] at hparts
      -- the last part would have to begin with "turn"
      rw [← hparts.2.2.2] at hrest
      have hhead : some (116 : UInt8) = some 109 := congrArg List.head? hrest
      exact absurd hhead (by decide)
    | conversationTurn t' a' s' i =>
      simp only [parts, List.cons_append, List.nil_append, List.cons.injEq, true_and] at hparts
      obtain ⟨rfl, rfl, rfl, -⟩ := hparts
      exact ⟨i, rfl⟩
  · rintro ⟨i, rfl⟩
    exact ⟨58 :: escapeKeyPart (formatSequence i), rfl⟩

theorem escapeKeyPart_formatSequence (i : UInt32) :
    escapeKeyPart (formatSequence i) = formatSequence i := by
  refine keyPartCode.encode_eq_self ?_
  intro ch hch
  have hdigit := digit_of_readDigits (readDigits_padded 10 i.toNat) ch hch
  show keyPartLetter ch = none
  unfold keyPartLetter
  split_ifs <;> first | rfl | (subst ch; revert hdigit; decide)

/-- **The turn keys are in the order of the turns.** -/
theorem conversationTurn_lt (t a s : Bytes) {i j : UInt32} (h : i.toNat < j.toNat) :
    (conversationTurn t a s i).key < (conversationTurn t a s j).key := by
  show Keyspace.conversationTurnPrefix t a s ++ 58 :: escapeKeyPart (formatSequence i) <
    Keyspace.conversationTurnPrefix t a s ++ 58 :: escapeKeyPart (formatSequence j)
  rw [escapeKeyPart_formatSequence, escapeKeyPart_formatSequence]
  refine List.append_left_lt (List.cons_lt_cons_iff.mpr (Or.inr ⟨rfl, ?_⟩))
  exact padded_lt_padded (by decide) (lt_trans j.toNat_lt (by decide)) h

theorem conversationTurn_lt_iff (t a s : Bytes) (i j : UInt32) :
    (conversationTurn t a s i).key < (conversationTurn t a s j).key ↔ i < j := by
  rw [UInt32.lt_iff_toNat_lt]
  refine ⟨fun hlt => ?_, conversationTurn_lt t a s⟩
  rcases Nat.lt_trichotomy i.toNat j.toNat with hij | hij | hji
  · exact hij
  · rw [UInt32.toNat_inj.mp hij] at hlt
    exact absurd hlt (lt_irrefl _)
  · exact absurd (conversationTurn_lt t a s hji) (lt_asymm hlt)

/-- **The keyspace is injective.**  Joined parts determine the parts, a key determines its record,
and the keys that start with the turn prefix of a session are the keys of its turns, in the
order of their sequence numbers. -/
theorem keyspace_injective :
    (∀ ps qs : List Bytes, ps ≠ [] → qs ≠ [] → joinKeyParts ps = joinKeyParts qs → ps = qs) ∧
      (∀ k l : RecordKey, k.key = l.key → k = l) ∧
        ∀ t a s : Bytes,
          (∀ k : RecordKey, Keyspace.conversationTurnPrefix t a s <+: k.key ↔
            ∃ i, k = conversationTurn t a s i) ∧
          ∀ i j, (conversationTurn t a s i).key < (conversationTurn t a s j).key ↔ i < j := by
  refine ⟨fun ps qs hp hq h => joinKeyParts_inj hp hq h, fun k l h => key_injective h, ?_⟩
  intro t a s
  refine ⟨fun k => ?_, conversationTurn_lt_iff t a s⟩
  rw [List.prefix_iff_eq_take, eq_comm]
  exact take_turnPrefix t a s k

/-- A tenant that ends in a backslash, and an app id that begins with a colon. -/
theorem keyspace_injective_backslash :
    (conversation [97, 92] [58, 98] [99]).key ≠ (conversation [97] [92, 58, 98] [99]).key := by
  intro h
  have heq := keyspace_injective.2.1 _ _ h
  exact absurd heq (by decide)

end RecordKey

end Mokv.LLM
