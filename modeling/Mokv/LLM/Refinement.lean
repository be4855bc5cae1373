import Mathlib.Data.List.DropRight
import Mokv.Lib.Run
import Mokv.LLM.Conversations

/-!
# The LLM stores as independent maps

A client calls the four stores in any order, with any bytes as identifiers and contents.
`Records.step` is what the calls mean: each writes one record of one map.  The code works
on one flat key-value store, and reads a conversation back from its turn records before it
appends or trims; `Records.saved` and `Records.stepSeen` follow it.

* `Represents.step`: along every call the store holds the records as the code sees them.
* `refines_records`: with non-empty roles every `Get` returns the record its identifiers
  last denote.
* `stored_forms_agree`: with any roles the legacy record, the summary and the turn records
  of a session agree.
-/

namespace Mokv.LLM

open Lib Codec ConversationStore

/-- A call of one of the stores. -/
inductive Call where
  | putPromptCache (entry : PromptCacheEntry)
  | deletePromptCache (tenant appId model promptHash : Bytes)
  | save (session : ConversationSession)
  | appendTurn (descriptor : ConversationDescriptor) (turn : ConversationTurn)
  | trimToLastTurns (tenant appId sessionId : Bytes) (keepLastTurns : Nat)
  | deleteConversation (tenant appId sessionId : Bytes)
  | putRetrieval (chunk : RetrievalChunk)
  | deleteRetrieval (tenant knowledgeBase documentId chunkId : Bytes)
  | putRuntimeConfig (record : RuntimeConfigRecord)
  | deleteRuntimeConfig (tenant appId profile : Bytes)
deriving DecidableEq

/-- What the call runs. -/
def Call.prog : Call → Prog KVResult
  | putPromptCache entry => PromptCacheStore.put entry
  | deletePromptCache t a m p => PromptCacheStore.delete t a m p
  | save session => ConversationStore.save session
  | appendTurn descriptor turn => ConversationStore.appendTurn descriptor turn
  | trimToLastTurns t a s keep => ConversationStore.trimToLastTurns t a s keep
  | deleteConversation t a s => ConversationStore.delete t a s
  | putRetrieval chunk => RetrievalStore.put chunk
  | deleteRetrieval t b d c => RetrievalStore.delete t b d c
  | putRuntimeConfig record => RuntimeConfigStore.put record
  | deleteRuntimeConfig t a p => RuntimeConfigStore.delete t a p

/-- The identifiers in a descriptor. -/
def ConversationDescriptor.id (d : ConversationDescriptor) : Bytes × Bytes × Bytes :=
  (d.tenant, d.appId, d.sessionId)

/-! ### What the calls mean -/

namespace Records

/-- **What a call means**: it writes one record of one map.  A call without a mandatory
field fails and changes nothing. -/
def step (R : Records) : Call → Records
  | .putPromptCache entry =>
    if entry.promptHash = [] ∨ entry.model = [] then R
    else R.setPromptCache entry.id (some entry)
  | .deletePromptCache t a m p => R.setPromptCache (t, a, m, p) none
  | .save session =>
    if session.sessionId = [] then R else R.setConversation session.id (some session)
  | .appendTurn d turn =>
    if d.sessionId = [] then R
    else
      let old := R.conversation d.id
      R.setConversation d.id (some
        { tenant := d.tenant
          appId := d.appId
          sessionId := d.sessionId
          model := if d.model = [] then old.elim [] (·.model) else d.model
          turns := old.elim [] (·.turns) ++ [turn] })
  | .trimToLastTurns t a s keep =>
    R.setConversation (t, a, s) ((R.conversation (t, a, s)).map fun session =>
      { session with turns := session.turns.rtake keep })
  | .deleteConversation t a s => R.setConversation (t, a, s) none
  | .putRetrieval chunk =>
    if chunk.documentId = [] ∨ chunk.chunkId = [] then R else R.setRetrieval chunk.id (some chunk)
  | .deleteRetrieval t b d c => R.setRetrieval (t, b, d, c) none
  | .putRuntimeConfig record =>
    if record.profile = [] then R else R.setRuntimeConfig record.id (some record)
  | .deleteRuntimeConfig t a p => R.setRuntimeConfig (t, a, p) none

/-- What `Save` leaves. -/
def saved (R : Records) (session : ConversationSession) : Records :=
  if session.sessionId = [] then R else R.setConversation session.id (some session)

/-- What a call leaves when it reads a conversation as `Get` shows it. -/
def stepSeen (R : Records) : Call → Records
  | .save session => R.saved session
  | .appendTurn d turn => R.saved (appended d turn ((R.conversation d.id).map visible))
  | .trimToLastTurns t a s keep =>
    match (R.conversation (t, a, s)).map visible with
    | none => R
    | some session =>
      if session.turns.length ≤ keep then R else R.saved (trimmed keep session)
  | call => R.step call

end Records

/-! ### Calls on the store -/

/-- One call on the key-value store. -/
def step (m : KVMap) (call : Call) : Option KVMap := some (call.prog.run m).2

/-- The session that a call saves has fewer than `2 ^ 32` turns. -/
def Call.Fits (m : KVMap) : Call → Prop
  | .save session => session.turns.length < 2 ^ 32
  | .appendTurn d turn =>
    (appended d turn ((ConversationStore.get d.tenant d.appId d.sessionId).run m).1).turns.length <
      2 ^ 32
  | _ => True

instance (m : KVMap) : (call : Call) → Decidable (call.Fits m)
  | .save session => inferInstanceAs (Decidable (session.turns.length < 2 ^ 32))
  | .appendTurn d turn => inferInstanceAs (Decidable
      ((appended d turn
        ((ConversationStore.get d.tenant d.appId d.sessionId).run m).1).turns.length < 2 ^ 32))
  | .putPromptCache _ => isTrue trivial
  | .deletePromptCache _ _ _ _ => isTrue trivial
  | .trimToLastTurns _ _ _ _ => isTrue trivial
  | .deleteConversation _ _ _ => isTrue trivial
  | .putRetrieval _ => isTrue trivial
  | .deleteRetrieval _ _ _ _ => isTrue trivial
  | .putRuntimeConfig _ => isTrue trivial
  | .deleteRuntimeConfig _ _ _ => isTrue trivial

/-- **Every call keeps the store and the records together.** -/
theorem Represents.step {m : KVMap} {R : Records} (h : Represents m R) {call : Call}
    (hfits : call.Fits m) : Represents (call.prog.run m).2 (R.stepSeen call) := by
  have hsave : ∀ session : ConversationSession, session.turns.length < 2 ^ 32 →
      Represents ((ConversationStore.save session).run m).2 (R.saved session) := by
    intro session hlen
    unfold Records.saved
    split
    · rw [ConversationStore.save, if_pos ‹_›]
      exact h
    · exact (h.save ‹_› hlen).2
  cases call with
  | putPromptCache entry => exact h.putPromptCache entry
  | deletePromptCache t a mo p => exact h.deletePromptCache t a mo p
  | save session => exact hsave session hfits
  | appendTurn d turn =>
    rw [Call.Fits, h.getConversation] at hfits
    rw [Call.prog, appendTurn, Prog.run_bind, h.getConversation]
    exact hsave _ hfits
  | trimToLastTurns t a s keep =>
    rw [Call.prog, trimToLastTurns, Prog.run_bind, h.getConversation, Records.stepSeen]
    cases he : R.conversation (t, a, s) with
    | none => exact h
    | some session =>
      show Represents (Prog.run (if (visible session).turns.length ≤ keep then _ else _) m).2
        (if (visible session).turns.length ≤ keep then _ else _)
      split
      · exact h
      · refine hsave _ (lt_of_le_of_lt ?_ (h.valid.conversation _ session he).2.2)
        rw [trimmed, List.length_drop]
        exact le_trans (Nat.sub_le _ _) (List.length_filter_le _ _)
  | deleteConversation t a s => exact h.deleteConversation t a s
  | putRetrieval chunk => exact h.putRetrieval chunk
  | deleteRetrieval t b d c => exact h.deleteRetrieval t b d c
  | putRuntimeConfig record => exact h.putRuntimeConfig record
  | deleteRuntimeConfig t a p => exact h.deleteRuntimeConfig t a p

/-! ### Non-empty roles -/

/-- All turns have a role. -/
def ConversationSession.HasRoles (session : ConversationSession) : Prop :=
  ∀ turn ∈ session.turns, turn.role ≠ []

/-- The turns that a call brings have a role. -/
def Call.HasRoles : Call → Prop
  | .save session => session.HasRoles
  | .appendTurn _ turn => turn.role ≠ []
  | _ => True

instance : DecidablePred Call.HasRoles
  | .save session => inferInstanceAs (Decidable (∀ turn ∈ session.turns, turn.role ≠ []))
  | .appendTurn _ turn => inferInstanceAs (Decidable (turn.role ≠ []))
  | .putPromptCache _ => isTrue trivial
  | .deletePromptCache _ _ _ _ => isTrue trivial
  | .trimToLastTurns _ _ _ _ => isTrue trivial
  | .deleteConversation _ _ _ => isTrue trivial
  | .putRetrieval _ => isTrue trivial
  | .deleteRetrieval _ _ _ _ => isTrue trivial
  | .putRuntimeConfig _ => isTrue trivial
  | .deleteRuntimeConfig _ _ _ => isTrue trivial

theorem visible_of_hasRoles {session : ConversationSession} (h : session.HasRoles) :
    visible session = session := by
  have hturns : session.turns.filter (fun turn => turn.role ≠ []) = session.turns :=
    List.filter_eq_self.mpr fun turn ht => by simpa using h turn ht
  rw [visible, hturns]

/-- Every session has roles. -/
def Records.HasRoles (R : Records) : Prop :=
  ∀ id session, R.conversation id = some session → session.HasRoles

theorem Records.HasRoles.map_visible {R : Records} (h : R.HasRoles) (id : Bytes × Bytes × Bytes) :
    (R.conversation id).map visible = R.conversation id := by
  cases he : R.conversation id with
  | none => rfl
  | some session => rw [Option.map_some, visible_of_hasRoles (h id session he)]

theorem Records.setConversation_self (R : Records) {id : Bytes × Bytes × Bytes}
    {v : Option ConversationSession} (h : R.conversation id = v) : R.setConversation id v = R := by
  subst h
  rw [Records.setConversation, Function.update_eq_self]

theorem appended_eq {R : Records} (hv : R.Valid) (d : ConversationDescriptor)
    (turn : ConversationTurn) :
    appended d turn (R.conversation d.id) =
      { tenant := d.tenant
        appId := d.appId
        sessionId := d.sessionId
        model := if d.model = [] then (R.conversation d.id).elim [] (·.model) else d.model
        turns := (R.conversation d.id).elim [] (·.turns) ++ [turn] } := by
  unfold appended
  cases he : R.conversation d.id with
  | none => by_cases hm : d.model = [] <;> simp [hm]
  | some session =>
    obtain ⟨t, a, s, mo, turns⟩ := session
    obtain ⟨rfl, rfl, rfl⟩ : t = d.tenant ∧ a = d.appId ∧ s = d.sessionId := by
      simpa [ConversationSession.id, ConversationDescriptor.id]
        using (hv.conversation _ _ he).1
    by_cases hm : d.model = [] <;> simp [hm]

/-- **With roles the code does what the calls mean.** -/
theorem Records.stepSeen_eq_step {R : Records} (hv : R.Valid) (hr : R.HasRoles) (call : Call) :
    R.stepSeen call = R.step call := by
  cases call with
  | appendTurn d turn =>
    rw [stepSeen, hr.map_visible, appended_eq hv, saved, step]
    rfl
  | trimToLastTurns t a s keep =>
    rw [stepSeen, hr.map_visible, step]
    cases he : R.conversation (t, a, s) with
    | none => exact (R.setConversation_self he).symm
    | some session =>
      obtain ⟨hid, hs, -⟩ := hv.conversation _ session he
      show (if session.turns.length ≤ keep then R else R.saved (trimmed keep session)) = _
      split
      · have hall : session.turns.rtake keep = session.turns := by
          rw [List.rtake, Nat.sub_eq_zero_of_le ‹_›, List.drop_zero]
        rw [Option.map_some, hall]
        exact (R.setConversation_self he).symm
      · rw [saved, if_neg (show (trimmed keep session).sessionId ≠ [] from hs)]
        show R.setConversation session.id _ = _
        rw [hid]
        rfl
  | _ => rfl

theorem Records.HasRoles.setConversation {R : Records} (h : R.HasRoles)
    {id : Bytes × Bytes × Bytes} {v : Option ConversationSession}
    (hv : ∀ session, v = some session → session.HasRoles) : (R.setConversation id v).HasRoles :=
  Records.forall_update (f := R.conversation) (P := fun _ e => e.HasRoles) h hv

theorem Records.HasRoles.step {R : Records} (h : R.HasRoles) {call : Call} (hc : call.HasRoles) :
    (R.step call).HasRoles := by
  cases call with
  | save session =>
    rw [Records.step]
    split
    · exact h
    · refine h.setConversation ?_
      rintro _ ⟨⟩
      exact hc
  | appendTurn d turn =>
    rw [Records.step]
    split
    · exact h
    · refine h.setConversation ?_
      rintro _ ⟨⟩ u hu
      rcases List.mem_append.mp hu with hu | hu
      · cases he : R.conversation d.id with
        | none =>
          rw [he] at hu
          cases hu
        | some session =>
          rw [he] at hu
          exact h _ session he u hu
      · rw [List.mem_singleton.mp hu]
        exact hc
  | trimToLastTurns t a s keep =>
    refine h.setConversation ?_
    intro session hs
    obtain ⟨old, hold, rfl⟩ := Option.map_eq_some_iff.mp hs
    intro u hu
    exact h _ old hold u (List.mem_of_mem_drop hu)
  | deleteConversation t a s => exact h.setConversation (by simp)
  | putPromptCache entry => rw [Records.step]; split <;> exact h
  | putRetrieval chunk => rw [Records.step]; split <;> exact h
  | putRuntimeConfig record => rw [Records.step]; split <;> exact h
  | deletePromptCache t a m p => exact h
  | deleteRetrieval t b d c => exact h
  | deleteRuntimeConfig t a p => exact h

/-! ### Runs -/

theorem exists_represents (calls : List Call) (hroles : ∀ call ∈ calls, call.HasRoles)
    (hfits : StepsOk step (fun m call => call.Fits m) KVMap.empty calls) :
    ∃ m, run step KVMap.empty calls = some m ∧
      Represents m (calls.foldl Records.step Records.empty) ∧
      (calls.foldl Records.step Records.empty).HasRoles := by
  obtain ⟨m, hrun⟩ := exists_run (fun m call _ => ⟨_, rfl⟩) hfits
  refine ⟨m, hrun, ?_⟩
  refine run_induction (P := fun calls m => (∀ call ∈ calls, call.HasRoles) →
    Represents m (calls.foldl Records.step Records.empty) ∧
      (calls.foldl Records.step Records.empty).HasRoles) ?_ ?_ calls m hrun hfits hroles
  · intro _
    exact ⟨represents_empty, by simp [Records.HasRoles, Records.empty]⟩
  · intro calls m call t _ ih hfit ht hall
    obtain ⟨hrep, hr⟩ := ih fun c hc => hall c (List.mem_append_left _ hc)
    have hcall := hall call (List.mem_append_right _ (List.mem_singleton_self call))
    obtain rfl : (call.prog.run m).2 = t := Option.some.inj ht
    rw [List.foldl_append, List.foldl_cons, List.foldl_nil]
    have hnew := hrep.step hfit
    rw [Records.stepSeen_eq_step hrep.valid hr] at hnew
    exact ⟨hnew, hr.step hcall⟩

/-- **The stores refine independent maps.**  After any calls whose turns have roles, every
`Get` returns the record its identifiers last denote, whatever was done to others. -/
theorem refines_records (calls : List Call) (hroles : ∀ call ∈ calls, call.HasRoles)
    (hfits : StepsOk step (fun m call => call.Fits m) KVMap.empty calls) :
    ∃ m, run step KVMap.empty calls = some m ∧
      let R := calls.foldl Records.step Records.empty
      (∀ t a mo p, ((PromptCacheStore.get t a mo p).run m).1 = R.promptCache (t, a, mo, p)) ∧
      (∀ t a s, ((ConversationStore.get t a s).run m).1 = R.conversation (t, a, s)) ∧
      (∀ t b d c, ((RetrievalStore.get t b d c).run m).1 = R.retrieval (t, b, d, c)) ∧
      ∀ t a p, ((RuntimeConfigStore.get t a p).run m).1 = R.runtimeConfig (t, a, p) := by
  obtain ⟨m, hrun, hrep, hr⟩ := exists_represents calls hroles hfits
  refine ⟨m, hrun, hrep.getPromptCache, ?_, hrep.getRetrieval, hrep.getRuntimeConfig⟩
  intro t a s
  rw [hrep.getConversation, hr.map_visible]

/-- Identifiers with colons, backslashes and the words of the keyspace. -/
def sampleCalls : List Call :=
  [.appendTurn ⟨text "t:1", text "a\\", text "s:turn", text "m"⟩ ⟨text "user", text "hi\n", -5⟩,
    .save ⟨text "t", text "1:a\\", text "s", [], [⟨text "user", [], 1⟩, ⟨text "bot", [], 2⟩]⟩,
    .putPromptCache { model := text "m", promptHash := text "conversation" },
    .appendTurn ⟨text "t:1", text "a\\", text "s:turn", []⟩ ⟨text "bot", text "turn", 7⟩,
    .trimToLastTurns (text "t") (text "1:a\\") (text "s") 1,
    .putRuntimeConfig { profile := text "meta" },
    .putRetrieval { documentId := text "d", chunkId := text "c", metadata := [([], [9])] },
    .deletePromptCache [] [] (text "m") (text "conversation")]

theorem refines_records_sample :
    (∀ call ∈ sampleCalls, call.HasRoles) ∧
      StepsOk step (fun m call => call.Fits m) KVMap.empty sampleCalls ∧
      ∃ m, run step KVMap.empty sampleCalls = some m ∧
        ((ConversationStore.get (text "t:1") (text "a\\") (text "s:turn")).run m).1 =
          (sampleCalls.foldl Records.step Records.empty).conversation
            (text "t:1", text "a\\", text "s:turn") := by
  have hroles : ∀ call ∈ sampleCalls, call.HasRoles := by decide
  have hfits : StepsOk step (fun m call => call.Fits m) KVMap.empty sampleCalls := by
    decide +kernel
  obtain ⟨m, hrun, -, hconv, -, -⟩ := refines_records sampleCalls hroles hfits
  exact ⟨hroles, hfits, m, hrun, hconv _ _ _⟩

/-! ### The three forms of a conversation -/

section

variable {m : KVMap} {R : Records}

theorem Represents.listKeys (h : Represents m R) (t a s : Bytes) :
    m.listKeysByPrefix (Keyspace.conversationTurnPrefix t a s) =
      (List.range (R.turns (t, a, s)).length).map fun i =>
        Keyspace.conversationTurn t a s (UInt32.ofNat i) := by
  rw [KVMap.listKeysByPrefix, h.listEntries, turnEntries, map_mapIdx]
  refine List.ext_getElem (by simp) ?_
  intro i _ _
  simp [RecordKey.key]

/-- None of the keys of the session exists. -/
def NoKeys (m : KVMap) (t a s : Bytes) : Prop :=
  m.get (Keyspace.conversation t a s) = none ∧ m.get (Keyspace.conversationMeta t a s) = none ∧
    m.listKeysByPrefix (Keyspace.conversationTurnPrefix t a s) = []

/-- The summary, the legacy record and the turn records of the session agree. -/
def FormsAgree (m : KVMap) (t a s : Bytes) : Prop :=
  ∃ summary legacy,
    (m.get (Keyspace.conversationMeta t a s)).bind parseConversationSummary = some summary ∧
    (m.get (Keyspace.conversation t a s)).bind parseLegacyConversation = some legacy ∧
    summary.turnCount.toNat =
      (m.listKeysByPrefix (Keyspace.conversationTurnPrefix t a s)).length ∧
    summary.turnCount.toNat = legacy.turns.length ∧
    m.listKeysByPrefix (Keyspace.conversationTurnPrefix t a s) =
      (List.range summary.turnCount.toNat).map
        (fun i => Keyspace.conversationTurn t a s (UInt32.ofNat i)) ∧
    summary.updatedAtMs = lastTurnTimestamp legacy.turns ∧
    ∀ i turn, (m.get (Keyspace.conversationTurn t a s i)).bind parseConversationTurn = some turn →
      legacy.turns[i.toNat]? = some turn

theorem Represents.formsAgree (h : Represents m R) (t a s : Bytes) :
    NoKeys m t a s ∨ FormsAgree m t a s := by
  have hkeys := h.listKeys t a s
  have hlegacy := h.get (.conversation t a s)
  have hmeta := h.get (.conversationMeta t a s)
  have hturn := fun i => h.get (.conversationTurn t a s i)
  rw [R.payload_of_session rfl] at hlegacy hmeta
  unfold Records.turns at hkeys
  cases he : R.conversation (t, a, s) with
  | none =>
    rw [he] at hlegacy hmeta hkeys
    exact Or.inl ⟨hlegacy, hmeta, hkeys⟩
  | some session =>
    obtain ⟨hid, hs, hlen⟩ := h.valid.conversation _ session he
    rw [he] at hlegacy hmeta hkeys
    have hcount : (summaryOf session).turnCount.toNat = session.turns.length := toNat_ofNat hlen
    refine Or.inr ⟨summaryOf session, session, ?_, ?_, ?_, hcount, ?_, rfl, ?_⟩
    · exact (congrArg (Option.bind · _) hmeta).trans
        (parseConversationSummary_serializeConversationSummary (summaryOf session) hs)
    · exact (congrArg (Option.bind · _) hlegacy).trans
        (parseLegacyConversation_serializeLegacyConversation hs)
    · rw [hkeys, hcount]
      simp
    · rw [hkeys, hcount]
    · intro i turn hi
      have hpay := hturn i
      rw [payload_turn, Records.turns, he] at hpay
      rw [show m.get (Keyspace.conversationTurn t a s i) = _ from hpay] at hi
      obtain ⟨payload, hp, hparse⟩ := Option.bind_eq_some_iff.mp hi
      obtain ⟨turn', ht', rfl⟩ := Option.map_eq_some_iff.mp hp
      rw [parseConversationTurn_serializeConversationTurn] at hparse
      split at hparse
      · cases hparse
      · rw [← Option.some.inj hparse]
        exact ht'

end

/-- **The three stored forms agree after any calls**, whatever the roles. -/
theorem stored_forms_agree (calls : List Call)
    (hfits : StepsOk step (fun m call => call.Fits m) KVMap.empty calls) :
    ∃ m, run step KVMap.empty calls = some m ∧
      ∀ t a s, NoKeys m t a s ∨ FormsAgree m t a s := by
  obtain ⟨m, hrun⟩ := exists_run (fun m call _ => ⟨_, rfl⟩) hfits
  have hinv : ∃ R, Represents m R := by
    refine run_invariant (I := fun m => ∃ R, Represents m R) ⟨_, represents_empty⟩ ?_ hrun hfits
    rintro m call t ⟨R, hrep⟩ hfit ht
    obtain rfl : (call.prog.run m).2 = t := Option.some.inj ht
    exact ⟨_, hrep.step hfit⟩
  obtain ⟨R, hrep⟩ := hinv
  exact ⟨m, hrun, hrep.formsAgree⟩

/-- Turns without a role, a session that shrinks, and one that comes back. -/
def shrinkingCalls : List Call :=
  [.save ⟨[1], [2], [3], [4], [⟨[], [5], 1⟩, ⟨[6], [], 2⟩, ⟨[7], [], 3⟩]⟩,
    .appendTurn ⟨[1], [2], [3], []⟩ ⟨[], [8], 4⟩,
    .trimToLastTurns [1] [2] [3] 1,
    .deleteConversation [1] [2] [3],
    .appendTurn ⟨[1], [2], [3], [9]⟩ ⟨[6], [], 5⟩]

theorem stored_forms_agree_shrinkingCalls :
    StepsOk step (fun m call => call.Fits m) KVMap.empty shrinkingCalls ∧
      ∃ m, run step KVMap.empty shrinkingCalls = some m ∧
        ∀ t a s, NoKeys m t a s ∨ FormsAgree m t a s := by
  have hfits : StepsOk step (fun m call => call.Fits m) KVMap.empty shrinkingCalls := by
    decide +kernel
  exact ⟨hfits, stored_forms_agree shrinkingCalls hfits⟩

end Mokv.LLM
