import Mokv.LLM.Represents

/-!
# Conversations in the store

`Save` deletes the turn records that are there and writes the legacy record, the summary
and the new turn records; afterwards the store holds exactly the new session
(`Represents.save`).  `Get` finds the summary and lists the turn records, which come in the
order of the turns (`Represents.listEntries`).
-/

namespace Mokv.LLM

open Lib Codec ConversationStore

theorem map_mapIdx {α β γ : Type} (f : Nat → α → β) (g : β → γ) (l : List α) :
    (l.mapIdx f).map g = l.mapIdx fun i a => g (f i a) := by
  refine List.ext_getElem (by simp) ?_
  intro i _ _
  simp

/-! ### The records of a session -/

/-- The batch of `Save`, by the records it writes. -/
def sessionRecords (session : ConversationSession) : List (RecordKey × Bytes) :=
  (.conversation session.tenant session.appId session.sessionId,
      serializeLegacyConversation session) ::
    (.conversationMeta session.tenant session.appId session.sessionId,
      serializeConversationSummary (summaryOf session)) ::
    session.turns.mapIdx fun i turn =>
      (.conversationTurn session.tenant session.appId session.sessionId (UInt32.ofNat i),
        serializeConversationTurn turn)

theorem sessionEntries_eq (session : ConversationSession) :
    sessionEntries session = (sessionRecords session).map fun r => (r.1.key, r.2) := by
  unfold sessionEntries sessionRecords
  rw [List.map_cons, List.map_cons, map_mapIdx]
  rfl

theorem toNat_ofNat {i : Nat} (h : i < 2 ^ 32) : (UInt32.ofNat i).toNat = i :=
  UInt32.toNat_ofNat_of_lt' h

theorem mem_sessionRecords {session : ConversationSession} (hlen : session.turns.length < 2 ^ 32)
    {k : RecordKey} {v : Bytes} :
    (k, v) ∈ sessionRecords session ↔
      k.session? = some session.id ∧ sessionPayload session k = some v := by
  cases k with
  | conversationTurn t a s j =>
    simp only [sessionRecords, List.mem_cons, Prod.mk.injEq, reduceCtorEq, false_and, false_or,
      List.mem_mapIdx, RecordKey.conversationTurn.injEq, RecordKey.session?, Option.some.injEq,
      ConversationSession.id, sessionPayload, Option.map_eq_some_iff]
    constructor
    · rintro ⟨i, hi, ⟨rfl, rfl, rfl, rfl⟩, rfl⟩
      refine ⟨⟨rfl, rfl, rfl⟩, session.turns[i], ?_, rfl⟩
      rw [toNat_ofNat (lt_trans hi hlen), List.getElem?_eq_getElem hi]
    · rintro ⟨⟨rfl, rfl, rfl⟩, turn, hturn, rfl⟩
      obtain ⟨hi, rfl⟩ := List.getElem?_eq_some_iff.mp hturn
      exact ⟨j.toNat, hi, ⟨rfl, rfl, rfl, UInt32.ofNat_toNat⟩, rfl⟩
  | _ =>
    simp [sessionRecords, RecordKey.session?, ConversationSession.id, sessionPayload, eq_comm,
      and_assoc]

theorem nodup_sessionRecords {session : ConversationSession}
    (hlen : session.turns.length < 2 ^ 32) : ((sessionRecords session).map Prod.fst).Nodup := by
  unfold sessionRecords
  simp only [List.map_cons, List.nodup_cons, List.mem_cons, map_mapIdx, List.mem_mapIdx]
  refine ⟨by simp, by simp, ?_⟩
  rw [List.Nodup, List.pairwise_iff_getElem]
  intro i j hi hj hij he
  simp only [List.length_mapIdx] at hi hj
  simp only [List.getElem_mapIdx, RecordKey.conversationTurn.injEq, true_and] at he
  have := congrArg UInt32.toNat he
  rw [toNat_ofNat (lt_trans hi hlen), toNat_ofNat (lt_trans hj hlen)] at this
  omega

theorem lookup_map_key (recs : List (RecordKey × Bytes)) (k : RecordKey) :
    (recs.map fun r => (r.1.key, r.2)).lookup k.key = recs.lookup k := by
  induction recs with
  | nil => rfl
  | cons r recs ih =>
    rw [List.map_cons, lookup_cons, ih]
    obtain ⟨j, v⟩ := r
    rw [lookup_cons]
    by_cases hk : k = j
    · rw [if_pos (congrArg RecordKey.key hk), if_pos hk]
    · rw [if_neg fun he => hk (RecordKey.key_injective he), if_neg hk]

theorem lookup_sessionEntries {session : ConversationSession}
    (hlen : session.turns.length < 2 ^ 32) (k : RecordKey) :
    (sessionEntries session).lookup k.key =
      if k.session? = some session.id then sessionPayload session k else none := by
  rw [sessionEntries_eq, lookup_map_key]
  refine Option.ext ?_
  intro v
  rw [lookup_eq_some_of_nodup (nodup_sessionRecords hlen), mem_sessionRecords hlen]
  split <;> simp [*]

theorem lookup_sessionEntries_of_session {session : ConversationSession}
    (hlen : session.turns.length < 2 ^ 32) {k : RecordKey} (hk : k.session? = some session.id) :
    (sessionEntries session).lookup k.key = sessionPayload session k := by
  rw [lookup_sessionEntries hlen, if_pos hk]

theorem nodup_sessionEntries {session : ConversationSession}
    (hlen : session.turns.length < 2 ^ 32) : ((sessionEntries session).map Prod.fst).Nodup := by
  have h := (nodup_sessionRecords hlen).map fun _ _ => RecordKey.key_injective
  rw [sessionEntries_eq, List.map_map]
  rwa [List.map_map] at h

/-! ### Writing -/

section

variable {m : KVMap} {R : Records}

theorem run_deleteStaleTurns (keys : List Bytes) (m : KVMap) :
    (deleteStaleTurns keys).run m = (.ok, keys.foldl KVMap.delete m) := by
  unfold deleteStaleTurns
  split
  · subst keys
    rfl
  · exact Prog.run_batchDelete keys m

theorem run_save {session : ConversationSession} (hs : session.sessionId ≠ []) (m : KVMap) :
    (save session).run m =
      (.ok, (sessionEntries session).foldl (fun m e => m.put e.1 e.2)
        ((m.listKeysByPrefix (Keyspace.conversationTurnPrefix session.tenant session.appId
          session.sessionId)).foldl KVMap.delete m)) := by
  rw [save, if_neg hs, Prog.run, Prog.run_bind, run_deleteStaleTurns]
  exact Prog.run_batch _ _

theorem Represents.mem_turnKeys (h : Represents m R) (t a s : Bytes) (k : RecordKey) :
    k.key ∈ m.listKeysByPrefix (Keyspace.conversationTurnPrefix t a s) ↔
      (R.payload k).isSome ∧ ∃ i, k = .conversationTurn t a s i := by
  rw [m.mem_listKeysByPrefix, RecordKey.take_turnPrefix, h.get]

/-- **`Save` replaces the session.** -/
theorem Represents.save (h : Represents m R) {session : ConversationSession}
    (hs : session.sessionId ≠ []) (hlen : session.turns.length < 2 ^ 32) :
    ((ConversationStore.save session).run m).1 = .ok ∧
      Represents ((ConversationStore.save session).run m).2
        (R.setConversation session.id (some session)) := by
  rw [run_save hs]
  refine ⟨rfl, h.valid.setConversation (by rintro e ⟨⟩; exact ⟨rfl, hs, hlen⟩), ?_, ?_⟩
  · intro k
    rw [KVMap.get_foldl_put (nodup_sessionEntries hlen), lookup_sessionEntries hlen,
      KVMap.get_foldl_delete, R.payload_setConversation]
    by_cases hk : k.session? = some session.id
    · rw [if_pos hk, if_pos hk, Option.bind_some]
      cases hp : sessionPayload session k with
      | some v => rfl
      | none =>
        -- a turn beyond the last one: its old record was deleted
        obtain ⟨i, rfl⟩ : ∃ i, k = .conversationTurn session.tenant session.appId
            session.sessionId i := by
          cases k with
          | conversationTurn t a s i =>
            obtain ⟨rfl, rfl, rfl⟩ : t = session.tenant ∧ a = session.appId ∧
                s = session.sessionId := by
              simpa [RecordKey.session?, ConversationSession.id] using hk
            exact ⟨i, rfl⟩
          | conversation t a s => cases hp
          | conversationMeta t a s => cases hp
          | _ => cases hk
        rw [Option.none_or]
        split
        · rfl
        · rename_i hkept
          rw [h.mem_turnKeys, not_and] at hkept
          rw [h.get]
          exact Option.not_isSome_iff_eq_none.mp fun hp => hkept hp ⟨i, rfl⟩
    · rw [if_neg hk, if_neg hk, Option.none_or, if_neg, h.get]
      intro hstale
      obtain ⟨-, i, rfl⟩ := (h.mem_turnKeys _ _ _ k).mp hstale
      exact hk rfl
  · intro k hk
    rw [KVMap.get_foldl_put (nodup_sessionEntries hlen), KVMap.get_foldl_delete] at hk
    cases hl : (sessionEntries session).lookup k with
    | some v =>
      have hmem := (lookup_eq_some_of_nodup (nodup_sessionEntries hlen)).mp hl
      rw [sessionEntries_eq] at hmem
      obtain ⟨r, -, hr⟩ := List.mem_map.mp hmem
      exact ⟨r.1, (Prod.mk.inj hr).1.symm⟩
    | none =>
      rw [hl, Option.none_or] at hk
      split at hk
      · cases hk
      · exact h.key k hk

/-- **`Delete` removes the session.** -/
theorem Represents.deleteConversation (h : Represents m R) (t a s : Bytes) :
    Represents ((ConversationStore.delete t a s).run m).2 (R.setConversation (t, a, s) none) := by
  have hrun : ((ConversationStore.delete t a s).run m).2 =
      (m.listKeysByPrefix (Keyspace.conversationTurnPrefix t a s) ++
        [(RecordKey.conversationMeta t a s).key, (RecordKey.conversation t a s).key]).foldl
          KVMap.delete m := by
    rw [ConversationStore.delete, Prog.run, Prog.run_batchDelete]
    rfl
  rw [hrun]
  refine ⟨h.valid.setConversation (by simp), ?_, ?_⟩
  · intro k
    rw [KVMap.get_foldl_delete, R.payload_setConversation, h.get]
    have hmem : k.key ∈ m.listKeysByPrefix (Keyspace.conversationTurnPrefix t a s) ++
          [(RecordKey.conversationMeta t a s).key, (RecordKey.conversation t a s).key] ↔
        ((R.payload k).isSome ∧ ∃ i, k = .conversationTurn t a s i) ∨
          k.key = (RecordKey.conversationMeta t a s).key ∨
            k.key = (RecordKey.conversation t a s).key := by
      rw [List.mem_append, h.mem_turnKeys]
      simp
    by_cases hk : k.session? = some (t, a, s)
    · rw [if_pos hk]
      split
      · rfl
      · rename_i hkeep
        rw [hmem, not_or, not_or] at hkeep
        cases k with
        | conversation t' a' s' =>
          cases hk
          exact absurd rfl hkeep.2.2
        | conversationMeta t' a' s' =>
          cases hk
          exact absurd rfl hkeep.2.1
        | conversationTurn t' a' s' i =>
          cases hk
          exact Option.not_isSome_iff_eq_none.mp fun hp => hkeep.1 ⟨hp, i, rfl⟩
        | _ => cases hk
    · rw [if_neg hk, if_neg]
      rw [hmem]
      rintro (⟨-, i, rfl⟩ | he | he)
      · exact hk rfl
      · exact hk (by rw [RecordKey.key_injective he]; rfl)
      · exact hk (by rw [RecordKey.key_injective he]; rfl)
  · intro k hk
    rw [KVMap.get_foldl_delete] at hk
    split at hk
    · cases hk
    · exact h.key k hk

/-! ### Reading -/

/-- The turns of a session. -/
def Records.turns (R : Records) (id : Bytes × Bytes × Bytes) : List ConversationTurn :=
  match R.conversation id with
  | none => []
  | some session => session.turns

theorem Records.turns_setConversation (R : Records) (id : Bytes × Bytes × Bytes)
    (session : ConversationSession) :
    (R.setConversation id (some session)).turns id = session.turns := by
  show (match Function.update R.conversation id (some session) id with
    | none => _ | some _ => _) = _
  rw [Function.update_self]

/-- The session without the turns that do not parse. -/
def visible (session : ConversationSession) : ConversationSession :=
  { session with turns := session.turns.filter fun turn => turn.role ≠ [] }

theorem Represents.length_turns (h : Represents m R) (id : Bytes × Bytes × Bytes) :
    (R.turns id).length < 2 ^ 32 := by
  unfold Records.turns
  cases he : R.conversation id with
  | none => exact Nat.two_pow_pos 32
  | some session => exact (h.valid.conversation id session he).2.2

theorem payload_turn (R : Records) (t a s : Bytes) (i : UInt32) :
    R.payload (.conversationTurn t a s i) =
      ((R.turns (t, a, s))[i.toNat]?).map serializeConversationTurn := by
  unfold Records.turns
  show (R.conversation (t, a, s)).bind _ = _
  cases R.conversation (t, a, s) <;> rfl

/-- The turn records of a session. -/
def turnEntries (t a s : Bytes) (turns : List ConversationTurn) : List Entry :=
  turns.mapIdx fun i turn =>
    ((RecordKey.conversationTurn t a s (UInt32.ofNat i)).key, serializeConversationTurn turn)

theorem sorted_turnEntries (t a s : Bytes) {turns : List ConversationTurn}
    (hlen : turns.length < 2 ^ 32) : SortedKeys (turnEntries t a s turns) := by
  refine List.pairwise_iff_getElem.mpr ?_
  intro i j hi hj hij
  rw [turnEntries, List.length_mapIdx] at hi hj
  simp only [turnEntries, List.getElem_mapIdx]
  refine RecordKey.conversationTurn_lt t a s ?_
  rw [toNat_ofNat (lt_trans hi hlen), toNat_ofNat (lt_trans hj hlen)]
  exact hij

theorem filterMap_parse (turns : List ConversationTurn) :
    (turns.map serializeConversationTurn).filterMap parseConversationTurn =
      turns.filter fun turn => turn.role ≠ [] := by
  induction turns with
  | nil => rfl
  | cons turn turns ih =>
    rw [List.map_cons, List.filterMap_cons, parseConversationTurn_serializeConversationTurn, ih,
      List.filter_cons]
    by_cases hr : turn.role = [] <;> simp [hr]

theorem run_listTurns {t a s : Bytes} {turns : List ConversationTurn}
    (hlist : m.listEntriesByPrefix (Keyspace.conversationTurnPrefix t a s) =
      turnEntries t a s turns) :
    (ConversationStore.listTurns t a s).run m =
      (turns.filter (fun turn => turn.role ≠ []), m) := by
  rw [ConversationStore.listTurns, Prog.run, Prog.run, hlist, ← filterMap_parse, turnEntries]
  refine congrArg (·, m) ?_
  show List.filterMap (parseConversationTurn ∘ Prod.snd) _ = _
  rw [← List.filterMap_map, map_mapIdx]
  refine congrArg (List.filterMap parseConversationTurn) ?_
  refine List.ext_getElem (by simp) ?_
  intro i _ _
  simp

/-- **The turn records are listed in the order of the turns.** -/
theorem Represents.listEntries (h : Represents m R) (t a s : Bytes) :
    m.listEntriesByPrefix (Keyspace.conversationTurnPrefix t a s) =
      turnEntries t a s (R.turns (t, a, s)) := by
  have hlen := h.length_turns (t, a, s)
  refine List.Pairwise.eq_of_mem_iff (r := fun a b : Entry => a.1 < b.1)
    (m.sorted_listEntriesByPrefix _) (sorted_turnEntries t a s hlen) ?_
  rintro ⟨k, v⟩
  rw [m.mem_listEntriesByPrefix, turnEntries, List.mem_mapIdx]
  constructor
  · rintro ⟨hget, hpre⟩
    obtain ⟨r, rfl⟩ := h.key k (by rw [hget]; rfl)
    obtain ⟨i, rfl⟩ := (RecordKey.take_turnPrefix t a s r).mp hpre
    have hpay : R.payload (.conversationTurn t a s i) = some v := by rw [← h.get, hget]
    rw [payload_turn] at hpay
    obtain ⟨turn, hturn, rfl⟩ := Option.map_eq_some_iff.mp hpay
    obtain ⟨hi, rfl⟩ := List.getElem?_eq_some_iff.mp hturn
    exact ⟨i.toNat, hi, by rw [UInt32.ofNat_toNat]⟩
  · rintro ⟨i, hi, he⟩
    obtain ⟨rfl, rfl⟩ := Prod.mk.inj he
    refine ⟨?_, (RecordKey.take_turnPrefix t a s _).mpr ⟨_, rfl⟩⟩
    show m.get (RecordKey.conversationTurn t a s (UInt32.ofNat i)).key = _
    rw [h.get, payload_turn, toNat_ofNat (lt_trans hi hlen), List.getElem?_eq_getElem hi]
    rfl

theorem Represents.listTurns (h : Represents m R) (t a s : Bytes) :
    (ConversationStore.listTurns t a s).run m =
      ((R.turns (t, a, s)).filter (fun turn => turn.role ≠ []), m) :=
  run_listTurns (h.listEntries t a s)

/-- **`Get` reads the session, without the turns that do not parse.** -/
theorem Represents.getConversation (h : Represents m R) (t a s : Bytes) :
    (ConversationStore.get t a s).run m = ((R.conversation (t, a, s)).map visible, m) := by
  have hmeta := h.get (.conversationMeta t a s)
  have hlegacy := h.get (.conversation t a s)
  have hsession : ∀ k : RecordKey, k.session? = some (t, a, s) →
      R.payload k = (R.conversation (t, a, s)).bind (sessionPayload · k) :=
    fun k hk => R.payload_of_session hk
  show (getWith t a s (m.get (RecordKey.conversationMeta t a s).key)).run m = _
  rw [hmeta, hsession _ rfl]
  rw [hsession _ rfl] at hlegacy
  have hturns := h.listTurns t a s
  unfold Records.turns at hturns
  cases he : R.conversation (t, a, s) with
  | none =>
    rw [he] at hlegacy
    show ((m.get (RecordKey.conversation t a s).key).bind parseLegacyConversation, m) = _
    rw [hlegacy]
    rfl
  | some session =>
    obtain ⟨hid, hs, -⟩ := h.valid.conversation _ session he
    rw [he] at hturns
    show (getWith t a s (some (serializeConversationSummary (summaryOf session)))).run m = _
    rw [getWith, parseConversationSummary_serializeConversationSummary (summaryOf session) hs,
      Prog.run_bind, hturns]
    rfl

end

/-! ### A saved session on any map

`Save` clears everything under the turn prefix first, whoever put it there, so these
results hold for every map and not only for one that holds records. -/

theorem get_run_save {session : ConversationSession} (hs : session.sessionId ≠ [])
    (hlen : session.turns.length < 2 ^ 32) (m : KVMap) (k : Bytes) :
    ((save session).run m).2.get k =
      ((sessionEntries session).lookup k).or
        (if k ∈ m.listKeysByPrefix (Keyspace.conversationTurnPrefix session.tenant session.appId
          session.sessionId) then none else m.get k) := by
  rw [run_save hs]
  show KVMap.get _ k = _
  rw [KVMap.get_foldl_put (nodup_sessionEntries hlen), KVMap.get_foldl_delete]

theorem get_run_save_turns {session : ConversationSession} (hs : session.sessionId ≠ [])
    (hlen : session.turns.length < 2 ^ 32) (m : KVMap) {k : Bytes}
    (hpre : k.take (Keyspace.conversationTurnPrefix session.tenant session.appId
      session.sessionId).length = Keyspace.conversationTurnPrefix session.tenant session.appId
        session.sessionId) :
    ((save session).run m).2.get k = (sessionEntries session).lookup k := by
  rw [get_run_save hs hlen]
  have hold : (if k ∈ m.listKeysByPrefix (Keyspace.conversationTurnPrefix session.tenant
      session.appId session.sessionId) then none else m.get k) = none := by
    split
    · rfl
    · rename_i hkept
      rw [m.mem_listKeysByPrefix, not_and_or] at hkept
      exact Option.not_isSome_iff_eq_none.mp (hkept.resolve_right fun hn => hn hpre)
  rw [hold, Option.or_none]

/-- **After `Save` the turn prefix lists the turns in their order.** -/
theorem listEntries_run_save {session : ConversationSession} (hs : session.sessionId ≠ [])
    (hlen : session.turns.length < 2 ^ 32) (m : KVMap) :
    ((save session).run m).2.listEntriesByPrefix (Keyspace.conversationTurnPrefix session.tenant
        session.appId session.sessionId) =
      turnEntries session.tenant session.appId session.sessionId session.turns := by
  refine List.Pairwise.eq_of_mem_iff (r := fun a b : Entry => a.1 < b.1)
    (KVMap.sorted_listEntriesByPrefix _ _) (sorted_turnEntries _ _ _ hlen) ?_
  rintro ⟨k, v⟩
  rw [KVMap.mem_listEntriesByPrefix]
  constructor
  · rintro ⟨hget, hpre⟩
    rw [get_run_save_turns hs hlen m hpre,
      lookup_eq_some_of_nodup (nodup_sessionEntries hlen), sessionEntries_eq] at hget
    obtain ⟨⟨r, v'⟩, hmem, hr⟩ := List.mem_map.mp hget
    obtain ⟨rfl, rfl⟩ := Prod.mk.inj hr
    obtain ⟨i, rfl⟩ := (RecordKey.take_turnPrefix _ _ _ r).mp hpre
    simp only [sessionRecords, List.mem_cons, Prod.mk.injEq, reduceCtorEq, false_and, false_or,
      List.mem_mapIdx] at hmem
    obtain ⟨j, hj, hkey, hv⟩ := hmem
    exact List.mem_mapIdx.mpr ⟨j, hj, by rw [hkey, hv]⟩
  · intro hmem
    obtain ⟨i, hi, he⟩ := List.mem_mapIdx.mp hmem
    obtain ⟨rfl, rfl⟩ := Prod.mk.inj he
    have hpre := (RecordKey.take_turnPrefix session.tenant session.appId session.sessionId
      (.conversationTurn _ _ _ (UInt32.ofNat i))).mpr ⟨_, rfl⟩
    refine ⟨?_, hpre⟩
    refine (get_run_save_turns hs hlen m hpre).trans ?_
    refine (lookup_sessionEntries_of_session hlen
      (k := .conversationTurn _ _ _ (UInt32.ofNat i)) rfl).trans ?_
    rw [sessionPayload, toNat_ofNat (lt_trans hi hlen), List.getElem?_eq_getElem hi]
    rfl

/-- **What `Get` reads right after `Save`.** -/
theorem get_after_save {session : ConversationSession} (hs : session.sessionId ≠ [])
    (hlen : session.turns.length < 2 ^ 32) (m : KVMap) :
    ((ConversationStore.get session.tenant session.appId session.sessionId).run
      ((save session).run m).2).1 = some (visible session) := by
  have hmeta : ((save session).run m).2.get (Keyspace.conversationMeta session.tenant
      session.appId session.sessionId) =
        some (serializeConversationSummary (summaryOf session)) := by
    have hlookup := lookup_sessionEntries_of_session hlen
      (k := .conversationMeta session.tenant session.appId session.sessionId) rfl
    refine (get_run_save hs hlen m _).trans ?_
    refine (congrArg (Option.or · _) hlookup).trans ?_
    rfl
  rw [ConversationStore.get, Prog.run, hmeta, getWith,
    parseConversationSummary_serializeConversationSummary (summaryOf session) hs, Prog.run_bind,
    run_listTurns (listEntries_run_save hs hlen m)]
  rfl

/-- `Get` returns the session and `ListTurns` its turns. -/
def TurnsKept (session : ConversationSession) (m : KVMap) : Prop :=
  ((ConversationStore.get session.tenant session.appId session.sessionId).run m).1 =
      some session ∧
    ((ConversationStore.listTurns session.tenant session.appId session.sessionId).run m).1 =
      session.turns

/-- **`Save` drops no turn exactly when every turn has a role.**  Whatever the store held
before, `Save` succeeds on it. -/
theorem save_keeps_turns_iff (m : KVMap) (session : ConversationSession)
    (hs : session.sessionId ≠ []) (hlen : session.turns.length < 2 ^ 32) :
    ((save session).run m).1 = .ok ∧
      (TurnsKept session ((save session).run m).2 ↔ ∀ turn ∈ session.turns, turn.role ≠ []) := by
  refine ⟨by rw [run_save hs], ?_⟩
  rw [TurnsKept, get_after_save hs hlen, run_listTurns (listEntries_run_save hs hlen m)]
  have hfilter : session.turns.filter (fun turn => turn.role ≠ []) = session.turns ↔
      ∀ turn ∈ session.turns, turn.role ≠ [] := by
    simp only [List.filter_eq_self, decide_eq_true_eq]
  constructor
  · rintro ⟨-, hturns⟩
    exact hfilter.mp hturns
  · intro hroles
    refine ⟨?_, hfilter.mpr hroles⟩
    rw [visible, hfilter.mpr hroles]

/-- A store with a key of somebody else under the turn prefix. -/
theorem save_keeps_turns_iff_strayKey :
    let m := KVMap.empty.put (Keyspace.conversationTurnPrefix (text "t") (text "a") (text "s") ++
      text "s") [7]
    let session : ConversationSession :=
      ⟨text "t", text "a", text "s", [], [⟨text "user", [10, 9], 1⟩, ⟨text "bot", [], -1⟩]⟩
    ((save session).run m).1 = .ok ∧
      (TurnsKept session ((save session).run m).2 ↔ ∀ turn ∈ session.turns, turn.role ≠ []) :=
  save_keeps_turns_iff _ _ (by decide) (by decide)

/-- **A turn without a role is dropped.** -/
theorem empty_role_dropped :
    let session : ConversationSession := ⟨text "t", text "a", text "s", [], [⟨[], text "hi", 5⟩]⟩
    ((save session).run KVMap.empty).1 = .ok ∧
      ((ConversationStore.get (text "t") (text "a") (text "s")).run
        ((save session).run KVMap.empty).2).1 = some { session with turns := [] } ∧
      ((ConversationStore.listTurns (text "t") (text "a") (text "s")).run
        ((save session).run KVMap.empty).2).1 = [] := by
  decide +kernel

end Mokv.LLM
