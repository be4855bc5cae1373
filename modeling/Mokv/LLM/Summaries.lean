import Mokv.LLM.Listing

/-!
# One summary for each conversation

`ConversationStore::List` takes for a summary what stands under a key that ends with
`:meta` and parses as one.  The legacy record of a session stands under the key that ends
with its id, and it parses as a summary without turns.  So a session whose id is `meta`, or
ends with `:meta`, is listed twice.

* `endsWith_conversation_iff`: these are the only ids whose legacy key ends like that,
  since the colon in `:meta` is either the separator or an escaped colon of the id.
* `one_summary_each_iff`: **each live session has one summary exactly when no live session
  has such an id.**
-/

namespace Mokv.LLM

open Lib Codec ConversationStore DBKVStore

/-! ### Keys that look like the key of a summary -/

/-- The id is `meta` or ends with `:meta`. -/
def LooksLikeMeta (sessionId : Bytes) : Prop := text ":meta" <:+ 58 :: sessionId

instance (sessionId : Bytes) : Decidable (LooksLikeMeta sessionId) :=
  inferInstanceAs (Decidable (text ":meta" <:+ 58 :: sessionId))

theorem endsWith_iff (value suffix : Bytes) : endsWith value suffix = true ↔ suffix <:+ value := by
  rw [endsWith, Bool.and_eq_true, decide_eq_true_iff, decide_eq_true_iff, List.suffix_iff_eq_drop]
  constructor
  · rintro ⟨-, h⟩
    exact h.symm
  · intro h
    refine ⟨?_, h.symm⟩
    exact (List.suffix_iff_eq_drop.mpr h).length_le

/-- A suffix that starts with its only colon lies behind the last separator. -/
theorem suffix_append_cons_iff {α : Type} {d : α} {w : List α} (hw : d ∉ w) (x y : List α) :
    d :: w <:+ x ++ d :: y ↔ d :: w <:+ d :: y := by
  constructor
  · intro h
    rcases List.suffix_or_suffix_of_suffix h (List.suffix_append x (d :: y)) with h | h
    · exact h
    · rcases List.suffix_cons_iff.mp h with heq | hw'
      · rw [heq]
      · exact absurd (hw'.subset List.mem_cons_self) hw
  · intro h
    exact h.trans (List.suffix_append x (d :: y))

/-- **When the legacy key of a session ends with `:meta`.** -/
theorem endsWith_conversation_iff (t a s : Bytes) :
    endsWith (Keyspace.conversation t a s) (text ":meta") = true ↔ LooksLikeMeta s := by
  have hmeta : text ":meta" = 58 :: text "meta" := rfl
  have hall : ((text "meta").all fun ch => (keyPartLetter ch).isNone) = true := by decide
  have hplain : ∀ ch ∈ text "meta", keyPartLetter ch = none := fun ch hch =>
    Option.isNone_iff_eq_none.mp (List.all_eq_true.mp hall ch hch)
  rw [endsWith_iff, LooksLikeMeta, hmeta]
  show _ <:+ Keyspace.conversationPrefix t a ++ 58 :: escapeKeyPart s ↔ _
  rw [suffix_append_cons_iff (by decide), List.suffix_cons_iff, List.suffix_cons_iff]
  refine or_congr ?_ (keyPartCode.suffix_encode_iff (by decide) (by decide) hplain s)
  have hself : keyPartCode.encode (text "meta") = text "meta" := keyPartCode.encode_eq_self hplain
  constructor
  · intro h
    have henc : keyPartCode.encode (text "meta") = keyPartCode.encode s :=
      hself.trans (List.cons.inj h).2
    rw [keyPartCode.encode_injective henc]
  · intro h
    rw [← (List.cons.inj h).2]
    exact congrArg (58 :: ·) hself.symm

/-! ### What the listing holds of a session -/

/-- The summary of a session that its legacy record passes for. -/
def legacySummary (session : ConversationSession) : ConversationSummary :=
  ⟨session.tenant, session.appId, session.sessionId, session.model, 0, 0⟩

/-- The item of a scan is listed, with this session id. -/
def ListedFor (s : Bytes) (item : Entry) : Bool :=
  endsWith item.1 (text ":meta") &&
    (parseConversationSummary item.2).any fun summary => summary.sessionId = s

/-- The items of a session that are listed. -/
def listedItems (t a s : Bytes) : Option ConversationSession → List Entry
  | none => []
  | some session =>
    (if LooksLikeMeta s then [(Keyspace.conversation t a s, serializeLegacyConversation session)]
      else []) ++
      [(Keyspace.conversationMeta t a s, serializeConversationSummary (summaryOf session))]

/-- The summaries of a session that are listed. -/
def listedSummaries (s : Bytes) : Option ConversationSession → List ConversationSummary
  | none => []
  | some session =>
    (if LooksLikeMeta s then [legacySummary session] else []) ++ [summaryOf session]

theorem conversation_lt_conversationMeta (t a s : Bytes) :
    Keyspace.conversation t a s < Keyspace.conversationMeta t a s := by
  have hkey : Keyspace.conversationMeta t a s =
      Keyspace.conversation t a s ++ 58 :: escapeKeyPart (text "meta") := rfl
  rw [hkey]
  nth_rewrite 1 [← List.append_nil (Keyspace.conversation t a s)]
  exact List.append_left_lt (List.nil_lt_cons _ _)

theorem sorted_listedItems (t a s : Bytes) (o : Option ConversationSession) :
    SortedKeys (listedItems t a s o) := by
  cases o with
  | none => exact sortedKeys_nil
  | some session =>
    rw [listedItems]
    split
    · exact sortedKeys_cons.mpr ⟨by simpa using conversation_lt_conversationMeta t a s,
        sortedKeys_cons.mpr ⟨by simp, sortedKeys_nil⟩⟩
    · exact sortedKeys_cons.mpr ⟨by simp, sortedKeys_nil⟩

theorem filter_filterMap_any {α β : Type} (f : α → Option β) (p : β → Bool) (l : List α) :
    (l.filterMap f).filter p = (l.filter fun x => (f x).any p).filterMap f := by
  induction l with
  | nil => rfl
  | cons x l ih =>
    cases hx : f x with
    | none => simp [hx, ih]
    | some y => by_cases hp : p y <;> simp [hx, hp, ih]

theorem listedFor_iff {session : ConversationSession} (hs : session.sessionId ≠ [])
    {k : RecordKey} (hk : k.session? = some session.id) {value : Bytes}
    (hpay : sessionPayload session k = some value) (s : Bytes) :
    ListedFor s (k.key, value) = true ↔
      session.sessionId = s ∧
        (k = .conversationMeta session.tenant session.appId session.sessionId ∨
          k = .conversation session.tenant session.appId session.sessionId ∧ LooksLikeMeta s) := by
  rw [ListedFor, Bool.and_eq_true]
  cases k with
  | conversation t a s' =>
    obtain ⟨rfl, rfl, rfl⟩ : t = session.tenant ∧ a = session.appId ∧ s' = session.sessionId := by
      simpa [RecordKey.session?, ConversationSession.id] using hk
    obtain rfl := Option.some.inj hpay
    rw [parseConversationSummary_serializeLegacyConversation hs]
    show endsWith (Keyspace.conversation _ _ _) _ = true ∧ _ ↔ _
    rw [endsWith_conversation_iff]
    simp only [Option.any_some, decide_eq_true_eq, reduceCtorEq, true_and, false_or]
    constructor
    · rintro ⟨hl, rfl⟩
      exact ⟨rfl, hl⟩
    · rintro ⟨rfl, hl⟩
      exact ⟨hl, rfl⟩
  | conversationMeta t a s' =>
    obtain ⟨rfl, rfl, rfl⟩ : t = session.tenant ∧ a = session.appId ∧ s' = session.sessionId := by
      simpa [RecordKey.session?, ConversationSession.id] using hk
    obtain rfl := Option.some.inj hpay
    rw [parseConversationSummary_serializeConversationSummary (summaryOf session) hs]
    show endsWith (Keyspace.conversationMeta _ _ _) _ = true ∧ _ ↔ _
    rw [endsWith_conversationMeta]
    simp [summaryOf]
  | conversationTurn t a s' i =>
    obtain ⟨turn, -, rfl⟩ := Option.map_eq_some_iff.mp hpay
    rw [parseConversationSummary_serializeConversationTurn]
    simp
  | promptCache t a mo p => cases hk
  | retrieval t b d c => cases hk
  | runtimeConfig t a p => cases hk

section

variable {m : KVMap} {R : Records} {t a : Bytes}

theorem Represents.listedFor_of_kind (h : Represents m R) {session : ConversationSession}
    (he : R.conversation session.id = some session) {k : RecordKey}
    (hk : k.session? = some session.id) {v : Bytes} (hv : sessionPayload session k = some v)
    (hkind : k = .conversationMeta session.tenant session.appId session.sessionId ∨
      k = .conversation session.tenant session.appId session.sessionId ∧
        LooksLikeMeta session.sessionId) :
    (∃ k' : RecordKey, k.key = k'.key ∧ R.payload k' = some v ∧
        Keyspace.conversationPrefix session.tenant session.appId <+: k'.key) ∧
      ListedFor session.sessionId (k.key, v) = true := by
  obtain ⟨-, hs, -⟩ := h.valid.conversation _ session he
  refine ⟨⟨k, rfl, ?_, ?_⟩, (listedFor_iff hs hk hv _).mpr ⟨rfl, hkind⟩⟩
  · rw [R.payload_of_session hk]
    exact (congrArg (Option.bind · _) he).trans hv
  · exact (RecordKey.conversationPrefix_isPrefix _ _ k).mpr ⟨_, _, hk, List.prefix_refl _⟩

/-- **The items that are listed for a session.** -/
theorem Represents.scan_listedFor (h : Represents m R)
    (hown : ∀ a' s, (R.conversation (t, a', s)).isSome → a' = a) (s : Bytes) :
    (m.listEntriesByPrefix (Keyspace.conversationPrefix t a)).filter (ListedFor s) =
      listedItems t a s (R.conversation (t, a, s)) := by
  refine List.Pairwise.eq_of_mem_iff (r := fun x y : Entry => x.1 < y.1)
    ((m.sorted_listEntriesByPrefix _).filter _) (sorted_listedItems t a s _) ?_
  rintro ⟨key, value⟩
  rw [List.mem_filter, h.mem_scan]
  constructor
  · rintro ⟨⟨k, rfl, hpay, hpre⟩, hlisted⟩
    obtain ⟨a', s', hsession, -⟩ := (RecordKey.conversationPrefix_isPrefix t a k).mp hpre
    rw [R.payload_of_session hsession] at hpay
    obtain ⟨session, he, hsaved⟩ := Option.bind_eq_some_iff.mp hpay
    obtain rfl := hown a' s' (Option.isSome_of_mem he)
    obtain ⟨hid, hs, -⟩ := h.valid.conversation _ session he
    rw [← hid] at hsession
    obtain ⟨rfl, hkind⟩ := (listedFor_iff hs hsession hsaved s).mp hlisted
    obtain ⟨rfl, rfl, rfl⟩ : session.tenant = t ∧ session.appId = a' ∧ session.sessionId = s' := by
      simpa [ConversationSession.id] using hid
    rw [he, listedItems, List.mem_append, List.mem_singleton]
    rcases hkind with rfl | ⟨rfl, hlooks⟩
    · obtain rfl := Option.some.inj hsaved
      exact Or.inr rfl
    · obtain rfl := Option.some.inj hsaved
      rw [if_pos hlooks]
      exact Or.inl (List.mem_singleton_self _)
  · intro hmem
    cases he : R.conversation (t, a, s) with
    | none =>
      rw [he] at hmem
      cases hmem
    | some session =>
      obtain ⟨hid, hs, -⟩ := h.valid.conversation _ session he
      obtain ⟨rfl, rfl, rfl⟩ : session.tenant = t ∧ session.appId = a ∧ session.sessionId = s := by
        simpa [ConversationSession.id] using hid
      rw [he, listedItems, List.mem_append, List.mem_singleton] at hmem
      rcases hmem with hmem | hmem
      · by_cases hlooks : LooksLikeMeta session.sessionId
        · rw [if_pos hlooks, List.mem_singleton] at hmem
          obtain ⟨rfl, rfl⟩ := Prod.mk.inj hmem
          exact h.listedFor_of_kind he rfl rfl (Or.inr ⟨rfl, hlooks⟩)
        · rw [if_neg hlooks] at hmem
          cases hmem
      · obtain ⟨rfl, rfl⟩ := Prod.mk.inj hmem
        exact h.listedFor_of_kind he rfl rfl (Or.inl rfl)

/-- **The summaries that are listed for a session**, in some order. -/
theorem Represents.list_for (h : Represents m R)
    (hown : ∀ a' s, (R.conversation (t, a', s)).isSome → a' = a) (s : Bytes) :
    (((ConversationStore.list t a).run m).1.filter fun summary => summary.sessionId = s).Perm
      (listedSummaries s (R.conversation (t, a, s))) := by
  have hsort : ((ConversationStore.list t a).run m).1.Perm
      (((m.listEntriesByPrefix (Keyspace.conversationPrefix t a)).filter fun item =>
        endsWith item.1 (text ":meta")).filterMap fun item => parseConversationSummary item.2) :=
    List.perm_insertionSort _ _
  refine (hsort.filter _).trans (List.Perm.of_eq ?_)
  rw [filter_filterMap_any, List.filter_filter]
  have hitems := h.scan_listedFor hown s
  have hpred : (fun item : Entry => (parseConversationSummary item.2).any (fun summary =>
      decide (summary.sessionId = s)) && endsWith item.1 (text ":meta")) = ListedFor s := by
    funext item
    exact Bool.and_comm _ _
  rw [hpred, hitems]
  cases he : R.conversation (t, a, s) with
  | none => rfl
  | some session =>
    obtain ⟨hid, hs, -⟩ := h.valid.conversation _ session he
    rw [listedItems, listedSummaries, List.filterMap_append]
    have hmeta := parseConversationSummary_serializeConversationSummary (summaryOf session) hs
    have hlegacy := parseConversationSummary_serializeLegacyConversation hs
    by_cases hlooks : LooksLikeMeta s
    · simp [hlooks, hmeta, hlegacy, legacySummary]
    · simp [hlooks, hmeta]

end

/-! ### Runs under one app -/

/-- A `Save` or `Delete` under one tenant and app that succeeds: the session has an id, and
its turns can be counted in a `uint32_t`. -/
def Call.Under (t a : Bytes) : Call → Prop
  | .save session => session.tenant = t ∧ session.appId = a ∧ session.sessionId ≠ [] ∧
      session.turns.length < 2 ^ 32
  | .deleteConversation t' a' s => t' = t ∧ a' = a ∧ s ≠ []
  | _ => False

instance (t a : Bytes) : DecidablePred (Call.Under t a)
  | .save session => inferInstanceAs (Decidable (session.tenant = t ∧ session.appId = a ∧
      session.sessionId ≠ [] ∧ session.turns.length < 2 ^ 32))
  | .deleteConversation t' a' s => inferInstanceAs (Decidable (t' = t ∧ a' = a ∧ s ≠ []))
  | .putPromptCache _ => isFalse id
  | .deletePromptCache _ _ _ _ => isFalse id
  | .appendTurn _ _ => isFalse id
  | .trimToLastTurns _ _ _ _ => isFalse id
  | .putRetrieval _ => isFalse id
  | .deleteRetrieval _ _ _ _ => isFalse id
  | .putRuntimeConfig _ => isFalse id
  | .deleteRuntimeConfig _ _ _ => isFalse id

/-- The session with this id after one more call. -/
def liveStep (s : Bytes) (old : Option ConversationSession) : Call → Option ConversationSession
  | .save session => if session.sessionId = s then some session else old
  | .deleteConversation _ _ s' => if s' = s then none else old
  | _ => old

/-- The session that was saved last under an id and not deleted since. -/
def liveSession (calls : List Call) (s : Bytes) : Option ConversationSession :=
  calls.foldl (liveStep s) none

/-- **One summary for each live session**, with the number of its turns and the time of the
last one. -/
def OneSummaryEach (live : Bytes → Option ConversationSession)
    (summaries : List ConversationSummary) : Prop :=
  ∀ s, match live s with
    | none => (summaries.filter fun summary => summary.sessionId = s) = []
    | some session => ∃ summary, (summaries.filter fun summary => summary.sessionId = s) =
        [summary] ∧ summary.turnCount.toNat = session.turns.length ∧
          summary.updatedAtMs = lastTurnTimestamp session.turns

theorem conversation_eq_liveSession {t a : Bytes} {calls : List Call}
    (hcalls : ∀ call ∈ calls, call.Under t a) (t' a' s : Bytes) :
    (calls.foldl Records.stepSeen Records.empty).conversation (t', a', s) =
      if t' = t ∧ a' = a then liveSession calls s else none := by
  induction calls using List.reverseRecOn with
  | nil => exact (ite_self _).symm
  | append_singleton calls call ih =>
    have ih := ih fun c hc => hcalls c (List.mem_append_left _ hc)
    have hcall := hcalls call (List.mem_append_right _ (List.mem_singleton_self call))
    rw [List.foldl_append, List.foldl_cons, List.foldl_nil, liveSession, List.foldl_append,
      List.foldl_cons, List.foldl_nil]
    cases call with
    | save session =>
      obtain ⟨rfl, rfl, hs, -⟩ := hcall
      show Records.conversation (Records.saved _ session) _ = _
      rw [Records.saved, if_neg hs]
      show Function.update (Records.conversation _) session.id (some session) _ = _
      rw [Function.update_apply, ih, liveStep]
      by_cases hta : t' = session.tenant ∧ a' = session.appId
      · obtain ⟨rfl, rfl⟩ := hta
        by_cases hid : session.sessionId = s
        · simp [ConversationSession.id, hid]
        · simp [ConversationSession.id, hid, Ne.symm hid, liveSession]
      · rw [if_neg hta, if_neg hta, if_neg]
        simp only [ConversationSession.id, Prod.mk.injEq]
        tauto
    | deleteConversation t'' a'' s' =>
      obtain ⟨rfl, rfl, -⟩ := hcall
      show Function.update (Records.conversation _) (t'', a'', s') none _ = _
      rw [Function.update_apply, ih, liveStep]
      by_cases hta : t' = t'' ∧ a' = a''
      · obtain ⟨rfl, rfl⟩ := hta
        by_cases hid : s' = s
        · simp [hid]
        · simp [hid, Ne.symm hid, liveSession]
      · rw [if_neg hta, if_neg hta, if_neg]
        simp only [Prod.mk.injEq]
        tauto
    | putPromptCache entry => exact hcall.elim
    | deletePromptCache t a m p => exact hcall.elim
    | appendTurn d turn => exact hcall.elim
    | trimToLastTurns t a s keep => exact hcall.elim
    | putRetrieval chunk => exact hcall.elim
    | deleteRetrieval t b d c => exact hcall.elim
    | putRuntimeConfig record => exact hcall.elim
    | deleteRuntimeConfig t a p => exact hcall.elim

theorem stepsOk_of_under {t a : Bytes} {calls : List Call}
    (hcalls : ∀ call ∈ calls, call.Under t a) (m : KVMap) :
    StepsOk step (fun m call => call.Fits m) m calls := by
  induction calls generalizing m with
  | nil => trivial
  | cons call calls ih =>
    refine ⟨?_, fun m' _ => ih (fun c hc => hcalls c (List.mem_cons_of_mem _ hc)) m'⟩
    have hcall := hcalls call List.mem_cons_self
    cases call with
    | save session => exact hcall.2.2.2
    | deleteConversation t' a' s => trivial
    | appendTurn d turn => exact hcall.elim
    | _ => trivial

/-- **Each live session has one summary exactly when no live session has an id that is
`meta` or ends with `:meta`.** -/
theorem one_summary_each_iff (cfg : DBConfig) (files : LSM.Files) (t a : Bytes)
    (calls : List Call) (hcalls : ∀ call ∈ calls, call.Under t a) :
    OneSummaryEach (liveSession calls)
        ((ConversationStore.list t a).runDB cfg
          (calls.foldl (stepDB cfg) (ofDB (DB.new files)))).1 ↔
      ∀ s, (liveSession calls s).isSome → ¬ LooksLikeMeta s := by
  obtain ⟨m, hrun, hrep⟩ := exists_represents_seen calls (stepsOk_of_under hcalls _)
  have hag := agrees_run cfg (agrees_new files) hrun
  have hlist : (ConversationStore.list t a).Allowed := fun _ => trivial
  rw [(Prog.runDB_eq_run cfg _ hlist hag).1]
  have hlive : ∀ s, (calls.foldl Records.stepSeen Records.empty).conversation (t, a, s) =
      liveSession calls s := by
    intro s
    rw [conversation_eq_liveSession hcalls, if_pos ⟨rfl, rfl⟩]
  have hown : ∀ a' s, ((calls.foldl Records.stepSeen Records.empty).conversation
      (t, a', s)).isSome → a' = a := by
    intro a' s hsome
    rw [conversation_eq_liveSession hcalls] at hsome
    split at hsome
    · rename_i hta
      exact hta.2
    · cases hsome
  have hfor := fun s => hlive s ▸ hrep.list_for hown s
  constructor
  · intro hone s hsome hlooks
    obtain ⟨session, hs⟩ := Option.isSome_iff_exists.mp hsome
    have hs1 := hone s
    have hs2 := hfor s
    rw [hs] at hs1 hs2
    obtain ⟨summary, heq, -⟩ := hs1
    rw [heq, listedSummaries, if_pos hlooks] at hs2
    exact absurd hs2.length_eq (by simp)
  · intro hno s
    have hs2 := hfor s
    cases hs : liveSession calls s with
    | none =>
      rw [hs] at hs2
      exact List.perm_nil.mp hs2
    | some session =>
      have hlooks := hno s (by rw [hs]; rfl)
      rw [hs, listedSummaries, if_neg hlooks, List.nil_append, List.perm_singleton] at hs2
      have hlen := (hrep.valid.conversation _ session ((hlive s).trans hs)).2.2
      exact ⟨summaryOf session, hs2, toNat_ofNat hlen, rfl⟩

/-- A save, a save of the same session with more turns, another session, and a deletion. -/
def savesAndDelete : List Call :=
  [.save ⟨text "t", text "a", text "s:1", [], [⟨text "user", [], 4⟩]⟩,
    .save ⟨text "t", text "a", text "metal", [], []⟩,
    .save ⟨text "t", text "a", text "s:1", [], [⟨text "user", [], 4⟩, ⟨[], [], 7⟩]⟩,
    .deleteConversation (text "t") (text "a") (text "metal")]

theorem one_summary_each_iff_savesAndDelete :
    OneSummaryEach (liveSession savesAndDelete)
        ((ConversationStore.list (text "t") (text "a")).runDB ⟨4, payload⟩
          (savesAndDelete.foldl (stepDB ⟨4, payload⟩) (ofDB (DB.new fun _ => none)))).1 ↔
      ∀ s, (liveSession savesAndDelete s).isSome → ¬ LooksLikeMeta s :=
  one_summary_each_iff ⟨4, payload⟩ (fun _ => none) (text "t") (text "a") savesAndDelete (by decide)

/-- **A session called `meta` is listed twice**, once without its turn. -/
theorem session_meta_listed_twice :
    ((ConversationStore.list (text "t") (text "a")).runDB ⟨4, payload⟩
        ([Call.save ⟨text "t", text "a", text "meta", [], [⟨text "user", [], 4⟩]⟩].foldl
          (stepDB ⟨4, payload⟩) (ofDB (DB.new fun _ => none)))).1 =
      [⟨text "t", text "a", text "meta", [], 1, 4⟩,
        ⟨text "t", text "a", text "meta", [], 0, 0⟩] := by
  have hrun : run step KVMap.empty
      [Call.save ⟨text "t", text "a", text "meta", [], [⟨text "user", [], 4⟩]⟩] = some _ := rfl
  have hag := agrees_run ⟨4, payload⟩ (agrees_new fun _ => none) hrun
  have hlist : (ConversationStore.list (text "t") (text "a")).Allowed := fun _ => trivial
  rw [(Prog.runDB_eq_run _ _ hlist hag).1]
  decide +kernel

end Mokv.LLM
