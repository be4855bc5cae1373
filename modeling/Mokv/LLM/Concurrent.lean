import Mokv.KVStore.Threads
import Mokv.LLM.Conversations

/-!
# Turns appended at the same time

Several `AppendTurn` calls on one session, with the operations of the key-value store as
atomic steps.  A call reads the summary, then the turns, and then deletes and rewrites all
records of the session; nothing keeps two calls apart.  So a call that reads the turns while
another one is rewriting them loses turns (`appended_turn_lost`).

When every call reads the turns outside the others' rewriting (`ReadsAlone`), the rewritings
follow each other and no turn is lost (`no_turn_lost`).  The read of the summary may happen
at any time: only the identifiers and the model come from it.
-/

namespace Mokv.LLM

open Lib Codec ConversationStore

/-- `AppendTurn` calls on one session. -/
structure Appends (n : Nat) where
  tenant : Bytes
  appId : Bytes
  sessionId : Bytes
  model : Fin n → Bytes
  turn : Fin n → ConversationTurn

namespace Appends

variable {n : Nat} (c : Appends n)

def id : Bytes × Bytes × Bytes := (c.tenant, c.appId, c.sessionId)

def descriptor (i : Fin n) : ConversationDescriptor :=
  ⟨c.tenant, c.appId, c.sessionId, c.model i⟩

def prog (i : Fin n) : Prog KVResult := appendTurn (c.descriptor i) (c.turn i)

/-- The call after its read of the summary. -/
def afterSummary (i : Fin n) (summaryPayload : Option Bytes) : Prog KVResult := do
  let existing ← getWith c.tenant c.appId c.sessionId summaryPayload
  ConversationStore.save (appended (c.descriptor i) (c.turn i) existing)

/-- `Get` of the session. -/
def get (m : KVMap) : Option ConversationSession :=
  ((ConversationStore.get c.tenant c.appId c.sessionId).run m).1

end Appends

/-- Call `i` has read the turns and is rewriting them. -/
def Rewriting {n : Nat} (s : Threads KVResult n) (i : Fin n) : Prop :=
  2 ≤ s.taken i ∧ (s.prog i).result = none

/-- A call reads the turns, its second operation, only when no other call is rewriting
them. -/
def ReadsAlone {n : Nat} (s : Threads KVResult n) (i : Fin n) : Prop :=
  s.taken i = 1 → ∀ j, ¬ Rewriting s j

instance {n : Nat} (s : Threads KVResult n) (i : Fin n) : Decidable (Rewriting s i) :=
  inferInstanceAs (Decidable (2 ≤ s.taken i ∧ (s.prog i).result = none))

instance {n : Nat} (s : Threads KVResult n) (i : Fin n) : Decidable (ReadsAlone s i) :=
  inferInstanceAs (Decidable (s.taken i = 1 → ∀ j, ¬ Rewriting s j))

namespace Appends

variable {n : Nat} {c : Appends n} {m : KVMap}

/-! ### The summary -/

/-- A payload under the meta key that some `Save` of the session wrote. -/
def SummaryOk (c : Appends n) (payload : Bytes) : Prop :=
  ∃ session : ConversationSession, session.id = c.id ∧
    payload = serializeConversationSummary (summaryOf session)

/-- The summary in the store is one of the session. -/
def HasSummary (c : Appends n) (m : KVMap) : Prop :=
  ∀ payload, m.get (RecordKey.conversationMeta c.tenant c.appId c.sessionId).key = some payload →
    c.SummaryOk payload

theorem HasSummary.of_represents {R : Records} (h : Represents m R) : c.HasSummary m := by
  intro payload hp
  rw [h.get, R.payload_of_session rfl] at hp
  obtain ⟨session, hs, hpay⟩ := Option.bind_eq_some_iff.mp hp
  exact ⟨session, (h.valid.conversation _ session hs).1, (Option.some.inj hpay).symm⟩

theorem HasSummary.put (h : c.HasSummary m) {session : ConversationSession}
    (hid : session.id = c.id) (hlen : session.turns.length < 2 ^ 32) {e : Entry}
    (he : e ∈ sessionEntries session) : c.HasSummary (m.put e.1 e.2) := by
  intro payload hp
  rw [m.get_put] at hp
  split at hp
  · rename_i hkey
    rw [sessionEntries_eq] at he
    obtain ⟨⟨k, v⟩, hr, rfl⟩ := List.mem_map.mp he
    obtain rfl := RecordKey.key_injective hkey
    have hpay := ((mem_sessionRecords hlen).mp hr).2
    exact ⟨session, hid, (Option.some.inj (hpay.trans hp)).symm⟩
  · exact h payload hp

theorem HasSummary.delete (h : c.HasSummary m) (key : Bytes) : c.HasSummary (m.delete key) := by
  intro payload hp
  rw [m.get_delete] at hp
  split at hp
  · cases hp
  · exact h payload hp

/-- **While `Save` runs, the summary is the old one, none, or the new one.** -/
theorem throughout_save (h : c.HasSummary m) {session : ConversationSession}
    (hid : session.id = c.id) (hlen : session.turns.length < 2 ^ 32) :
    (ConversationStore.save session).Throughout c.HasSummary m := by
  unfold ConversationStore.save
  split
  · exact h
  · refine ⟨h, ?_⟩
    have hdel : (deleteStaleTurns (m.listKeysByPrefix (Keyspace.conversationTurnPrefix
        session.tenant session.appId session.sessionId))).Throughout c.HasSummary m := by
      unfold deleteStaleTurns
      split
      · exact h
      · exact Prog.throughout_batchDelete h fun m key _ h => h.delete key
    refine hdel.bind ?_
    rw [run_deleteStaleTurns]
    refine Prog.throughout_batch ?_ fun m e he h => h.put hid hlen he
    exact (List.foldlRecOn _ KVMap.delete h) fun m h key _ => h.delete key

/-! ### The read of the turns -/

theorem appended_spec (i : Fin n) {existing : Option ConversationSession}
    (hid : ∀ e, existing = some e → e.id = c.id) :
    (appended (c.descriptor i) (c.turn i) existing).id = c.id ∧
      (appended (c.descriptor i) (c.turn i) existing).turns =
        existing.elim [] (·.turns) ++ [c.turn i] := by
  unfold appended
  cases existing with
  | none => by_cases hm : (c.descriptor i).model = [] <;> simp [hm] <;> rfl
  | some e =>
    have he := hid e rfl
    by_cases hm : (c.descriptor i).model = [] <;> simp [hm] <;> exact he

/-- The turns that `Get` shows. -/
def seen (c : Appends n) (R : Records) : List ConversationTurn :=
  (R.turns c.id).filter fun turn => turn.role ≠ []

theorem exists_existing {R : Records} (h : Represents m R) (hs : c.sessionId ≠ []) (i : Fin n)
    {payload : Option Bytes} (hp : ∀ p, payload = some p → c.SummaryOk p) :
    ∃ existing : Option ConversationSession,
      (c.afterSummary i payload).step m =
        some (ConversationStore.save (appended (c.descriptor i) (c.turn i) existing), m) ∧
      (∀ e, existing = some e → e.id = c.id) ∧
      (existing.elim [] (·.turns)).filter (fun turn => turn.role ≠ []) = c.seen R ∧
      (existing.elim [] (·.turns)).length ≤ (R.turns c.id).length := by
  cases payload with
  | none =>
    refine ⟨R.conversation c.id, ?_, fun e he => (h.valid.conversation _ e he).1, ?_, ?_⟩
    · have hlegacy : (m.get (RecordKey.conversation c.tenant c.appId c.sessionId).key).bind
          parseLegacyConversation = R.conversation c.id := by
        rw [h.get]
        show ((R.conversation c.id).bind _).bind parseLegacyConversation = _
        cases he : R.conversation c.id with
        | none => rfl
        | some e =>
          have hvalid := (h.valid.conversation _ e he).2.1
          exact parseLegacyConversation_serializeLegacyConversation hvalid
      rw [← hlegacy]
      rfl
    · rw [seen, Records.turns]
      cases R.conversation c.id <;> rfl
    · rw [Records.turns]
      cases R.conversation c.id <;> exact Nat.le_refl _
  | some p =>
    obtain ⟨session, hid, rfl⟩ := hp p rfl
    have hne : session.sessionId ≠ [] := by
      rw [ConversationSession.id, Appends.id, Prod.mk.injEq, Prod.mk.injEq] at hid
      rw [hid.2.2]
      exact hs
    have hlist := congrArg Prod.fst (h.listTurns c.tenant c.appId c.sessionId)
    refine ⟨some { session with turns := c.seen R }, ?_, ?_, ?_, List.length_filter_le _ _⟩
    · rw [afterSummary, getWith,
        parseConversationSummary_serializeConversationSummary (summaryOf session) hne]
      show some (ConversationStore.save (appended _ _ (some ⟨_, _, _, _, _⟩)), m) = _
      rw [show List.filterMap _ _ = c.seen R from hlist]
      rfl
    · rintro e ⟨⟩
      exact hid
    · rw [Option.elim_some, seen, List.filter_filter]
      simp only [Bool.and_self]

/-- **The session that a call saves**: what `Get` shows, and the new turn. -/
theorem exists_session {R : Records} (h : Represents m R) (hs : c.sessionId ≠ []) {i : Fin n}
    (hrole : (c.turn i).role ≠ []) {payload : Option Bytes}
    (hp : ∀ p, payload = some p → c.SummaryOk p) :
    ∃ session : ConversationSession,
      (c.afterSummary i payload).step m = some (ConversationStore.save session, m) ∧
      session.id = c.id ∧ session.sessionId ≠ [] ∧
      session.turns.filter (fun turn => turn.role ≠ []) = c.seen R ++ [c.turn i] ∧
      session.turns.length ≤ (R.turns c.id).length + 1 := by
  obtain ⟨existing, hstep, hid, hturns, hlen⟩ := exists_existing h hs i hp
  obtain ⟨hid', hturns'⟩ := appended_spec i hid
  refine ⟨_, hstep, hid', ?_, ?_, ?_⟩
  · rw [ConversationSession.id, Appends.id, Prod.mk.injEq, Prod.mk.injEq] at hid'
    rw [hid'.2.2]
    exact hs
  · rw [hturns', List.filter_append, hturns]
    simp [hrole]
  · rw [hturns', List.length_append, List.length_singleton]
    exact Nat.succ_le_succ hlen

/-! ### One rewriting after the other -/

/-- The store holds the turns `before` and then those of the calls in `order`. -/
def Holds (c : Appends n) (before : List ConversationTurn) (bound : Nat) (order : List (Fin n))
    (m : KVMap) : Prop :=
  ∃ R, Represents m R ∧ c.seen R = before ++ order.map c.turn ∧
    (R.turns c.id).length ≤ bound + order.length

/-- What is left of the rewriting that is going on. -/
def pending (s : Threads KVResult n) : Option (Fin n) → Prog KVResult
  | none => .pure .ok
  | some i => s.prog i

/-- Where call `i` is after its operations: `order` has the calls that have read the turns,
and of these only `writer` may not have returned. -/
def Phase (c : Appends n) (order : List (Fin n)) (writer : Option (Fin n)) (i : Fin n) :
    Nat → Prog KVResult → Prop
  | 0, p => i ∉ order ∧ p = c.prog i
  | 1, p => i ∉ order ∧ ∃ payload, (∀ q, payload = some q → c.SummaryOk q) ∧
      p = c.afterSummary i payload
  | _ + 2, p => i ∈ order ∧ (writer = some i ∨ p = .pure .ok)

/-- The store will hold the turns of the calls in `order` when the writer is through. -/
structure Inv (c : Appends n) (before : List ConversationTurn) (bound : Nat)
    (order : List (Fin n)) (writer : Option (Fin n)) (s : Threads KVResult n) : Prop where
  nodup : order.Nodup
  phase : ∀ i, c.Phase order writer i (s.taken i) (s.prog i)
  writer_mem : ∀ i, writer = some i → i ∈ order
  success : ((pending s writer).run s.map).1 = .ok
  holds : c.Holds before bound order ((pending s writer).run s.map).2
  summary : (pending s writer).Throughout c.HasSummary s.map

section

variable {before : List ConversationTurn} {bound : Nat} {order : List (Fin n)}
  {writer : Option (Fin n)} {s u : Threads KVResult n} {i : Fin n}

theorem Phase.mem_iff {k : Nat} {p : Prog KVResult} (h : c.Phase order writer i k p) :
    i ∈ order ↔ 2 ≤ k := by
  match k, h with
  | 0, h => simp [h.1]
  | 1, h => simp [h.1]
  | k + 2, h => simp [h.1]

/-- An operation of call `i` leaves the others where they are. -/
theorem phase_update {taken : Fin n → Nat} {prog : Fin n → Prog KVResult} {k : Nat}
    {p : Prog KVResult} (hi : c.Phase order writer i k p)
    (h : ∀ j, j ≠ i → c.Phase order writer j (taken j) (prog j)) (j : Fin n) :
    c.Phase order writer j (Function.update taken i k j) (Function.update prog i p j) := by
  by_cases hj : j = i
  · subst hj
    rw [Function.update_self, Function.update_self]
    exact hi
  · rw [Function.update_of_ne hj, Function.update_of_ne hj]
    exact h j hj

theorem pending_update {p : Prog KVResult} {m : KVMap} {taken : Fin n → Nat}
    (hi : writer ≠ some i) :
    pending ⟨m, Function.update s.prog i p, taken⟩ writer = pending s writer := by
  cases writer with
  | none => rfl
  | some w =>
    have hw : w ≠ i := fun he => hi (congrArg some he)
    exact Function.update_of_ne hw _ _

theorem Inv.pending_of_quiet (h : Inv c before bound order writer s)
    (hq : ∀ i, ¬ Rewriting s i) : pending s writer = .pure .ok := by
  have hok := h.success
  cases writer with
  | none => rfl
  | some w =>
    have hres : (s.prog w).result ≠ none := fun hr =>
      hq w ⟨(h.phase w).mem_iff.mp (h.writer_mem w rfl), hr⟩
    obtain ⟨r, hr⟩ := Option.ne_none_iff_exists'.mp hres
    rw [pending, Prog.eq_pure_of_result hr] at hok ⊢
    exact congrArg Prog.pure hok

theorem Inv.holds_of_quiet (h : Inv c before bound order writer s)
    (hq : ∀ i, ¬ Rewriting s i) : c.Holds before bound order s.map := by
  have hh := h.holds
  rw [h.pending_of_quiet hq] at hh
  exact hh

theorem Inv.phase_append (h : Inv c before bound order writer s) (hq : ∀ i, ¬ Rewriting s i)
    {j : Fin n} (hj : j ≠ i) : c.Phase (order ++ [i]) (some i) j (s.taken j) (s.prog j) := by
  have hmem : j ∈ order ++ [i] ↔ j ∈ order := by simp [hj]
  have hphase := h.phase j
  generalize s.taken j = k at hphase ⊢
  match k, hphase with
  | 0, hphase => exact ⟨hmem.not.mpr hphase.1, hphase.2⟩
  | 1, hphase => exact ⟨hmem.not.mpr hphase.1, hphase.2⟩
  | k + 2, hphase =>
    refine ⟨hmem.mpr hphase.1, Or.inr ?_⟩
    rcases hphase.2 with hw | hpure
    · have hret := h.pending_of_quiet hq
      rw [hw] at hret
      exact hret
    · exact hpure

theorem Inv.readSummary (h : Inv c before bound order writer s) (ht : s.taken i = 0)
    (hstep : s.step i = some u) : Inv c before bound order writer u := by
  obtain ⟨p, m, hp, rfl⟩ := Threads.step_eq_some hstep
  obtain ⟨hnot, hprog⟩ : c.Phase order writer i 0 (s.prog i) := ht ▸ h.phase i
  rw [hprog] at hp
  obtain ⟨rfl, rfl⟩ : c.afterSummary i (s.map.get (RecordKey.conversationMeta c.tenant c.appId
      c.sessionId).key) = p ∧ s.map = m := Prod.mk.inj (Option.some.inj hp)
  have hw : writer ≠ some i := fun hw => hnot (h.writer_mem i hw)
  refine ⟨h.nodup, ?_, h.writer_mem, ?_, ?_, ?_⟩
  · rw [ht]
    exact phase_update ⟨hnot, _, h.summary.now, rfl⟩ fun j _ => h.phase j
  · rw [pending_update hw]
    exact h.success
  · rw [pending_update hw]
    exact h.holds
  · rw [pending_update hw]
    exact h.summary

/-- The second operation of a call, outside the others' rewriting: it becomes the writer. -/
theorem Inv.readTurns (h : Inv c before bound order writer s) (hs : c.sessionId ≠ [])
    (hrole : (c.turn i).role ≠ []) (hfits : bound + n < 2 ^ 32) (ht : s.taken i = 1)
    (hq : ∀ j, ¬ Rewriting s j) (hstep : s.step i = some u) :
    Inv c before bound (order ++ [i]) (some i) u := by
  obtain ⟨p, m, hp, rfl⟩ := Threads.step_eq_some hstep
  obtain ⟨hnot, payload, hpay, hprog⟩ : c.Phase order writer i 1 (s.prog i) := ht ▸ h.phase i
  obtain ⟨R, hrep, hseen, hbound⟩ := h.holds_of_quiet hq
  obtain ⟨session, hex, hid, hs', hturns, hlen⟩ := exists_session hrep hs hrole hpay
  rw [hprog, hex] at hp
  obtain ⟨rfl, rfl⟩ := Prod.mk.inj (Option.some.inj hp)
  have hnodup : (order ++ [i]).Nodup := by
    rw [List.nodup_append]
    refine ⟨h.nodup, List.nodup_singleton i, ?_⟩
    intro a ha b hb hab
    rw [List.mem_singleton] at hb
    exact hnot (hb ▸ hab ▸ ha)
  have hcount : order.length + 1 ≤ n := by
    have hcard := hnodup.length_le_card
    rwa [List.length_append, List.length_singleton, Fintype.card_fin] at hcard
  have hlen' : session.turns.length < 2 ^ 32 := by omega
  obtain ⟨hok, hsaved⟩ := hrep.save hs' hlen'
  have hnew : (R.setConversation session.id (some session)).turns c.id = session.turns := by
    rw [hid, R.turns_setConversation]
  have hmem : i ∈ order ++ [i] := List.mem_append_right _ (List.mem_singleton_self i)
  have hpending : pending ⟨s.map, Function.update s.prog i (ConversationStore.save session),
      Function.update s.taken i (s.taken i + 1)⟩ (some i) = ConversationStore.save session :=
    Function.update_self _ _ _
  refine ⟨hnodup, ?_, ?_, ?_, ?_, ?_⟩
  · rw [ht]
    exact phase_update ⟨hmem, Or.inl rfl⟩ fun j hj => h.phase_append hq hj
  · rintro j ⟨⟩
    exact hmem
  · rw [hpending]
    exact hok
  · rw [hpending]
    refine ⟨_, hsaved, ?_, ?_⟩
    · rw [seen, hnew, hturns, hseen, List.map_append, List.append_assoc]
      rfl
    · rw [hnew, List.length_append, List.length_singleton]
      omega
  · rw [hpending]
    exact throughout_save (HasSummary.of_represents hrep) hid hlen'

theorem Inv.rewrite (h : Inv c before bound order writer s) (ht : 2 ≤ s.taken i)
    (hstep : s.step i = some u) : Inv c before bound order writer u := by
  obtain ⟨p, m, hp, rfl⟩ := Threads.step_eq_some hstep
  have hmem := (h.phase i).mem_iff.mpr ht
  obtain rfl : writer = some i := by
    obtain ⟨k, hk⟩ : ∃ k, s.taken i = k + 2 := ⟨s.taken i - 2, by omega⟩
    obtain ⟨-, hw | hpure⟩ : c.Phase order writer i (k + 2) (s.prog i) := hk ▸ h.phase i
    · exact hw
    · rw [hpure] at hp
      cases hp
  have hpending : pending ⟨m, Function.update s.prog i p, Function.update s.taken i
      (s.taken i + 1)⟩ (some i) = p := Function.update_self _ _ _
  have hrun : (s.prog i).run s.map = p.run m := Prog.run_of_step hp
  refine ⟨h.nodup, ?_, h.writer_mem, ?_, ?_, ?_⟩
  · refine phase_update ?_ fun j _ => h.phase j
    obtain ⟨k, hk⟩ : ∃ k, s.taken i = k + 1 := ⟨s.taken i - 1, by omega⟩
    rw [hk]
    exact ⟨hmem, Or.inl rfl⟩
  · rw [hpending, ← hrun]
    exact h.success
  · rw [hpending, ← hrun]
    exact h.holds
  · rw [hpending]
    exact h.summary.step hp

theorem Inv.step (h : Inv c before bound order writer s) (hs : c.sessionId ≠ [])
    (hroles : ∀ i, (c.turn i).role ≠ []) (hfits : bound + n < 2 ^ 32) (hread : ReadsAlone s i)
    (hstep : s.step i = some u) : ∃ order writer, Inv c before bound order writer u := by
  match ht : s.taken i with
  | 0 => exact ⟨_, _, h.readSummary ht hstep⟩
  | 1 => exact ⟨_, _, h.readTurns hs (hroles i) hfits ht (hread ht) hstep⟩
  | k + 2 => exact ⟨_, _, h.rewrite (ht ▸ Nat.le_add_left 2 k) hstep⟩

theorem inv_start {R : Records} (h : Represents m R) :
    Inv c (c.seen R) (R.turns c.id).length [] none (Threads.start m c.prog) := by
  refine ⟨List.nodup_nil, fun i => ⟨List.not_mem_nil, rfl⟩, by simp, rfl, ?_, ?_⟩
  · exact ⟨R, h, (List.append_nil _).symm, Nat.le_refl _⟩
  · exact HasSummary.of_represents h

theorem Inv.done (h : Inv c before bound order writer s) (hs : c.sessionId ≠ []) (hd : s.Done) :
    (∀ i, (s.prog i).result = some .ok) ∧ order.Perm (List.finRange n) ∧
      c.Holds before bound order s.map := by
  have hq : ∀ i, ¬ Rewriting s i := by
    intro i hr
    have := hd i
    rw [hr.2] at this
    cases this
  have hmem : ∀ i, i ∈ order := by
    intro i
    have hphase := h.phase i
    have hres := hd i
    generalize s.taken i = k at hphase
    match k, hphase with
    | 0, hphase =>
      rw [hphase.2] at hres
      cases hres
    | 1, hphase =>
      obtain ⟨-, payload, hpay, hprog⟩ := hphase
      obtain ⟨R, hrep, -, -⟩ := h.holds_of_quiet hq
      obtain ⟨existing, hex, -, -, -⟩ := exists_existing hrep hs i hpay
      obtain ⟨r, hr⟩ := Option.isSome_iff_exists.mp hres
      rw [← hprog, Prog.eq_pure_of_result hr] at hex
      cases hex
    | k + 2, hphase => exact hphase.1
  refine ⟨?_, ?_, h.holds_of_quiet hq⟩
  · intro i
    obtain ⟨k, hk⟩ : ∃ k, s.taken i = k + 2 :=
      ⟨s.taken i - 2, by have := (h.phase i).mem_iff.mp (hmem i); omega⟩
    obtain ⟨-, hw | hpure⟩ : c.Phase order writer i (k + 2) (s.prog i) := hk ▸ h.phase i
    · have hret := h.pending_of_quiet hq
      rw [hw] at hret
      exact congrArg Prog.result hret
    · exact congrArg Prog.result hpure
  · refine (List.perm_ext_iff_of_nodup h.nodup (List.nodup_finRange n)).mpr ?_
    intro i
    exact iff_of_true (hmem i) (List.mem_finRange i)

end

/-- **No turn is lost when the turns are read alone.**  In any order of operations, from any
store with records: when all calls have returned, each has succeeded, and `Get` shows the
turns that were there and then those of the calls, each once.  From `2 ^ 32` turns on `Save`
does not return. -/
theorem no_turn_lost (c : Appends n) (hs : c.sessionId ≠ []) (hroles : ∀ i, (c.turn i).role ≠ [])
    {m : KVMap} {R : Records} (hrep : Represents m R)
    (hfits : (R.turns c.id).length + n < 2 ^ 32) (schedule : List (Fin n))
    {s : Threads KVResult n} (hrun : run Threads.step (Threads.start m c.prog) schedule = some s)
    (hread : StepsOk Threads.step ReadsAlone (Threads.start m c.prog) schedule) (hd : s.Done) :
    (∀ i, (s.prog i).result = some .ok) ∧
      (∃ order : List (Fin n), order.Perm (List.finRange n) ∧
        (c.get s.map).elim [] (·.turns) = (c.get m).elim [] (·.turns) ++ order.map c.turn) ∧
      (0 < n → ∃ session, c.get s.map = some session ∧ ∀ i, c.turn i ∈ session.turns) := by
  have hinv : ∃ order writer, Inv c (c.seen R) (R.turns c.id).length order writer s := by
    refine run_invariant (I := fun s => ∃ order writer,
      Inv c (c.seen R) (R.turns c.id).length order writer s) ⟨_, _, inv_start hrep⟩ ?_ hrun hread
    rintro s i u ⟨order, writer, h⟩ hi hstep
    exact h.step hs hroles hfits hi hstep
  obtain ⟨order, writer, h⟩ := hinv
  obtain ⟨hok, hperm, R', hrep', hseen, -⟩ := h.done hs hd
  have hget : ∀ {m R}, Represents m R → (c.get m).elim [] (·.turns) = c.seen R := by
    intro m R hrep
    rw [Appends.get, hrep.getConversation, seen, Records.turns]
    show ((R.conversation c.id).map visible).elim [] (·.turns) = _
    cases R.conversation c.id <;> rfl
  have hturns : (c.get s.map).elim [] (·.turns) =
      (c.get m).elim [] (·.turns) ++ order.map c.turn := by
    rw [hget hrep', hseen, hget hrep]
  refine ⟨hok, ⟨order, hperm, hturns⟩, ?_⟩
  intro hpos
  have hmem : ∀ i, c.turn i ∈ (c.get s.map).elim [] (·.turns) := by
    intro i
    rw [hturns]
    refine List.mem_append_right _ (List.mem_map_of_mem ?_)
    exact hperm.mem_iff.mpr (List.mem_finRange i)
  cases hg : c.get s.map with
  | none =>
    have hfirst := hmem ⟨0, hpos⟩
    rw [hg] at hfirst
    cases hfirst
  | some session =>
    rw [hg] at hmem
    exact ⟨session, rfl, hmem⟩

/-- Two turns with different contents for one session. -/
def twoTurns : Appends 2 where
  tenant := text "t"
  appId := text "a"
  sessionId := text "s"
  model _ := text "m"
  turn i := ⟨text "user", [UInt8.ofNat i.val], 5⟩

/-- Call `1` reads the summary, then call `0` runs, then call `1` goes on. -/
theorem no_turn_lost_twoTurns :
    ∃ s, run Threads.step (Threads.start KVMap.empty twoTurns.prog)
        [1, 0, 0, 0, 0, 0, 0, 1, 1, 1, 1, 1, 1, 1] = some s ∧ s.Done ∧
      ∃ session, twoTurns.get s.map = some session ∧ ∀ i, twoTurns.turn i ∈ session.turns := by
  have hread : StepsOk Threads.step ReadsAlone (Threads.start KVMap.empty twoTurns.prog)
      [1, 0, 0, 0, 0, 0, 0, 1, 1, 1, 1, 1, 1, 1] := by decide +kernel
  obtain ⟨s, hrun, hdone⟩ : ∃ s, run Threads.step (Threads.start KVMap.empty twoTurns.prog)
      [1, 0, 0, 0, 0, 0, 0, 1, 1, 1, 1, 1, 1, 1] = some s ∧ s.Done :=
    ⟨_, rfl, by decide +kernel⟩
  exact ⟨s, hrun, hdone, (no_turn_lost twoTurns (by decide) (by decide) represents_empty
    (by decide) _ hrun hread hdone).2.2 (by decide)⟩

/-- **An appended turn is lost.**  Both calls find no session; the one that writes last
leaves only its own turn. -/
theorem appended_turn_lost :
    ∃ s session, run Threads.step (Threads.start KVMap.empty twoTurns.prog)
        [0, 0, 1, 1, 0, 0, 0, 0, 1, 1, 1, 1, 1] = some s ∧
      (∀ i, (s.prog i).result = some .ok) ∧ twoTurns.get s.map = some session ∧
      twoTurns.turn 0 ∉ session.turns := by
  refine ⟨_, ⟨text "t", text "a", text "s", text "m", [twoTurns.turn 1]⟩, rfl, ?_, ?_, ?_⟩
  · decide +kernel
  · decide +kernel
  · decide +kernel

end Appends

end Mokv.LLM
