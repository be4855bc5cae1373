import Mokv.KVStore.Durable
import Mokv.LLM.Backend

/-!
# The LLM stores over restarts

The four stores on a `DBKVStore` on a data directory, with flushes, clean closes, crashes
and reopenings (`KVHost`).  Their programs put no empty key, so the directory is a durable
map to them (`kvstore_durable`), and the map represents records in two copies: the current
ones and those of the last clean close (`DurableRecords`).

A crash in the middle of a call takes back all of it, whatever of the deletions and puts of
a `Save` is already in tables (`records_durable`).
-/

namespace Mokv.LLM

open Lib Codec ConversationStore DBKVStore KVHost

/-! ### No empty key -/

theorem RecordKey.key_ne_nil (k : RecordKey) : k.key ≠ [] := by
  obtain ⟨ps, hps⟩ : ∃ ps, k.parts = text "llm" :: ps := by
    cases k <;> exact ⟨_, rfl⟩
  obtain ⟨y, -, hy, -⟩ := exists_joinKeyParts_cons (text "llm") ps
  rw [k.key_eq, hps, hy]
  exact List.append_ne_nil_of_left_ne_nil (by decide) _

theorem putsOnly_save (session : ConversationSession) : (save session).PutsOnly (· ≠ []) := by
  unfold save
  split
  · trivial
  · intro keys
    refine Prog.PutsOnly.bind ?_ ?_
    · unfold deleteStaleTurns
      split
      · trivial
      · exact Prog.putsOnly_batchDelete keys
    · intro r
      split
      · refine Prog.putsOnly_batch ?_
        intro e he
        rw [sessionEntries_eq] at he
        obtain ⟨⟨k, v⟩, -, rfl⟩ := List.mem_map.mp he
        exact k.key_ne_nil
      · trivial

theorem putsOnly_ite {α : Type} {c : Prop} [Decidable c] {P : Bytes → Prop} {p q : Prog α}
    (hp : p.PutsOnly P) (hq : q.PutsOnly P) : (if c then p else q).PutsOnly P := by
  split
  · exact hp
  · exact hq

theorem putsOnly_getConversation (P : Bytes → Prop) (t a s : Bytes) :
    (ConversationStore.get t a s).PutsOnly P := by
  intro payload
  cases payload with
  | none => exact fun _ => trivial
  | some payload =>
    rw [getWith]
    cases parseConversationSummary payload with
    | none => trivial
    | some summary => exact fun _ => trivial

theorem Call.putsOnly (call : Call) : call.prog.PutsOnly (· ≠ []) := by
  have hput : ∀ (k : RecordKey) (v : Bytes), (Prog.put k.key v .pure).PutsOnly (· ≠ []) :=
    fun k _ => ⟨k.key_ne_nil, fun _ => trivial⟩
  cases call with
  | putPromptCache entry => exact putsOnly_ite trivial (hput (.promptCache _ _ _ _) _)
  | deletePromptCache t a m p => exact fun _ => trivial
  | save session => exact putsOnly_save session
  | appendTurn d turn => exact (putsOnly_getConversation _ _ _ _).bind fun _ => putsOnly_save _
  | trimToLastTurns t a s keep =>
    refine (putsOnly_getConversation _ t a s).bind ?_
    intro existing
    cases existing with
    | none => trivial
    | some session => exact putsOnly_ite trivial (putsOnly_save _)
  | deleteConversation t a s => exact fun keys => Prog.putsOnly_batchDelete _
  | putRetrieval chunk => exact putsOnly_ite trivial (hput (.retrieval _ _ _ _) _)
  | deleteRetrieval t b d c => exact fun _ => trivial
  | putRuntimeConfig record => exact putsOnly_ite trivial (hput (.runtimeConfig _ _ _) _)
  | deleteRuntimeConfig t a p => exact fun _ => trivial

/-! ### The records -/

/-- The records, and what is left of them after a crash. -/
structure DurableRecords where
  current : Records
  saved : Records

namespace DurableRecords

def start : DurableRecords := ⟨Records.empty, Records.empty⟩

def step (r : DurableRecords) : KVAct Call → DurableRecords
  | .call call => { r with current := r.current.step call }
  | .save => { r with saved := r.current }
  | .crash => { r with current := r.saved }
  | _ => r

/-- The records after a history. -/
def after (as : List (KVAct Call)) : DurableRecords := as.foldl step start

theorem after_concat (as : List (KVAct Call)) (a : KVAct Call) :
    after (as ++ [a]) = (after as).step a := by
  rw [after, List.foldl_append]
  rfl

end DurableRecords

/-- The session that a call saves has fewer than `2 ^ 32` turns. -/
def Call.FitsOn (cfg : DBConfig) (store : DBKVStore) : Call → Prop
  | .save session => session.turns.length < 2 ^ 32
  | .appendTurn d turn =>
    (appended d turn
      ((ConversationStore.get d.tenant d.appId d.sessionId).runDB cfg store).1).turns.length <
        2 ^ 32
  | _ => True

instance (cfg : DBConfig) (store : DBKVStore) : (call : Call) → Decidable (call.FitsOn cfg store)
  | .save session => inferInstanceAs (Decidable (session.turns.length < 2 ^ 32))
  | .appendTurn d turn => inferInstanceAs (Decidable
      ((appended d turn
        ((ConversationStore.get d.tenant d.appId d.sessionId).runDB cfg store).1).turns.length <
          2 ^ 32))
  | .putPromptCache _ => isTrue trivial
  | .deletePromptCache _ _ _ _ => isTrue trivial
  | .trimToLastTurns _ _ _ _ => isTrue trivial
  | .deleteConversation _ _ _ => isTrue trivial
  | .putRetrieval _ => isTrue trivial
  | .deleteRetrieval _ _ _ _ => isTrue trivial
  | .putRuntimeConfig _ => isTrue trivial
  | .deleteRuntimeConfig _ _ _ => isTrue trivial

theorem Call.FitsOn.fits {cfg : DBConfig} {store : DBKVStore} {m : KVMap} {call : Call}
    (h : call.FitsOn cfg store) (ha : Agrees store m) : call.Fits m := by
  cases call with
  | save session => exact h
  | appendTurn d turn =>
    have hget := (Prog.runDB_eq_run cfg _ (allowed_getConversation d.tenant d.appId d.sessionId)
      ha).1
    rw [Call.FitsOn, hget] at h
    exact h
  | _ => trivial

/-- The turns that a call brings have a role, and the session that it saves can be counted. -/
def TurnsOk (cfg : DBConfig) (s : KVHost) : KVAct Call → Prop
  | .call call => call.HasRoles ∧ ∀ store ∈ s.store?, call.FitsOn cfg store
  | _ => True

instance (cfg : DBConfig) (s : KVHost) : DecidablePred (TurnsOk cfg s)
  | .call _ => inferInstanceAs (Decidable (_ ∧ _))
  | .operate => isTrue trivial
  | .note => isTrue trivial
  | .flush => isTrue trivial
  | .shutdown => isTrue trivial
  | .save => isTrue trivial
  | .construct => isTrue trivial
  | .crash => isTrue trivial

theorem callOk (a : KVAct Call) : CallOk Call.prog a := by
  cases a with
  | call c => exact ⟨c.allowed, c.putsOnly⟩
  | _ => trivial

/-- The maps represent the records. -/
structure Holds (d : DurableMap) (r : DurableRecords) : Prop where
  current : Represents d.current r.current
  saved : Represents d.saved r.saved
  currentRoles : r.current.HasRoles
  savedRoles : r.saved.HasRoles

theorem holds_start : Holds DurableMap.start DurableRecords.start := by
  have hroles : Records.empty.HasRoles := by simp [Records.HasRoles, Records.empty]
  exact ⟨represents_empty, represents_empty, hroles, hroles⟩

/-- **Every step keeps the maps and the records together.** -/
theorem Holds.step {d : DurableMap} {r : DurableRecords} (h : Holds d r) {a : KVAct Call}
    (hcall : ∀ call, a = .call call → call.HasRoles ∧ call.Fits d.current) :
    Holds (d.step Call.prog a) (r.step a) := by
  cases a with
  | call call =>
    obtain ⟨hroles, hfits⟩ := hcall call rfl
    have hnew := h.current.step hfits
    rw [Records.stepSeen_eq_step h.current.valid h.currentRoles] at hnew
    exact ⟨hnew, h.saved, h.currentRoles.step hroles, h.savedRoles⟩
  | save => exact ⟨h.current, h.current, h.currentRoles, h.currentRoles⟩
  | crash => exact ⟨h.saved, h.saved, h.savedRoles, h.savedRoles⟩
  | _ => exact h

theorem holds_of_run {cfg : DBConfig} {files : LSM.Files} {as : List (KVAct Call)} {s : KVHost}
    (hr : run (KVHost.step Call.prog cfg) (KVHost.start files) as = some s)
    (hflush : StepsOk (KVHost.step Call.prog cfg) (FlushOk cfg) (KVHost.start files) as)
    (hturns : StepsOk (KVHost.step Call.prog cfg) (TurnsOk cfg) (KVHost.start files) as) :
    Holds (DurableMap.after Call.prog as) (DurableRecords.after as) := by
  induction as using List.reverseRecOn generalizing s with
  | nil => exact holds_start
  | append_singleton as a ih =>
    obtain ⟨u, hu, hstep⟩ := run_concat.mp hr
    obtain ⟨hflush', -⟩ := stepsOk_concat.mp hflush
    obtain ⟨hturns', hlast⟩ := stepsOk_concat.mp hturns
    rw [DurableMap.after_concat, DurableRecords.after_concat]
    refine (ih hu hflush' hturns').step ?_
    rintro call rfl
    obtain ⟨hroles, hfits⟩ : call.HasRoles ∧ ∀ store ∈ u.store?, call.FitsOn cfg store := hlast u hu
    -- a call begins when the process has the current map
    rw [KVHost.step] at hstep
    split at hstep
    · obtain ⟨store, hs, -⟩ := Option.map_eq_some_iff.mp hstep
      obtain ⟨c, hinv, -⟩ := exists_inv hu (fun b _ => callOk b) hflush'
      exact ⟨hroles, (hfits store hs).fits (hinv.agrees hs ‹u.Quiet›)⟩
    · cases hstep

/-- A session of two turns. -/
def twoTurns : ConversationSession :=
  ⟨text "t", text "a", text "s", text "m", [⟨text "user", text "hi", 1⟩, ⟨text "bot", [], 2⟩]⟩

/-- The session is saved and closed cleanly; the next process crashes in the middle of
`AppendTurn`, when it has deleted the records of the two turns. -/
def appendLost : List (KVAct Call) :=
  [.construct, .call (.save twoTurns), .operate] ++
    (List.replicate 4 [.operate, .note]).flatten ++ List.replicate 8 .flush ++
    [.shutdown, .save, .construct,
      .call (.appendTurn ⟨text "t", text "a", text "s", []⟩ ⟨text "user", text "?", 3⟩),
      .operate, .operate, .operate, .operate, .note, .flush, .operate, .crash, .construct]

end Mokv.LLM
