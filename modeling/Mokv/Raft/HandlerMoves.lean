import Mokv.Raft.LeaderCompleteness
import Mokv.Raft.PutCalls

/-!
# The moves of the handlers

What the handlers of `Vote` and `SolveAppend` do to a pod, seen together: they hold
`election_mutex_` for a call (`Pod.serving`), and that of `SolveAppend` goes on in
`UpdateRaftLog`.  The two halves of a step are listed apart in `Elections.Move` and
`Replicas.Move`; `Cluster.HandlerMove` ties them together.

`Requested` follows from the list: a handler has its request at hand, and `SolveAppend` holds
`election_mutex_` from one step to the next exactly while it takes over.
-/

namespace Mokv.Raft

open Lib

variable {N : Nat}

/-- The thread holds `election_mutex_`. -/
def ElectionThread.holds : ElectionThread N → Bool
  | .calling _ _ _ _ | .promoting _ => true
  | _ => false

/-- The handler and the call that it handles. -/
def Holder.serves : Holder N → StopCause × Nat
  | .testing call _ _ => (.vote, call)
  | .raising cause call _ => (cause, call)
  | .stopping st => (st.cause, st.call)

/-- Whom the handler serves that holds `election_mutex_`. -/
def Pod.serving (p : Pod N) : Option (StopCause × Nat) := p.holder.map Holder.serves

theorem Pod.serving_of_holder {p : Pod N} {h : Holder N} (hh : p.holder = some h) :
    p.serving = some h.serves := by
  rw [Pod.serving, hh, Option.map_some]

theorem Pod.serving_of_stopping {p : Pod N} {st : Stopping N} (hst : p.stopping = some st) :
    p.serving = some (st.cause, st.call) :=
  Pod.serving_of_holder (Pod.holder_of_stopping hst)

theorem Pod.locked_eq (p : Pod N) : p.locked = (p.holder.isSome || p.thread.holds) := by
  rw [Pod.locked]
  cases p.thread <;> rfl

theorem Pod.not_locked_iff {p : Pod N} :
    p.locked = false ↔ p.holder = none ∧ p.thread.holds = false := by
  rw [Pod.locked_eq, Bool.or_eq_false_iff, Option.isSome_eq_false_iff, Option.isNone_iff_eq_none]

theorem Pod.serving_of_not_locked {p : Pod N} (h : p.locked = false) : p.serving = none := by
  rw [Pod.serving, (Pod.not_locked_iff.mp h).1, Option.map_none]

/-! ### What a step does to the handlers of a pod -/

namespace Elections

variable {e e' : Elections N}

theorem serving_setPod {j : Fin N} {p : Pod N} (hp : p.serving = (e.pod j).serving)
    (i : Fin N) : ((e.setPod j p).pod i).serving = (e.pod i).serving := by
  rw [setPod_pod]
  split
  · rename_i hij
    rw [hp, hij]
  · rfl

theorem serving_setThread {j : Fin N} {p : Pod N} (hp : p.holder = (e.pod j).holder)
    (i : Fin N) : ((e.setPod j p).pod i).serving = (e.pod i).serving :=
  serving_setPod (congrArg (Option.map Holder.serves) hp) i

/-- What a step can make of the call that is served at pod `i`. -/
def ServingStep (e e' : Elections N) (i : Fin N) : Prop :=
  (e'.pod i).serving = (e.pod i).serving ∨
    ((e.pod i).locked = false ∧ ∃ call, call < e.calls.sent.length ∧
      (e'.pod i).serving = some (.vote, call)) ∨
    ∃ call, (e.pod i).serving = some (.vote, call) ∧ (e'.pod i).serving = none

theorem ServingStep.done {j : Fin N} {p : Pod N} {call : Nat}
    (hs : (e.pod j).serving = some (.vote, call)) (hpods : e'.pod = (e.setPod j p).pod)
    (hp : p.holder = none) (i : Fin N) : ServingStep e e' i := by
  by_cases hi : i = j
  · subst hi
    refine Or.inr (Or.inr ⟨call, hs, ?_⟩)
    rw [hpods, setPod_pod_self, Pod.serving, hp, Option.map_none]
  · refine Or.inl ?_
    rw [hpods, setPod_pod_ne _ _ hi]

theorem serving_of_voteTest {j : Fin N} (h : e.voteTest j = some e') (i : Fin N) :
    ServingStep e e' i := by
  rw [voteTest] at h
  split at h
  · rename_i call index test hh
    have hs := Pod.serving_of_holder hh
    have hsame : ∀ {x : Holder N}, x.serves = (.vote, call) → ServingStep e (e.setHolder j x) i :=
      fun hx => Or.inl (serving_setPod (by rw [hs, Pod.serving, Option.map_some, hx]; rfl) i)
    have hrefuse : ServingStep e (e.refuse j call) i := .done hs (by rfl) (by rfl) i
    split at h
    · cases h
    · cases test with
      | older | shorter | voted =>
        dsimp only at h
        split at h
        · obtain rfl := Option.some.inj h
          exact hrefuse
        · obtain rfl := Option.some.inj h
          exact hsame rfl
      | newer =>
        dsimp only at h
        split at h
        · obtain rfl := Option.some.inj h
          exact hsame rfl
        · obtain rfl := Option.some.inj h
          exact .done hs (by rfl) (by rfl) i
  · cases h

/-- Of the steps of elections only those of `Vote` begin or end the handling of a call. -/
theorem serving_of_step {index : Fin N → Nat} {a : ElectionAct N}
    (h : e.step index a = some e') (i : Fin N) : ServingStep e e' i := by
  cases a with
  | vote call =>
    simp only [step, vote] at h
    split at h
    · cases h
    · rename_i req harr
      have hlt := (List.getElem?_eq_some_iff.mp (Net.getElem?_of_arriving harr)).1
      split at h
      · cases h
      · rename_i hlock
        obtain rfl := Option.some.inj h
        by_cases hi : i = req.dst
        · subst hi
          exact Or.inr (Or.inl ⟨by simpa using hlock, call, hlt,
            congrArg Pod.serving (setPod_pod_self e _ _)⟩)
        · exact Or.inl (congrArg Pod.serving (setPod_pod_ne e _ hi))
  | voteTest j => exact serving_of_voteTest h i
  | storeTerm j =>
    simp only [step, storeTerm] at h
    split at h
    · rename_i cause call term hh
      obtain rfl := Option.some.inj h
      exact Or.inl (serving_setPod (by rw [Pod.serving_of_holder hh]; rfl) i)
    · cases h
  | voteStopped j =>
    simp only [step, voteStopped] at h
    split at h
    · rename_i call hst
      split at h
      · cases h
      · obtain rfl := Option.some.inj h
        exact .done (Pod.serving_of_stopping hst) (by rfl) (by rfl) i
    · cases h
  | timeOut j =>
    rw [step, timeOut] at h
    grind [serving_setThread, ServingStep]
  | requestVote j =>
    rw [step, requestVote] at h
    grind [serving_setThread, ServingStep]
  | setTerm j =>
    rw [step, setTerm] at h
    grind [serving_setThread, ServingStep]
  | setIndex j =>
    rw [step, setIndex] at h
    grind [serving_setThread, ServingStep]
  | callVote j =>
    simp only [step, callVote] at h
    split at h
    · split at h
      · cases h
      · split at h
        · obtain rfl := Option.some.inj h
          exact Or.inl (serving_setThread (by rfl) i)
        · obtain rfl := Option.some.inj h
          exact Or.inl (serving_setThread (by rfl) i)
    · cases h
  | voteAnswered j code =>
    rw [step, voteAnswered] at h
    grind [serving_setThread, ServingStep]
  | voteFailed j =>
    rw [step, voteFailed] at h
    grind [serving_setThread, ServingStep]
  | countTickets j =>
    simp only [step, countTickets] at h
    split at h
    · split at h
      · cases h
      · split at h
        · obtain rfl := Option.some.inj h
          exact Or.inl (serving_setThread (by rfl) i)
        · split at h
          · obtain rfl := Option.some.inj h
            exact Or.inl (serving_setThread (by rfl) i)
          · obtain rfl := Option.some.inj h
            exact Or.inl (serving_setThread (by rfl) i)
    · cases h
  | startBeat j =>
    rw [step, startBeat] at h
    grind [serving_setThread, ServingStep]
  | readTerm j =>
    rw [step, readTerm] at h
    grind [serving_setThread, ServingStep]

end Elections

namespace Replicas

variable {r r' : Replicas N}

/-- The request is there that a handler needs to go on. -/
def CanGoOn (sent : List (AppendReq N)) : AppendHandler → Prop
  | .free => True
  | .taking call | .entered call => call < sent.length
  | .mismatched call | .matched call =>
    ∃ req entry, sent[call]? = some req ∧ req.entrys = [entry]

theorem CanGoOn.mono {sent sent' : List (AppendReq N)} {h : AppendHandler} (hgo : CanGoOn sent h)
    (hsent : sent <+: sent') : CanGoOn sent' h := by
  have hget : ∀ {call : Nat}, (∃ req entry, sent[call]? = some req ∧ req.entrys = [entry]) →
      ∃ req entry, sent'[call]? = some req ∧ req.entrys = [entry] := by
    rintro call ⟨req, entry, hs, he⟩
    exact ⟨req, entry, getElem?_of_isPrefix hsent hs, he⟩
  cases h with
  | free => trivial
  | taking call => exact Nat.lt_of_lt_of_le (show call < sent.length from hgo) hsent.length_le
  | entered call => exact Nat.lt_of_lt_of_le (show call < sent.length from hgo) hsent.length_le
  | mismatched call => exact hget hgo
  | matched call => exact hget hgo

/-- The handler is in `UpdateRaftLog`. -/
def InUpdate : AppendHandler → Prop
  | .free | .taking _ => False
  | .entered _ | .mismatched _ | .matched _ => True

/-- The handler of pod `i` stays, or goes on in `UpdateRaftLog`; no thread of the pod is started. -/
structure Frame (r r' : Replicas N) (i : Fin N) : Prop where
  handler : r'.handler i = r.handler i ∨ InUpdate (r.handler i) ∧
    (r'.handler i = .free ∨ InUpdate (r'.handler i) ∧ CanGoOn r.calls.sent (r'.handler i))
  sync : ∀ f, r.sync i f = .off → r'.sync i f = .off

theorem Frame.setHandler {q : Replicas N} {j : Fin N} {h : AppendHandler}
    (hhandler : q.handler = r.handler) (hsync : q.sync = r.sync) (hin : InUpdate (r.handler j))
    (hh : h = .free ∨ InUpdate h ∧ CanGoOn r.calls.sent h) (i : Fin N) :
    Frame r (q.setHandler j h) i where
  handler := by
    rw [setHandler_handler, hhandler]
    split
    · rename_i hij
      exact Or.inr ⟨hij ▸ hin, hh⟩
    · exact Or.inl rfl
  sync f hf := by
    show q.sync i f = .off
    rw [hsync, hf]

theorem Frame.setSync {q : Replicas N} {j g : Fin N} {t : SyncThread N}
    (hhandler : q.handler = r.handler) (hsync : q.sync = r.sync) (hne : r.sync j g ≠ .off)
    (i : Fin N) : Frame r (q.setSync j g t) i where
  handler := Or.inl (congrFun hhandler i)
  sync f hf := by
    rw [setSync_sync, hsync, if_neg]
    · exact hf
    · rintro ⟨rfl, rfl⟩
      exact hne hf

theorem Frame.reply {i : Fin N} (h : Frame r r' i) (call : Nat) (code : Int) :
    Frame r (r'.reply call code) i := ⟨h.handler, h.sync⟩

theorem Frame.send {i : Fin N} (h : Frame r r' i) (req : AppendReq N) :
    Frame r (r'.send req) i := ⟨h.handler, h.sync⟩

theorem Frame.same {q : Replicas N} (hhandler : q.handler = r.handler) (hsync : q.sync = r.sync)
    (i : Fin N) : Frame r q i where
  handler := Or.inl (congrFun hhandler i)
  sync f hf := by rw [hsync, hf]

/-- In the replication half only `UpdateRaftLog` moves a handler, and no thread is started. -/
theorem frame_of_step {pod : Fin N → Pod N} {a : ReplicaAct N} (h : r.step pod a = some r')
    (i : Fin N) : Frame r r' i := by
  cases a with
  | updateRaftLog j =>
    simp only [step, updateRaftLog] at h
    split at h
    · rename_i call hth
      have hin : InUpdate (r.handler j) := by rw [hth]; trivial
      split at h
      · cases h
      · rename_i req hs
        split at h
        · rename_i entry he
          obtain rfl := Option.some.inj h
          refine .setHandler rfl rfl hin (Or.inr ?_) i
          split
          · exact ⟨trivial, req, entry, hs, he⟩
          · exact ⟨trivial, req, entry, hs, he⟩
        · obtain rfl := Option.some.inj h
          exact (Frame.setHandler rfl rfl hin (Or.inl rfl) i).reply _ _
    · cases h
  | resetRaftLog j =>
    simp only [step, resetRaftLog] at h
    split at h
    · rename_i call hth
      have hin : InUpdate (r.handler j) := by rw [hth]; trivial
      split at h
      · cases h
      · rename_i req hs
        split at h
        · rename_i entry he
          obtain rfl := Option.some.inj h
          split
          · exact (Frame.setHandler (by rfl) (by rfl) hin (Or.inl rfl) i).reply _ _
          · refine .setHandler (by rfl) (by rfl) hin (Or.inr ?_) i
            exact ⟨trivial, req, entry, hs, he⟩
        · cases h
    · cases h
  | putEntry j =>
    simp only [step, putEntry] at h
    split at h
    · rename_i call hth
      have hin : InUpdate (r.handler j) := by rw [hth]; trivial
      split at h
      · cases h
      · split at h
        · obtain rfl := Option.some.inj h
          exact (Frame.setHandler (by rfl) (by rfl) hin (Or.inl rfl) i).reply _ _
        · cases h
    · cases h
  | syncSend j g =>
    simp only [step, syncSend] at h
    split at h
    · rename_i hth
      split at h
      · cases h
      · obtain rfl := Option.some.inj h
        refine (Frame.setSync rfl rfl ?_ i).send _
        simp [hth]
    · cases h
  | syncCheck j g =>
    rw [step, syncCheck] at h
    grind [Frame.setSync]
  | syncStop j g =>
    rw [step, syncStop] at h
    grind [Frame.setSync]
  | syncAnswered j g code =>
    rw [step, syncAnswered] at h
    grind [Frame.setSync, setNextindex]
  | syncFailed j g =>
    rw [step, syncFailed] at h
    grind [Frame.setSync]
  | syncCount j g =>
    rw [step, syncCount] at h
    grind [Frame.setSync]
  | syncCommit j g =>
    rw [step, syncCommit] at h
    grind [Frame.setSync, leaderCommit, setLog]
  | put j k key value =>
    rw [step, put] at h
    grind [Frame.same, setPut]
  | putTerm j k =>
    rw [step, putTerm] at h
    grind [Frame.same, setPut]
  | innerPut j k =>
    rw [step, innerPut] at h
    grind [Frame.same, setPut, setLog]
  | poll j k =>
    rw [step, poll] at h
    grind [Frame.same, setPut]
  | pollCount j k =>
    rw [step, pollCount] at h
    grind [Frame.same, setPut]
  | pollCommit j k =>
    rw [step, pollCommit] at h
    grind [Frame.same, setPut, leaderCommit, setLog]
  | apply j =>
    rw [step, apply] at h
    grind [Frame.same, setLog]

end Replicas

namespace Cluster

open Replicas

/-- What a step can make of the handlers of pod `i`: of the call for which one holds
`election_mutex_`, and of where `SolveAppend` is. -/
inductive HandlerMove (s : Cluster N) (i : Fin N) : Option (StopCause × Nat) → AppendHandler → Prop
  | same : HandlerMove s i (s.el.pod i).serving (s.rep.handler i)
  | vote (call : Nat) (hlock : (s.el.pod i).locked = false)
      (hlt : call < s.el.calls.sent.length) :
      HandlerMove s i (some (.vote, call)) (s.rep.handler i)
  | voted (call : Nat) (hs : (s.el.pod i).serving = some (.vote, call)) :
      HandlerMove s i none (s.rep.handler i)
  | take (req : AppendReq N) (call : Nat)
      (hlock : (s.el.pod i).locked = false) (hs : s.rep.calls.sent[call]? = some req)
      (hdst : req.dst = i) : HandlerMove s i (some (.solveAppend, call)) (.taking call)
  | takeCommit (req : AppendReq N) (call : Nat) (h : AppendHandler)
      (hs : s.rep.calls.sent[call]? = some req)
      (hserv : (s.el.pod i).serving = none ∨ (s.el.pod i).serving = some (.solveAppend, call))
      (hh : h = .free ∨ h = .entered call) : HandlerMove s i none h
  | update (h : AppendHandler) (hin : InUpdate (s.rep.handler i))
      (hh : h = .free ∨ InUpdate h ∧ CanGoOn s.rep.calls.sent h) :
      HandlerMove s i (s.el.pod i).serving h

theorem takeCommit_handler (r : Replicas N) (req : AppendReq N) (call : Nat) (i : Fin N) :
    (r.takeCommit req call).handler i = r.handler i ∧ i ≠ req.dst ∨ i = req.dst ∧
      ((r.takeCommit req call).handler i = .free ∨
        (r.takeCommit req call).handler i = .entered call) := by
  rw [takeCommit]
  by_cases hi : i = req.dst
  · refine Or.inr ⟨hi, ?_⟩
    split
    · exact Or.inl (by rw [reply, setHandler_handler, if_pos hi])
    · exact Or.inr (by rw [setHandler_handler, if_pos hi])
  · refine Or.inl ⟨?_, hi⟩
    split
    · rw [reply, setHandler_handler, if_neg hi]
      rfl
    · rw [setHandler_handler, if_neg hi]
      rfl

/-- A request that `SolveAppend` handles is for this pod. -/
def Addressed (s : Cluster N) : Prop :=
  ∀ i call, (s.el.pod i).serving = some (.solveAppend, call) →
    ∃ req, s.rep.calls.sent[call]? = some req ∧ req.dst = i

/-- **The handlers of a pod move as listed.** -/
theorem handlerMove_of_step {s t : Cluster N} {a : Action N} (hdst : s.Addressed)
    (h : s.step a = some t) (i : Fin N) :
    HandlerMove s i (t.el.pod i).serving (t.rep.handler i) := by
  cases a with
  | elect a =>
    obtain ⟨e, he, rfl⟩ := Option.map_eq_some_iff.mp h
    show HandlerMove s i (e.pod i).serving (s.rep.handler i)
    rcases Elections.serving_of_step he i with heq | ⟨hlock, call, hlt, heq⟩ | ⟨call, hs, heq⟩
    · rw [heq]
      exact .same
    · rw [heq]
      exact .vote call hlock hlt
    · rw [heq]
      exact .voted call hs
  | replicate a =>
    obtain ⟨r, hr, rfl⟩ := Option.map_eq_some_iff.mp h
    show HandlerMove s i (s.el.pod i).serving (r.handler i)
    rcases (frame_of_step hr i).handler with heq | ⟨hin, hh⟩
    · rw [heq]
      exact .same
    · exact .update _ hin hh
  | promote j =>
    simp only [step, promote] at h
    split at h
    · split at h
      · obtain rfl := Option.some.inj h
        show HandlerMove s i ((s.el.setPod j _).pod i).serving (s.rep.handler i)
        rw [Elections.serving_setThread (by rfl)]
        exact .same
      · cases h
    · obtain rfl := Option.some.inj h
      show HandlerMove s i ((s.el.setPod j _).pod i).serving (s.rep.handler i)
      rw [Elections.serving_setThread (by rfl)]
      exact .same
    · cases h
  | sendHeartBeat j =>
    simp only [step, sendHeartBeat] at h
    split at h
    · obtain rfl := Option.some.inj h
      show HandlerMove s i ((s.el.setPod j _).pod i).serving (s.rep.handler i)
      rw [Elections.serving_setThread (by rfl)]
      exact .same
    · cases h
  | join j =>
    simp only [step, join] at h
    split at h
    · rename_i f rest cause call hst
      split at h
      · obtain rfl := Option.some.inj h
        show HandlerMove s i ((s.el.setPod j _).pod i).serving (s.rep.handler i)
        rw [Elections.serving_setPod (by rw [Pod.serving_of_stopping hst]; rfl)]
        exact .same
      · cases h
    · cases h
  | solveAppend call =>
    simp only [step, solveAppend] at h
    split at h
    · cases h
    · rename_i req harr
      have hs := Net.getElem?_of_arriving harr
      split at h
      · cases h
      · rename_i hfree
        have hlock := (not_or.mp hfree).1
        split at h
        · obtain rfl := Option.some.inj h
          show HandlerMove s i ((s.el.setHolder req.dst _).pod i).serving
            ((setHandler _ req.dst (.taking call)).handler i)
          rw [setHandler_handler]
          by_cases hi : i = req.dst
          · subst hi
            rw [Elections.setHolder, Elections.setPod_pod_self, if_pos rfl]
            exact .take req call (by simpa using hlock) hs rfl
          · rw [Elections.setHolder, Elections.setPod_pod_ne _ _ hi, if_neg hi]
            exact .same
        · obtain rfl := Option.some.inj h
          show HandlerMove s i (s.el.pod i).serving ((takeCommit _ req call).handler i)
          rcases takeCommit_handler _ req call i with ⟨heq, -⟩ | ⟨rfl, hh⟩
          · rw [heq]
            exact .same
          · have hserv := Pod.serving_of_not_locked (by simpa using hlock)
            rw [hserv]
            exact .takeCommit req call _ hs (Or.inl hserv) hh
  | appendStopped j =>
    simp only [step, appendStopped] at h
    split at h
    · rename_i call hst
      split at h
      · cases h
      · rename_i req hs
        obtain rfl := Option.some.inj h
        have hserv := Pod.serving_of_stopping hst
        obtain ⟨req', hs', rfl⟩ := hdst j call hserv
        obtain rfl : req = req' := Option.some.inj (hs.symm.trans hs')
        show HandlerMove s i ((s.el.setPod req.dst _).pod i).serving
          ((s.rep.takeCommit req call).handler i)
        rcases takeCommit_handler s.rep req call i with ⟨heq, hne⟩ | ⟨rfl, hh⟩
        · rw [heq, Elections.setPod_pod_ne _ _ hne]
          exact .same
        · rw [Elections.setPod_pod_self]
          exact .takeCommit req call _ hs (Or.inr hserv) hh
    · cases h

/-! ### Requests at hand -/

/-- The handlers of pod `i` have their requests, and `SolveAppend` holds `election_mutex_` exactly
while it is taking over. -/
structure Requested (votes : List (RequestVoteReq N)) (appends : List (AppendReq N)) (i : Fin N)
    (serving : Option (StopCause × Nat)) (h : AppendHandler) : Prop where
  vote : ∀ call, serving = some (.vote, call) → call < votes.length
  append : ∀ call, serving = some (.solveAppend, call) →
    ∃ req, appends[call]? = some req ∧ req.dst = i
  handler : CanGoOn appends h
  taking : ∀ call, h = .taking call ↔ serving = some (.solveAppend, call)

theorem Requested.mono {votes votes' : List (RequestVoteReq N)}
    {appends appends' : List (AppendReq N)} {i : Fin N} {serving : Option (StopCause × Nat)}
    {h : AppendHandler} (hr : Requested votes appends i serving h) (hv : votes <+: votes')
    (ha : appends <+: appends') : Requested votes' appends' i serving h where
  vote call hs := Nat.lt_of_lt_of_le (hr.vote call hs) hv.length_le
  append call hs := by
    obtain ⟨req, hreq, hdst⟩ := hr.append call hs
    exact ⟨req, getElem?_of_isPrefix ha hreq, hdst⟩
  handler := hr.handler.mono ha
  taking := hr.taking

theorem Requested.move {s : Cluster N} {i : Fin N} {serving : Option (StopCause × Nat)}
    {h : AppendHandler}
    (hr : Requested s.el.calls.sent s.rep.calls.sent i (s.el.pod i).serving (s.rep.handler i))
    (hm : HandlerMove s i serving h) :
    Requested s.el.calls.sent s.rep.calls.sent i serving h := by
  cases hm with
  | same => exact hr
  | vote call hlock hlt =>
    have hserv := Pod.serving_of_not_locked hlock
    refine ⟨?_, ?_, hr.handler, ?_⟩
    · intro call' heq
      cases heq
      exact hlt
    · intro call' heq
      cases heq
    · intro call'
      rw [hr.taking, hserv]
      simp
  | voted call hs =>
    refine ⟨by simp, by simp, hr.handler, ?_⟩
    intro call'
    rw [hr.taking, hs]
    simp
  | take req call hlock hs hdst =>
    refine ⟨?_, ?_, (List.getElem?_eq_some_iff.mp hs).1, ?_⟩
    · intro call' heq
      cases heq
    · intro call' heq
      cases heq
      exact ⟨req, hs, hdst⟩
    · intro call'
      simp
  | takeCommit req call h hs hserv hh =>
    have hlt := (List.getElem?_eq_some_iff.mp hs).1
    refine ⟨by simp, by simp, ?_, ?_⟩
    · rcases hh with rfl | rfl
      · trivial
      · exact hlt
    · intro call'
      rcases hh with rfl | rfl <;> simp
  | update h hin hh =>
    have hnot : ∀ {h' : AppendHandler} {call}, h' = .free ∨ InUpdate h' → h' ≠ .taking call := by
      rintro h' call (rfl | hin) heq
      · cases heq
      · rw [heq] at hin
        exact hin
    refine ⟨hr.vote, hr.append, ?_, ?_⟩
    · rcases hh with rfl | ⟨-, hgo⟩
      · trivial
      · exact hgo
    · intro call'
      rw [← hr.taking]
      exact iff_of_false (hnot (hh.imp id And.left)) (hnot (Or.inr hin))

end Cluster

end Mokv.Raft
