import Mathlib.Algebra.Order.BigOperators.Group.Finset
import Mokv.Raft.HandlerMoves

/-!
# Locks

A candidate holds its `election_mutex_` while it calls another pod, a new leader while it starts
threads, and a handler while it reads and writes the term and joins threads; `SolveAppend` holds
`solve_append_lock_` until its entry is in the log.  Two candidates may call each other, so that
each waits for a handler that waits for the other's mutex.

Every call has a deadline, and a thread that is joined leaves its loops.  `Action.own` are the
steps for which a pod needs no other: a call that runs into its deadline, a thread that comes to
its end, a handler that goes on.  `locks_released`: **in every state of every run, as long as a
pod holds a lock some own step of it is possible, and it takes only so many of them.**
-/

namespace Mokv.Raft

open Lib

variable {N : Nat}

/-! ### What holds of the locks in every state -/

namespace Elections

variable {G : Guard N} {e e' : Elections N}

/-- Nobody holds `election_mutex_` twice. -/
def Alone (e : Elections N) : Prop :=
  ∀ i, (e.pod i).holder ≠ none → (e.pod i).thread.holds = false

theorem alone_init : (init N).Alone := fun _ h => absurd rfl h

theorem Alone.update (h : e.Alone) (i : Fin N) {p : Pod N} (hpods : e'.pod = (e.setPod i p).pod)
    (hi : p.holder ≠ none → p.thread.holds = false) : e'.Alone := by
  intro j hh
  rw [hpods] at hh ⊢
  by_cases hj : j = i
  · subst hj
    rw [setPod_pod_self] at hh ⊢
    exact hi hh
  · rw [setPod_pod_ne e _ hj] at hh ⊢
    exact h j hh

theorem Alone.move (h : e.Alone) (hm : Move G e e') : e'.Alone := by
  cases hm with
  | quiet i th hq hp =>
    refine h.update i rfl ?_
    intro hst
    cases th with
    | promoting rest =>
      obtain ⟨f, hth⟩ := hp rest rfl
      have hholds := h i hst
      rw [hth] at hholds
      cases hholds
    | calling f rest n call => cases hq
    | _ => rfl
  | timeOut i | requestVote i | fill i | prepare i | answer i | fail i =>
    exact h.update i rfl fun _ => rfl
  | call i f rest n req hth hh | win i n hth hh => exact h.update i rfl fun hne => absurd hh hne
  | vote call req index hs hlock =>
    have hfree : (e.pod req.dst).locked = false := by simpa using hlock
    exact h.update req.dst rfl fun _ => (Pod.not_locked_iff.mp hfree).2
  | take i call term hlock =>
    have hfree : (e.pod i).locked = false := by simpa using hlock
    exact h.update i rfl fun _ => (Pod.not_locked_iff.mp hfree).2
  | pass i call index test next req hh | newer i call index req hh
  | store i cause call term voted rest hh => exact h.update i rfl fun _ => h i (by simp [hh])
  | join i f rest cause call hst =>
    exact h.update i rfl fun _ => h i (by simp [Pod.holder_of_stopping hst])
  | refuse i | grant i | voteStopped i | adopted i => exact h.update i rfl fun hne => absurd rfl hne

/-- A pod that promotes its followers has just won, or did so before. -/
theorem Move.promoting (hm : Move G e e') (h : e.Alone) {i : Fin N} {rest : List (Fin N)}
    (hth : (e'.pod i).thread = .promoting rest) :
    ((e.pod i).status = .candidate ∧ (e'.pod i).status = .leader ∧ rest = others i) ∨
      ∃ front, (e.pod i).thread = .promoting (front ++ rest) ∧
        (e'.pod i).status = (e.pod i).status := by
  have hsame : ∀ {p : Pod N} {j : Fin N}, p.thread = (e.pod j).thread →
      (p.status = (e.pod j).status ∨ (e.pod j).holder ≠ none) →
      ((e.setPod j p).pod i).thread = .promoting rest →
      ∃ front, (e.pod i).thread = .promoting (front ++ rest) ∧
        ((e.setPod j p).pod i).status = (e.pod i).status := by
    intro p j hp hstatus hth
    by_cases hi : i = j
    · subst hi
      rw [setPod_pod_self] at hth ⊢
      rw [hp] at hth
      refine ⟨[], hth, hstatus.resolve_right fun hne => ?_⟩
      have hholds := h i hne
      rw [hth] at hholds
      cases hholds
    · rw [setPod_pod_ne e _ hi] at hth ⊢
      exact ⟨[], hth, rfl⟩
  have hother : ∀ {p : Pod N} {j : Fin N}, (∀ rest, p.thread ≠ .promoting rest) →
      ((e.setPod j p).pod i).thread = .promoting rest →
      ∃ front, (e.pod i).thread = .promoting (front ++ rest) ∧
        ((e.setPod j p).pod i).status = (e.pod i).status := by
    intro p j hp hth
    by_cases hi : i = j
    · subst hi
      rw [setPod_pod_self] at hth
      exact absurd hth (hp rest)
    · rw [setPod_pod_ne e _ hi] at hth ⊢
      exact ⟨[], hth, rfl⟩
  cases hm with
  | quiet j th hq hp =>
    refine Or.inr ?_
    by_cases hi : i = j
    · subst hi
      rw [setPod_pod_self] at hth ⊢
      obtain ⟨f, hf⟩ := hp rest hth
      exact ⟨[f], hf, rfl⟩
    · rw [setPod_pod_ne e _ hi] at hth ⊢
      exact ⟨[], hth, rfl⟩
  | win j n hth' hst hc =>
    by_cases hi : i = j
    · subst hi
      simp only [setPod_pod_self] at hth
      exact Or.inl ⟨hc, by simp only [setPod_pod_self], (ElectionThread.promoting.inj hth).symm⟩
    · simp only [setPod_pod_ne e _ hi] at hth
      exact Or.inr ⟨[], hth, by simp only [setPod_pod_ne e _ hi]⟩
  | timeOut j | requestVote j | fill j | prepare j | call j | answer j | fail j =>
    exact Or.inr (hother (by simp) hth)
  | vote call req => exact Or.inr (hsame rfl (Or.inl rfl) hth)
  | voteStopped j call req hst | adopted j leaderId call hst =>
    exact Or.inr (hsame rfl (Or.inr (by simp [Pod.holder_of_stopping hst])) hth)
  | pass j | refuse j | grant j | newer j | take j | store j | join j =>
    exact Or.inr (hsame rfl (Or.inl rfl) hth)

theorem Move.sent_isPrefix (hm : Move G e e') : e.calls.sent <+: e'.calls.sent := by
  cases hm with
  | call => exact List.prefix_append _ _
  | _ => exact List.prefix_rfl

end Elections

theorem Replicas.Move.sent_isPrefix {G : Guard N} {pod : Fin N → Pod N} {r r' : Replicas N}
    (hm : Move G pod r r') : r.calls.sent <+: r'.calls.sent := by
  rcases hm.sent with hs | ⟨i, f, mainEntry, hs⟩ | ⟨i, f, term, hs⟩
  · rw [hs]
  · rw [hs]
    exact List.prefix_append _ _
  · rw [hs]
    exact List.prefix_append _ _

namespace Cluster

open Replicas

theorem sync_off_of_step {s t : Cluster N} {a : Action N} (h : s.step a = some t) {i : Fin N}
    (ha : a ≠ .promote i) {f : Fin N} (hoff : s.rep.sync i f = .off) : t.rep.sync i f = .off := by
  cases a with
  | elect a =>
    obtain ⟨e, -, rfl⟩ := Option.map_eq_some_iff.mp h
    exact hoff
  | replicate a =>
    obtain ⟨r, hr, rfl⟩ := Option.map_eq_some_iff.mp h
    exact (frame_of_step hr i).sync f hoff
  | promote j =>
    have hij : i ≠ j := fun hij => ha (by rw [hij])
    rw [step, promote] at h
    grind [setSync_sync, setNextindex]
  | sendHeartBeat j =>
    rw [step, sendHeartBeat] at h
    grind [send]
  | join j =>
    rw [step, join] at h
    grind [setSync_sync]
  | solveAppend call =>
    rw [step, solveAppend] at h
    grind [setHandler, takeCommit_sync]
  | appendStopped j =>
    rw [step, appendStopped] at h
    grind [takeCommit_sync]

/-- Who holds a lock can go on. -/
structure LocksOk (s : Cluster N) : Prop where
  plain : s.Plain
  live : s.Live
  self : ∀ i, s.rep.sync i i = .off
  alone : s.el.Alone
  promoting : ∀ i rest, (s.el.pod i).thread = .promoting rest →
    (s.el.pod i).status = .leader ∧ rest.Nodup ∧ ∀ f ∈ rest, s.rep.sync i f = .off
  requested : ∀ i,
    Requested s.el.calls.sent s.rep.calls.sent i (s.el.pod i).serving (s.rep.handler i)

theorem locksOk_init : (init N).LocksOk where
  plain := plain_init
  live := live_init
  self _ := rfl
  alone := Elections.alone_init
  promoting _ _ h := by cases h
  requested _ := by
    refine ⟨?_, ?_, trivial, ?_⟩
    · intro call h
      cases h
    · intro call h
      cases h
    · intro call
      exact iff_of_false (by rintro ⟨⟩) (by rintro ⟨⟩)

theorem LocksOk.leader_of_promoting {s : Cluster N} (h : s.LocksOk) {i : Fin N}
    {rest : List (Fin N)} (hth : (s.el.pod i).thread = .promoting rest) :
    (s.el.pod i).status = .leader ∧ (s.el.pod i).holder = none := by
  refine ⟨(h.promoting i rest hth).1, ?_⟩
  by_contra hne
  have hholds := h.alone i hne
  rw [hth] at hholds
  cases hholds

theorem LocksOk.promoting_step {s t : Cluster N} {a : Action N} (h : s.LocksOk)
    (hstep : s.step a = some t) {i : Fin N} {rest : List (Fin N)}
    (hth : (t.el.pod i).thread = .promoting rest) :
    (t.el.pod i).status = .leader ∧ rest.Nodup ∧ ∀ f ∈ rest, t.rep.sync i f = .off := by
  by_cases ha : a = .promote i
  · subst ha
    simp only [Cluster.step, promote] at hstep
    split at hstep
    · rename_i f rest' hth'
      obtain ⟨hl, hnd, hoff⟩ := h.promoting i _ hth'
      split at hstep
      · obtain rfl := Option.some.inj hstep
        simp only [Elections.setPod_pod_self, ElectionThread.promoting.injEq] at hth ⊢
        subst hth
        refine ⟨hl, (List.nodup_cons.mp hnd).2, ?_⟩
        intro g hg
        have hne : g ≠ f := fun hgf => (List.nodup_cons.mp hnd).1 (hgf ▸ hg)
        rw [setSync_sync, if_neg fun hgf => hne hgf.2]
        exact hoff g (List.mem_cons_of_mem f hg)
      · cases hstep
    · obtain rfl := Option.some.inj hstep
      simp at hth
    · cases hstep
  · have hcase : ((s.el.pod i).status = .candidate ∧ (t.el.pod i).status = .leader ∧
        rest = others i) ∨ ∃ front, (s.el.pod i).thread = .promoting (front ++ rest) ∧
          (t.el.pod i).status = (s.el.pod i).status := by
      rcases move_of_step h.plain.entries (elects_none s a t) hstep with he | hm
      · rw [he] at hth ⊢
        exact Or.inr ⟨[], hth, rfl⟩
      · exact hm.promoting h.alone hth
    rcases hcase with ⟨hc, hl, rfl⟩ | ⟨front, hth', hstatus⟩
    · -- a candidate has no threads
      refine ⟨hl, nodup_others i, fun f _ => sync_off_of_step hstep ha ?_⟩
      by_contra hs
      have hleader := h.live.leader i f hs
      rw [hc] at hleader
      cases hleader
    · obtain ⟨hl, hnd, hoff⟩ := h.promoting i _ hth'
      exact ⟨hstatus.trans hl, hnd.of_append_right, fun f hf =>
        sync_off_of_step hstep ha (hoff f (List.mem_append_right _ hf))⟩

theorem LocksOk.requested_step {s t : Cluster N} {a : Action N} (h : s.LocksOk)
    (hstep : s.step a = some t) (i : Fin N) :
    Requested t.el.calls.sent t.rep.calls.sent i (t.el.pod i).serving (t.rep.handler i) := by
  have hvotes : s.el.calls.sent <+: t.el.calls.sent := by
    rcases move_of_step h.plain.entries (elects_none s a t) hstep with he | hm
    · rw [he]
    · exact hm.sent_isPrefix
  have happends : s.rep.calls.sent <+: t.rep.calls.sent := by
    rcases rep_move_of_step h.plain.entries h.plain.noSelf (guarded_none s a) hstep with he | hm
    · rw [he]
    · exact hm.sent_isPrefix
  have hmove := handlerMove_of_step (fun j => (h.requested j).append) hstep i
  exact ((h.requested i).move hmove).mono hvotes happends

theorem LocksOk.step {s t : Cluster N} {a : Action N} (h : s.LocksOk)
    (hstep : s.step a = some t) : t.LocksOk where
  plain := h.plain.step hstep
  live := h.live.step_of_promoting h.plain (fun _ _ hth => h.leader_of_promoting hth) h.self hstep
  self i := by
    rcases rep_move_of_step h.plain.entries h.plain.noSelf (guarded_none s a) hstep with he | hm
    · rw [he]
      exact h.self i
    · refine hm.sync_off (h.self i) ?_
      intro rest hth
      exact h.plain.noSelf i _ hth i (List.mem_cons_self ..) rfl
  alone := by
    rcases move_of_step h.plain.entries (elects_none s a t) hstep with he | hm
    · rw [he]
      exact h.alone
    · exact h.alone.move hm
  promoting _ _ hth := h.promoting_step hstep hth
  requested := h.requested_step hstep

end Cluster

/-! ### The steps that need no other pod -/

/-- A step of pod `i` for which it needs no other: a call runs into its deadline, a thread that
is to be joined goes on to its end, a handler goes on. -/
def Action.own (i : Fin N) : Action N → Bool
  | .elect (.voteFailed j) | .elect (.voteTest j) | .elect (.storeTerm j)
  | .elect (.voteStopped j) | .promote j | .join j | .appendStopped j
  | .replicate (.syncStop j _) | .replicate (.syncFailed j _) | .replicate (.syncCount j _)
  | .replicate (.syncCommit j _) | .replicate (.updateRaftLog j)
  | .replicate (.resetRaftLog j) | .replicate (.putEntry j) => j = i
  | _ => false

/-- How many own steps a thread needs to its end, with `n` other followers. -/
def SyncThread.rest (n : Nat) : SyncThread N → Nat
  | .off | .idle => 0
  | .trying => n + 2
  | .awaiting _ => n + 3
  | .counting rest _ => rest.length + 1

/-- How many own steps a handler needs to release `election_mutex_`, with `n` followers. -/
def Holder.rest (n : Nat) : Holder N → Nat
  | .testing _ _ .older => n + 6
  | .testing _ _ .shorter => n + 5
  | .testing _ _ .voted => n + 4
  | .testing _ _ .newer => n + 3
  | .raising _ _ _ => n + 2
  | .stopping st => st.rest.length + 1

def ElectionThread.rest : ElectionThread N → Nat
  | .calling _ _ _ _ => 1
  | .promoting rest => rest.length + 1
  | _ => 0

def AppendHandler.rest : AppendHandler → Nat
  | .free => 0
  | .matched _ => 1
  | .mismatched _ => 2
  | .entered _ => 3
  | .taking _ => 4

/-- The same for all threads of pod `i`. -/
def Replicas.rest (r : Replicas N) (i : Fin N) : Nat :=
  ∑ f, (r.sync i f).rest (otherFollowers i f).length

namespace Cluster

open Replicas

/-- How many own steps pod `i` can take in a row. -/
def rest (s : Cluster N) (i : Fin N) : Nat :=
  s.rep.rest i + (s.el.pod i).thread.rest +
    ((s.el.pod i).holder.elim 0 (Holder.rest (others i).length)) + (s.rep.handler i).rest

/-- Pod `i` holds `election_mutex_` or `solve_append_lock_`. -/
def Holds (s : Cluster N) (i : Fin N) : Prop :=
  (s.el.pod i).locked = true ∨ s.rep.handler i ≠ .free

/-- The threads and handlers of the other pods are where they were. -/
def Aside (s t : Cluster N) (i : Fin N) : Prop :=
  ∀ j, j ≠ i → t.el.pod j = s.el.pod j ∧ t.rep.handler j = s.rep.handler j ∧
    t.rep.sync j = s.rep.sync j

theorem rest_setSync_lt {r q : Replicas N} (hq : q.sync = r.sync) {i f : Fin N} {x : SyncThread N}
    (hlt : x.rest (otherFollowers i f).length < (r.sync i f).rest (otherFollowers i f).length) :
    (q.setSync i f x).rest i < r.rest i := by
  refine Finset.sum_lt_sum ?_ ⟨f, Finset.mem_univ f, ?_⟩
  · intro g _
    rw [setSync_sync, hq]
    split
    · rename_i hg
      rw [hg.2]
      exact hlt.le
    · exact le_refl _
  · rw [setSync_sync, if_pos ⟨rfl, rfl⟩]
    exact hlt

theorem rest_setSync_eq {r q : Replicas N} (hq : q.sync = r.sync) {i f : Fin N} {x : SyncThread N}
    (heq : x.rest (otherFollowers i f).length = (r.sync i f).rest (otherFollowers i f).length) :
    (q.setSync i f x).rest i = r.rest i := by
  refine Finset.sum_congr rfl ?_
  intro g _
  rw [setSync_sync, hq]
  split
  · rename_i hg
    rw [hg.2]
    exact heq
  · rfl

theorem rest_lt_of_holder {s : Cluster N} {e : Elections N} {i : Fin N} {p : Pod N} {h : Holder N}
    (hpods : e.pod = (s.el.setPod i p).pod) (hth : p.thread = (s.el.pod i).thread)
    (hh : (s.el.pod i).holder = some h)
    (hlt : p.holder.elim 0 (Holder.rest (others i).length) < h.rest (others i).length) :
    Cluster.rest ⟨e, s.rep⟩ i < s.rest i ∧ ∀ j, j ≠ i → e.pod j = s.el.pod j := by
  refine ⟨?_, fun k hk => by rw [hpods, Elections.setPod_pod_ne _ _ hk]⟩
  simp only [Cluster.rest, hpods, Elections.setPod_pod_self, hth, hh, Option.elim_some]
  omega

theorem rest_lt_of_voteTest {s : Cluster N} {e : Elections N} {i : Fin N}
    (he : s.el.voteTest i = some e) :
    Cluster.rest ⟨e, s.rep⟩ i < s.rest i ∧ ∀ j, j ≠ i → e.pod j = s.el.pod j := by
  rw [Elections.voteTest] at he
  split at he
  · rename_i call index test hh
    split at he
    · cases he
    · cases test with
      | older | shorter | voted =>
        dsimp only at he
        split at he
        · obtain rfl := Option.some.inj he
          exact rest_lt_of_holder rfl rfl hh (Nat.succ_pos _)
        · obtain rfl := Option.some.inj he
          exact rest_lt_of_holder rfl rfl hh (by simp [Holder.rest])
      | newer =>
        dsimp only at he
        split at he
        · obtain rfl := Option.some.inj he
          exact rest_lt_of_holder rfl rfl hh (by simp [Holder.rest])
        · obtain rfl := Option.some.inj he
          exact rest_lt_of_holder rfl rfl hh (Nat.succ_pos _)
  · cases he

theorem rest_lt_of_elect {s : Cluster N} {e : Elections N} {a : ElectionAct N} {i : Fin N}
    (ho : Action.own i (.elect a) = true)
    (he : s.el.step (fun j => (s.rep.log j).index) a = some e) :
    Cluster.rest ⟨e, s.rep⟩ i < s.rest i ∧ ∀ j, j ≠ i → e.pod j = s.el.pod j := by
  cases a with
  | voteFailed j =>
    obtain rfl : j = i := of_decide_eq_true ho
    simp only [Elections.step, Elections.voteFailed] at he
    split at he
    · rename_i f rest' n call hth
      obtain rfl := Option.some.inj he
      refine ⟨?_, fun k hk => Elections.setPod_pod_ne _ _ hk⟩
      simp only [Cluster.rest, Elections.setPod_pod_self, hth, ElectionThread.rest]
      omega
    · cases he
  | voteTest j =>
    obtain rfl : j = i := of_decide_eq_true ho
    exact rest_lt_of_voteTest he
  | storeTerm j =>
    obtain rfl : j = i := of_decide_eq_true ho
    simp only [Elections.step, Elections.storeTerm] at he
    split at he
    · rename_i cause call term hh
      obtain rfl := Option.some.inj he
      refine rest_lt_of_holder rfl rfl hh ?_
      simp only [Option.elim, Holder.rest]
      split
      · omega
      · simp
    · cases he
  | voteStopped j =>
    obtain rfl : j = i := of_decide_eq_true ho
    simp only [Elections.step, Elections.voteStopped] at he
    split at he
    · rename_i call hst
      split at he
      · cases he
      · obtain rfl := Option.some.inj he
        exact rest_lt_of_holder rfl rfl (Pod.holder_of_stopping hst) (Nat.succ_pos _)
    · cases he
  | _ => cases ho

theorem setSync_sync_ne {r q : Replicas N} (hq : q.sync = r.sync) {i j f : Fin N}
    {x : SyncThread N} (hj : j ≠ i) : (q.setSync i f x).sync j = r.sync j := by
  funext g
  rw [setSync_sync, if_neg fun h => hj h.1, hq]

theorem rest_lt_of_setSync {s : Cluster N} {q : Replicas N} {i f : Fin N} {x : SyncThread N}
    (hsync : q.sync = s.rep.sync) (hhandler : q.handler = s.rep.handler)
    (hlt : x.rest (otherFollowers i f).length <
      (s.rep.sync i f).rest (otherFollowers i f).length) :
    Cluster.rest ⟨s.el, q.setSync i f x⟩ i < s.rest i ∧ Aside s ⟨s.el, q.setSync i f x⟩ i := by
  refine ⟨?_, fun j hj => ⟨rfl, congrFun hhandler j, setSync_sync_ne hsync hj⟩⟩
  have hrest := rest_setSync_lt hsync hlt
  have heq : (q.setSync i f x).handler i = s.rep.handler i := congrFun hhandler i
  simp only [Cluster.rest, heq]
  omega

theorem rest_lt_of_setHandler {s : Cluster N} {q : Replicas N} {i : Fin N} {x : AppendHandler}
    (hsync : q.sync = s.rep.sync) (hhandler : q.handler = s.rep.handler)
    (hlt : x.rest < (s.rep.handler i).rest) :
    Cluster.rest ⟨s.el, q.setHandler i x⟩ i < s.rest i ∧ Aside s ⟨s.el, q.setHandler i x⟩ i := by
  refine ⟨?_, fun j hj => ⟨rfl, ?_, congrFun hsync j⟩⟩
  · have hrest : (q.setHandler i x).rest i = s.rep.rest i := by
      rw [Replicas.rest, Replicas.rest, ← hsync]
      rfl
    have heq : (q.setHandler i x).handler i = x := Function.update_self ..
    simp only [Cluster.rest, heq, hrest]
    omega
  · show (q.setHandler i x).handler j = s.rep.handler j
    rw [setHandler_handler, if_neg hj, hhandler]

theorem rest_lt_of_replicate {s : Cluster N} {r : Replicas N} {a : ReplicaAct N} {i : Fin N}
    (ho : Action.own i (.replicate a) = true) (hr : s.rep.step s.el.pod a = some r) :
    Cluster.rest ⟨s.el, r⟩ i < s.rest i ∧ Aside s ⟨s.el, r⟩ i := by
  cases a with
  | syncStop j f =>
    obtain rfl : j = i := of_decide_eq_true ho
    simp only [Replicas.step, syncStop] at hr
    split at hr
    · rename_i hth
      split at hr
      · obtain rfl := Option.some.inj hr
        exact rest_lt_of_setSync rfl rfl (by simp [hth, SyncThread.rest])
      · cases hr
    · cases hr
  | syncFailed j f =>
    obtain rfl : j = i := of_decide_eq_true ho
    simp only [Replicas.step, syncFailed] at hr
    split at hr
    · rename_i call hth
      obtain rfl := Option.some.inj hr
      exact rest_lt_of_setSync rfl rfl (by simp [hth, SyncThread.rest])
    · cases hr
  | syncCount j f =>
    obtain rfl : j = i := of_decide_eq_true ho
    simp only [Replicas.step, syncCount] at hr
    split at hr
    · rename_i g rest' sum hth
      obtain rfl := Option.some.inj hr
      exact rest_lt_of_setSync rfl rfl (by simp [hth, SyncThread.rest])
    · cases hr
  | syncCommit j f =>
    obtain rfl : j = i := of_decide_eq_true ho
    simp only [Replicas.step, syncCommit] at hr
    split at hr
    · rename_i sum hth
      obtain rfl := Option.some.inj hr
      split
      · exact rest_lt_of_setSync rfl rfl (by simp [hth, SyncThread.rest])
      · exact rest_lt_of_setSync rfl rfl (by simp [hth, SyncThread.rest])
    · cases hr
  | updateRaftLog j =>
    obtain rfl : j = i := of_decide_eq_true ho
    simp only [Replicas.step, Replicas.updateRaftLog] at hr
    split at hr
    · rename_i call hth
      split at hr
      · cases hr
      · split at hr
        · obtain rfl := Option.some.inj hr
          refine rest_lt_of_setHandler rfl rfl ?_
          rw [hth]
          split
          · simp [AppendHandler.rest]
          · simp [AppendHandler.rest]
        · obtain rfl := Option.some.inj hr
          exact rest_lt_of_setHandler rfl rfl (by simp [hth, AppendHandler.rest])
    · cases hr
  | resetRaftLog j =>
    obtain rfl : j = i := of_decide_eq_true ho
    simp only [Replicas.step, resetRaftLog] at hr
    split at hr
    · rename_i call hth
      split at hr
      · cases hr
      · split at hr
        · obtain rfl := Option.some.inj hr
          split
          · exact rest_lt_of_setHandler rfl rfl (by simp [hth, AppendHandler.rest])
          · exact rest_lt_of_setHandler rfl rfl (by simp [hth, AppendHandler.rest])
        · cases hr
    · cases hr
  | putEntry j =>
    obtain rfl : j = i := of_decide_eq_true ho
    simp only [Replicas.step, Replicas.putEntry] at hr
    split at hr
    · rename_i call hth
      split at hr
      · cases hr
      · split at hr
        · obtain rfl := Option.some.inj hr
          exact rest_lt_of_setHandler rfl rfl (by simp [hth, AppendHandler.rest])
        · cases hr
    · cases hr
  | _ => cases ho

theorem rest_lt_of_promote {s t : Cluster N} {i : Fin N} (hstep : s.promote i = some t) :
    t.rest i < s.rest i ∧ Aside s t i := by
  simp only [promote] at hstep
  split at hstep
  · rename_i f rest' hth
    split at hstep
    · rename_i hoff
      obtain rfl := Option.some.inj hstep
      refine ⟨?_, fun k hk => ⟨Elections.setPod_pod_ne _ _ hk, rfl, setSync_sync_ne rfl hk⟩⟩
      -- the new thread has nothing to bring to an end
      have hsync : ((s.rep.setNextindex i f (toInt64 (s.rep.log i).commited)).setSync i f
          .idle).rest i = s.rep.rest i := rest_setSync_eq (r := s.rep) rfl (by rw [hoff]; rfl)
      simp only [Cluster.rest, Elections.setPod_pod_self, hth, ElectionThread.rest, hsync]
      simp [setSync, setNextindex]
    · cases hstep
  · rename_i hth
    obtain rfl := Option.some.inj hstep
    refine ⟨?_, fun k hk => ⟨Elections.setPod_pod_ne _ _ hk, rfl, rfl⟩⟩
    simp only [Cluster.rest, Elections.setPod_pod_self, hth, ElectionThread.rest]
    simp
  · cases hstep

theorem rest_lt_of_join {s t : Cluster N} {i : Fin N} (hstep : s.join i = some t) :
    t.rest i < s.rest i ∧ Aside s t i := by
  simp only [join] at hstep
  split at hstep
  · rename_i f rest' cause call hst
    split at hstep
    · rename_i hend
      obtain rfl := Option.some.inj hstep
      refine ⟨?_, fun k hk => ⟨Elections.setPod_pod_ne _ _ hk, rfl, setSync_sync_ne rfl hk⟩⟩
      have hsync : (s.rep.setSync i f .off).rest i = s.rep.rest i := by
        refine rest_setSync_eq rfl ?_
        rcases hend with hend | hend
        · rw [hend]
          rfl
        · rw [hend]
      simp only [Cluster.rest, Elections.setPod_pod_self, Pod.holder_of_stopping hst,
        Option.elim_some, Holder.rest, hsync]
      simp [setSync]
    · cases hstep
  · cases hstep

theorem LocksOk.rest_lt_of_appendStopped {s t : Cluster N} {i : Fin N} (h : s.LocksOk)
    (hstep : s.appendStopped i = some t) :
    t.rest i < s.rest i ∧ Aside s t i := by
  simp only [appendStopped] at hstep
  split at hstep
  · rename_i call hst
    split at hstep
    · cases hstep
    · rename_i req hs
      obtain rfl := Option.some.inj hstep
      have hserv := Pod.serving_of_stopping hst
      obtain ⟨req', hs', hdst⟩ := (h.requested i).append call hserv
      obtain rfl : req = req' := Option.some.inj (hs.symm.trans hs')
      have htaking := ((h.requested i).taking call).mpr hserv
      have hsync : (s.rep.takeCommit req call).rest i = s.rep.rest i := by
        rw [Replicas.rest, takeCommit_sync]
        rfl
      refine ⟨?_, ?_⟩
      · have hlt : ((s.rep.takeCommit req call).handler i).rest < (s.rep.handler i).rest := by
          rw [htaking]
          rcases takeCommit_handler s.rep req call i with ⟨-, hne⟩ | ⟨-, hh | hh⟩
          · exact absurd hdst.symm hne
          · simp [hh, AppendHandler.rest]
          · simp [hh, AppendHandler.rest]
        simp only [Cluster.rest, Elections.setPod_pod_self, Option.elim_none, hsync]
        omega
      · intro k hk
        refine ⟨Elections.setPod_pod_ne _ _ hk, ?_, congrFun (takeCommit_sync _ _ _) k⟩
        rcases takeCommit_handler s.rep req call k with ⟨heq, -⟩ | ⟨hkd, -⟩
        · exact heq
        · exact absurd (hkd.trans hdst) hk
  · cases hstep

/-- **An own step brings the pod closer to the release of its locks**, and leaves the others
alone. -/
theorem LocksOk.rest_lt {s t : Cluster N} {a : Action N} {i : Fin N} (h : s.LocksOk)
    (ho : a.own i = true) (hstep : s.step a = some t) :
    t.rest i < s.rest i ∧ Aside s t i := by
  cases a with
  | elect a =>
    obtain ⟨e, he, rfl⟩ := Option.map_eq_some_iff.mp hstep
    obtain ⟨hlt, hsame⟩ := rest_lt_of_elect ho he
    exact ⟨hlt, fun j hj => ⟨hsame j hj, rfl, rfl⟩⟩
  | replicate a =>
    obtain ⟨r, hr, rfl⟩ := Option.map_eq_some_iff.mp hstep
    exact rest_lt_of_replicate ho hr
  | promote j =>
    obtain rfl : j = i := of_decide_eq_true ho
    exact rest_lt_of_promote hstep
  | join j =>
    obtain rfl : j = i := of_decide_eq_true ho
    exact rest_lt_of_join hstep
  | appendStopped j =>
    obtain rfl : j = i := of_decide_eq_true ho
    exact h.rest_lt_of_appendStopped hstep
  | sendHeartBeat j => cases ho
  | solveAppend call => cases ho

/-- A handler that joins threads goes on: the thread it waits for comes to its end, or there is
none left. -/
theorem LocksOk.exists_own_of_stopping {s : Cluster N} {i : Fin N} {st : Stopping N}
    (h : s.LocksOk) (hst : (s.el.pod i).stopping = some st) :
    ∃ a, Action.own i a = true ∧ (s.step a).isSome = true := by
  obtain ⟨rest', cause, call⟩ := st
  cases rest' with
  | cons f rest' =>
    cases hsync : s.rep.sync i f with
    | off => exact ⟨.join i, by simp [Action.own], by simp [Cluster.step, join, hst, hsync]⟩
    | idle => exact ⟨.join i, by simp [Action.own], by simp [Cluster.step, join, hst, hsync]⟩
    | trying =>
      exact ⟨.replicate (.syncStop i f), by simp [Action.own],
        by simp [Cluster.step, Replicas.step, syncStop, hst, hsync]⟩
    | awaiting call =>
      exact ⟨.replicate (.syncFailed i f), by simp [Action.own],
        by simp [Cluster.step, Replicas.step, syncFailed, hsync]⟩
    | counting others sum =>
      cases others with
      | nil =>
        exact ⟨.replicate (.syncCommit i f), by simp [Action.own],
          by simp [Cluster.step, Replicas.step, syncCommit, hsync]⟩
      | cons g others =>
        exact ⟨.replicate (.syncCount i f), by simp [Action.own],
          by simp [Cluster.step, Replicas.step, syncCount, hsync]⟩
  | nil =>
    cases cause with
    | vote =>
      have hlt := (h.requested i).vote _ (Pod.serving_of_stopping hst)
      exact ⟨.elect (.voteStopped i), by simp [Action.own],
        by simp [Cluster.step, Elections.step, Elections.voteStopped, hst, hlt]⟩
    | solveAppend =>
      obtain ⟨req, hs, -⟩ := (h.requested i).append _ (Pod.serving_of_stopping hst)
      exact ⟨.appendStopped i, by simp [Action.own],
        by simp [Cluster.step, appendStopped, hst, hs]⟩

theorem LocksOk.exists_own_of_holder {s : Cluster N} {i : Fin N} {x : Holder N}
    (h : s.LocksOk) (hh : (s.el.pod i).holder = some x) :
    ∃ a, Action.own i a = true ∧ (s.step a).isSome = true := by
  cases x with
  | testing call index test =>
    have hlt := (h.requested i).vote call (Pod.serving_of_holder hh)
    refine ⟨.elect (.voteTest i), by simp [Action.own], ?_⟩
    simp only [Cluster.step, Elections.step, Elections.voteTest, hh,
      List.getElem?_eq_getElem hlt, Option.isSome_map]
    split <;> split <;> rfl
  | raising cause call term =>
    exact ⟨.elect (.storeTerm i), by simp [Action.own],
      by simp [Cluster.step, Elections.step, Elections.storeTerm, hh]⟩
  | stopping st => exact h.exists_own_of_stopping (by rw [Pod.stopping, hh])

/-- The election thread goes on: a call runs into its deadline, and a new leader finds the slot of
the next follower empty. -/
theorem LocksOk.exists_own_of_thread {s : Cluster N} {i : Fin N} (h : s.LocksOk)
    (hholds : (s.el.pod i).thread.holds = true) :
    ∃ a, Action.own i a = true ∧ (s.step a).isSome = true := by
  cases hth : (s.el.pod i).thread with
  | calling f rest' n call =>
    exact ⟨.elect (.voteFailed i), by simp [Action.own],
      by simp [Cluster.step, Elections.step, Elections.voteFailed, hth]⟩
  | promoting rest' =>
    refine ⟨.promote i, by simp [Action.own], ?_⟩
    cases rest' with
    | nil => simp [Cluster.step, promote, hth]
    | cons f rest' =>
      have hoff := (h.promoting i _ hth).2.2 f (List.mem_cons_self ..)
      simp [Cluster.step, promote, hth, hoff]
  | _ =>
    rw [hth] at hholds
    cases hholds

/-- `SolveAppend` goes on in `UpdateRaftLog` once it does not hold `election_mutex_`. -/
theorem LocksOk.exists_own_of_handler {s : Cluster N} {i : Fin N} (h : s.LocksOk)
    (hh : (s.el.pod i).holder = none) (hhandler : s.rep.handler i ≠ .free) :
    ∃ a, Action.own i a = true ∧ (s.step a).isSome = true := by
  have hgo := (h.requested i).handler
  cases hr : s.rep.handler i with
  | free => exact absurd hr hhandler
  | taking call =>
    have hserv := ((h.requested i).taking call).mp hr
    rw [Pod.serving, hh] at hserv
    cases hserv
  | entered call =>
    rw [hr] at hgo
    refine ⟨.replicate (.updateRaftLog i), by simp [Action.own], ?_⟩
    simp only [Cluster.step, Replicas.step, Replicas.updateRaftLog, hr,
      List.getElem?_eq_getElem hgo, Option.isSome_map]
    split <;> rfl
  | mismatched call =>
    rw [hr] at hgo
    obtain ⟨req, entry, hs, he⟩ := hgo
    exact ⟨.replicate (.resetRaftLog i), by simp [Action.own],
      by simp [Cluster.step, Replicas.step, resetRaftLog, hr, hs, he]⟩
  | matched call =>
    rw [hr] at hgo
    obtain ⟨req, entry, hs, he⟩ := hgo
    exact ⟨.replicate (.putEntry i), by simp [Action.own],
      by simp [Cluster.step, Replicas.step, Replicas.putEntry, hr, hs, he]⟩

/-- **Who holds a lock can take an own step.** -/
theorem LocksOk.exists_own {s : Cluster N} {i : Fin N} (h : s.LocksOk) (hheld : s.Holds i) :
    ∃ a, Action.own i a = true ∧ (s.step a).isSome = true := by
  by_cases hh : (s.el.pod i).holder = none
  · by_cases hholds : (s.el.pod i).thread.holds = true
    · exact h.exists_own_of_thread hholds
    · refine h.exists_own_of_handler hh (hheld.resolve_left ?_)
      rw [Pod.locked_eq, hh]
      simpa using hholds
  · obtain ⟨x, hx⟩ := Option.ne_none_iff_exists'.mp hh
    exact h.exists_own_of_holder hx

theorem LocksOk.run {s t : Cluster N} {bs : List (Action N)} {i : Fin N} (h : s.LocksOk)
    (hown : ∀ b ∈ bs, Action.own i b = true) (hr : Lib.run Cluster.step s bs = some t) :
    t.LocksOk ∧ bs.length + t.rest i ≤ s.rest i ∧ Aside s t i := by
  induction bs generalizing s with
  | nil =>
    obtain rfl : s = t := Option.some.inj hr
    exact ⟨h, by simp, fun _ _ => ⟨rfl, rfl, rfl⟩⟩
  | cons b bs ih =>
    obtain ⟨u, hu, hr⟩ := Option.bind_eq_some_iff.mp hr
    obtain ⟨hlt, hsame⟩ := h.rest_lt (hown b (List.mem_cons_self ..)) hu
    obtain ⟨hok, hle, hsame'⟩ :=
      ih (h.step hu) (fun c hc => hown c (List.mem_cons_of_mem b hc)) hr
    refine ⟨hok, ?_, ?_⟩
    · rw [List.length_cons]
      omega
    · intro j hj
      obtain ⟨hpod, hhandler, hsync⟩ := hsame j hj
      obtain ⟨hpod', hhandler', hsync'⟩ := hsame' j hj
      exact ⟨hpod'.trans hpod, hhandler'.trans hhandler, hsync'.trans hsync⟩

/-- **A pod releases its locks without the help of another.**  In every state of every run, as
long as a pod holds a lock an own step of it is possible, and it takes at most `rest` of them in
a row; the threads and handlers of the other pods are left where they are. -/
theorem locks_released (as bs : List (Action N)) (s t : Cluster N) (i : Fin N)
    (hr : run step (init N) as = some s) (hown : ∀ b ∈ bs, Action.own i b = true)
    (hr' : run step s bs = some t) :
    (t.Holds i → ∃ a, Action.own i a = true ∧ (t.step a).isSome = true) ∧
      bs.length + t.rest i ≤ s.rest i ∧ Aside s t i := by
  have hs : s.LocksOk :=
    run_invariant locksOk_init (fun _ _ _ h _ hstep => h.step hstep) hr (stepsOk_true _ _)
  obtain ⟨ht, hle, hsame⟩ := hs.run hown hr'
  exact ⟨ht.exists_own, hle, hsame⟩

/-- Two pods time out and call each other. -/
def bothCandidates (i j : Fin 2) : List (Action 2) := List.flatten
  [[.elect (.timeOut i), .elect (.timeOut j), .elect (.requestVote i), .elect (.requestVote j)],
    Action.ask i, Action.ask j]

theorem locks_released_bothCandidates :
    ∃ s t, run step (init 2) (bothCandidates 0 1) = some s ∧ s.Holds 0 ∧ s.Holds 1 ∧
      run step s [.elect (.voteFailed 0)] = some t ∧ ¬ t.Holds 0 ∧
      (t.Holds 0 → ∃ a, Action.own 0 a = true ∧ (t.step a).isSome = true) ∧
      1 + t.rest 0 ≤ s.rest 0 ∧ Aside s t 0 := by
  obtain ⟨s, hs⟩ : ∃ s, run step (init 2) (bothCandidates 0 1) = some s :=
    Option.isSome_iff_exists.mp (by decide)
  obtain ⟨t, ht⟩ : ∃ t, run step (init 2) (bothCandidates 0 1 ++ [.elect (.voteFailed 0)]) =
      some t := Option.isSome_iff_exists.mp (by decide)
  have hheld : (run step (init 2) (bothCandidates 0 1)).all
      (fun s => (s.el.pod 0).locked && (s.el.pod 1).locked) = true := by decide
  have hfree : (run step (init 2) (bothCandidates 0 1 ++ [.elect (.voteFailed 0)])).all
      (fun s => !(s.el.pod 0).locked && s.rep.handler 0 == .free) = true := by decide
  rw [hs, Option.all_some, Bool.and_eq_true] at hheld
  rw [ht, Option.all_some, Bool.and_eq_true] at hfree
  rw [run_append, hs, Option.bind_some] at ht
  refine ⟨s, t, hs, Or.inl hheld.1, Or.inl hheld.2, ht, ?_,
    locks_released _ _ s t 0 hs (by decide) ht⟩
  rintro (hlock | hhandler)
  · simp [hlock] at hfree
  · exact hhandler (by simpa using hfree.2)

end Cluster

end Mokv.Raft
