import Mokv.Lib.Quorum
import Mokv.Raft.Cluster

/-!
# The moves of an election

`Elections.Move` lists what a step of the cluster can do to its election half, guards
included.  `Cluster.move_of_step` is the only place where the step functions are taken
apart for elections; the invariants follow from the list.

`SolveAppend` may take an entry of the pod's own term for a new leader's.  Entries are
sent without a term (`Replicas.EntriesPlain`), so that this term is `0`, in which
nobody votes.
-/

namespace Mokv.Raft

open Lib

variable {N : Nat}

/-! ### Followers -/

theorem mem_others {i f : Fin N} : f ∈ others i ↔ f ≠ i := by
  rw [others, List.mem_filter]
  simp [List.mem_finRange]

theorem nodup_others (i : Fin N) : (others i).Nodup := (List.nodup_finRange N).filter _

theorem length_others (i : Fin N) : (others i).length + 1 = N := by
  have herase : others i = (List.finRange N).erase i := by
    rw [(List.nodup_finRange N).erase_eq_filter, others]
    exact List.filter_congr fun f _ => by rw [bne, beq_eq_decide, decide_not]
  have hpos : 0 < N := i.pos
  rw [herase, List.length_erase_of_mem (List.mem_finRange i), List.length_finRange]
  omega

theorem majority_insert {i : Fin N} {S : Finset (Fin N)} (hi : i ∉ S)
    (hn : 1 + S.card > ((others i).length + 1) / 2) : Majority (insert i S) := by
  rw [Majority, Fintype.card_fin, Finset.card_insert_of_notMem hi]
  rw [length_others] at hn
  omega

/-! ### What a step can do -/

/-- The thread is outside `RequestVote`. -/
def ElectionThread.quiet : ElectionThread N → Bool
  | .waiting | .promoting _ | .beating _ | .beat _ _ _ => true
  | _ => false

/-- The thread is in the loop of `RequestVote`. -/
def ElectionThread.running : ElectionThread N → Bool
  | .asking _ _ | .filling _ _ _ _ | .prepared _ _ _ _ | .calling _ _ _ _ => true
  | _ => false

/-- In `RequestVote`, as a candidate. -/
def Pod.Campaigning (p : Pod N) : Prop := p.status = .candidate ∧ p.thread.running = true

instance (p : Pod N) : Decidable p.Campaigning := inferInstanceAs (Decidable (_ ∧ _))

theorem Pod.stopping_of_holder {p : Pod N} (h : p.holder = none) : p.stopping = none := by
  rw [Pod.stopping, h]

theorem Pod.stopping_of_ne {p : Pod N} {h : Holder N} (hh : p.holder = some h)
    (hne : ∀ st, h ≠ .stopping st) : p.stopping = none := by
  cases h with
  | stopping st => exact absurd rfl (hne st)
  | testing | raising => rw [Pod.stopping, hh]

theorem Pod.holder_of_stopping {p : Pod N} {st : Stopping N} (h : p.stopping = some st) :
    p.holder = some (.stopping st) := by
  rw [Pod.stopping] at h
  split at h
  · rename_i hst
    rw [hst, Option.some.inj h]
  · cases h

theorem Pod.holder_of_not_locked {p : Pod N} (h : ¬ p.locked = true) : p.holder = none := by
  rw [Pod.locked, Bool.or_eq_true, not_or] at h
  exact Option.not_isSome_iff_eq_none.mp h.1

theorem Pod.not_promoting_of_not_locked {p : Pod N} (h : ¬ p.locked = true)
    (rest : List (Fin N)) : p.thread ≠ .promoting rest := by
  intro hth
  rw [Pod.locked, hth, Bool.or_true] at h
  exact h rfl

namespace Elections

/-- What is known of the steps of a run beyond the code's own checks: terms fit in the
`int32` of a request (`fits`), neither a candidate in `RequestVote` nor a leader gives away
a vote of its own term (`once`), of a request whose vote is given (`vote`), and of a
follower whose thread is joined (`off`). -/
structure Guard (N : Nat) where
  fits : Prop
  once : Prop
  vote : RequestVoteReq N → Prop
  off : Fin N → Fin N → Prop

/-- Nothing is known. -/
def Guard.none (N : Nat) : Guard N := ⟨False, False, fun _ => True, fun _ _ => True⟩

/-- The changes of the election half. -/
inductive Move (G : Guard N) (e : Elections N) : Elections N → Prop
  | quiet (i : Fin N) (th : ElectionThread N) (hq : th.quiet = true)
      (hp : ∀ rest, th = .promoting rest → ∃ f, (e.pod i).thread = .promoting (f :: rest)) :
      Move G e (e.setPod i { e.pod i with thread := th })
  | timeOut (i : Fin N) (hw : (e.pod i).thread.quiet = true) (hl : (e.pod i).status ≠ .leader) :
      Move G e (e.setPod i { e.pod i with status := .candidate, thread := .timedOut })
  | requestVote (i : Fin N) (hth : (e.pod i).thread = .timedOut)
      (hfit : G.fits → (e.pod i).term + 1 < 2 ^ 31) :
      Move G e (e.setPod i { e.pod i with
        term := toInt64 ((e.pod i).term + 1), thread := .asking (others i) 1 })
  | fill (i f : Fin N) (rest : List (Fin N)) (n : Nat)
      (hth : (e.pod i).thread = .asking (f :: rest) n) :
      Move G e (e.setPod i { e.pod i with thread := .filling f rest n (toInt32 (e.pod i).term) })
  | prepare (i f : Fin N) (rest : List (Fin N)) (n : Nat) (term index : Int)
      (hth : (e.pod i).thread = .filling f rest n term) :
      Move G e (e.setPod i { e.pod i with thread := .prepared f rest n ⟨i, f, term, index⟩ })
  | call (i f : Fin N) (rest : List (Fin N)) (n : Nat) (req : RequestVoteReq N)
      (hth : (e.pod i).thread = .prepared f rest n req) (hh : (e.pod i).holder = none)
      (hc : (e.pod i).status = .candidate) :
      Move G e { e.setPod i { e.pod i with
        thread := .calling f rest n e.calls.sent.length } with calls := e.calls.send req }
  | answer (i f : Fin N) (rest : List (Fin N)) (n call : Nat) (code : Int)
      (hth : (e.pod i).thread = .calling f rest n call) (hr : (call, code) ∈ e.calls.rsps) :
      Move G e (e.setPod i { e.pod i with
        thread := .asking rest (if code = 0 then n + 1 else n) })
  | fail (i f : Fin N) (rest : List (Fin N)) (n call : Nat)
      (hth : (e.pod i).thread = .calling f rest n call) :
      Move G e (e.setPod i { e.pod i with thread := .asking rest n })
  | win (i : Fin N) (n : Nat) (hth : (e.pod i).thread = .asking [] n)
      (hh : (e.pod i).holder = none) (hc : (e.pod i).status = .candidate)
      (hn : n > ((others i).length + 1) / 2) :
      Move G e { e.setPod i { e.pod i with
          status := .leader, thread := .promoting (others i), won := (e.pod i).term } with
        wins := (i, (e.pod i).term) :: e.wins }
  | vote (call : Nat) (req : RequestVoteReq N) (index : Nat)
      (hs : e.calls.sent[call]? = some req) (hlock : ¬ (e.pod req.dst).locked = true) :
      Move G e { e.setPod req.dst { e.pod req.dst with
        holder := some (.testing call index .older) } with calls := e.calls.deliver call }
  | pass (i : Fin N) (call index : Nat) (test next : VoteTest) (req : RequestVoteReq N)
      (hh : (e.pod i).holder = some (.testing call index test))
      (hs : e.calls.sent[call]? = some req)
      (hvoted : next = .newer → req.term = (e.pod i).term → (e.pod i).voted = false) :
      Move G e (e.setPod i { e.pod i with holder := some (.testing call index next) })
  | refuse (i : Fin N) (call index : Nat) (test : VoteTest)
      (hh : (e.pod i).holder = some (.testing call index test)) :
      Move G e { e.setPod i { e.pod i with holder := none } with calls := e.calls.reply call (-1) }
  | grant (i : Fin N) (call index : Nat) (req : RequestVoteReq N)
      (hh : (e.pod i).holder = some (.testing call index .newer))
      (hs : e.calls.sent[call]? = some req) (hterm : req.term ≤ (e.pod i).term) (hv : G.vote req)
      (honce : G.once → req.term = (e.pod i).term ∧ (e.pod i).status ≠ .leader ∧
        ¬ (e.pod i).Campaigning) :
      Move G e { e.setPod i { e.pod i with voted := true, holder := none } with
        calls := e.calls.reply call 0
        grants := (i, req.id, req.term) :: e.grants }
  | newer (i : Fin N) (call index : Nat) (req : RequestVoteReq N)
      (hh : (e.pod i).holder = some (.testing call index .newer))
      (hs : e.calls.sent[call]? = some req) (hterm : (e.pod i).term < req.term) :
      Move G e (e.setPod i { e.pod i with holder := some (.raising .vote call req.term) })
  | take (i : Fin N) (call : Nat) (term : Int) (hlock : ¬ (e.pod i).locked = true)
      (hterm : (e.pod i).term < term ∨ (term = (e.pod i).term ∧ term = 0)) :
      Move G e (e.setPod i { e.pod i with holder := some (.raising .solveAppend call term) })
  | store (i : Fin N) (cause : StopCause) (call : Nat) (term : Int) (voted : Bool)
      (rest : List (Fin N)) (hh : (e.pod i).holder = some (.raising cause call term))
      (hrest : (e.pod i).status = .leader → rest = others i) :
      Move G e (e.setPod i { e.pod i with
        term := term, voted := voted, holder := some (.stopping ⟨rest, cause, call⟩) })
  | voteStopped (i : Fin N) (call : Nat) (req : RequestVoteReq N)
      (hst : (e.pod i).stopping = some ⟨[], .vote, call⟩) (hs : e.calls.sent[call]? = some req)
      (hv : G.vote req) :
      Move G e { e.setPod i { e.pod i with
          status := .follower, voted := true, holder := none } with
        calls := e.calls.reply call 0
        grants := (i, req.id, req.term) :: e.grants }
  | join (i f : Fin N) (rest : List (Fin N)) (cause : StopCause) (call : Nat)
      (hst : (e.pod i).stopping = some ⟨f :: rest, cause, call⟩) (hoff : G.off i f) :
      Move G e (e.setPod i { e.pod i with holder := some (.stopping ⟨rest, cause, call⟩) })
  | adopted (i leaderId : Fin N) (call : Nat)
      (hst : (e.pod i).stopping = some ⟨[], .solveAppend, call⟩) :
      Move G e (e.setPod i { e.pod i with
        status := .follower, leaderId := some leaderId, holder := none })

end Elections

/-! ### Every step is such a change -/

/-- An `Append` with entries carries no term and no commit index. -/
def Replicas.EntriesPlain (r : Replicas N) : Prop :=
  ∀ req ∈ r.calls.sent, req.entrys ≠ [] → req.term = 0 ∧ req.commitedIndex = 0

/-- The pod that enters `RequestVote` in a step. -/
def Action.campaigner : Action N → Option (Fin N)
  | .elect (.requestVote i) => some i
  | _ => none

/-- The pod at which `Vote` makes a test in a step. -/
def Action.voter : Action N → Option (Fin N)
  | .elect (.voteTest i) => some i
  | _ => none

/-- The request that passes the last test of `Vote` without a new term. -/
def Elections.passed (e : Elections N) (i : Fin N) : Option (RequestVoteReq N) :=
  match (e.pod i).holder with
  | some (.testing call _ .newer) =>
    e.calls.sent[call]?.filter fun req => decide (¬ req.term > (e.pod i).term)
  | _ => none

namespace Cluster

/-- Terms fit in the `int32` of a request. -/
def TermsFit (s : Cluster N) (a : Action N) : Prop :=
  ∀ i ∈ a.campaigner, (s.el.pod i).term + 1 < 2 ^ 31

/-- A pod gives its vote in its own term only, and neither as a candidate in `RequestVote` nor
as a leader. -/
def VotesOnce (s : Cluster N) (a : Action N) : Prop :=
  ∀ i ∈ a.voter, ∀ req ∈ s.el.passed i,
    req.term = (s.el.pod i).term ∧ (s.el.pod i).status ≠ .leader ∧ ¬ (s.el.pod i).Campaigning

instance (s : Cluster N) (a : Action N) : Decidable (s.TermsFit a) :=
  inferInstanceAs (Decidable (∀ i ∈ a.campaigner, _))

instance (s : Cluster N) (a : Action N) : Decidable (s.VotesOnce a) :=
  inferInstanceAs (Decidable (∀ i ∈ a.voter, ∀ req ∈ s.el.passed i, _))

/-- The request whose vote is given in a step. -/
def grantReq (s : Cluster N) : Action N → Option (RequestVoteReq N)
  | .elect (.voteTest i) => s.el.passed i
  | .elect (.voteStopped i) =>
    match (s.el.pod i).stopping with
    | some ⟨[], .vote, call⟩ => s.el.calls.sent[call]?
    | _ => none
  | _ => none

/-- The step from `s` to `t` meets a guard. -/
structure Elects (G : Elections.Guard N) (s : Cluster N) (a : Action N) (t : Cluster N) :
    Prop where
  fits : G.fits → s.TermsFit a
  once : G.once → s.VotesOnce a
  vote : ∀ req ∈ s.grantReq a, G.vote req
  off : ∀ i f, t.rep.sync i f = .off → G.off i f

theorem elects_none (s : Cluster N) (a : Action N) (t : Cluster N) :
    Elects (Elections.Guard.none N) s a t :=
  ⟨False.elim, False.elim, fun _ _ => trivial, fun _ _ _ => trivial⟩

section

open Elections

variable {G : Guard N} {s t : Cluster N}

theorem move_of_voteTest {i : Fin N} {e : Elections N} (hg : Elects G s (.elect (.voteTest i)) t)
    (he : s.el.voteTest i = some e) : Move G s.el e := by
  rw [voteTest] at he
  split at he
  · rename_i call index test hh
    split at he
    · cases he
    · rename_i req hs
      cases test with
      | older =>
        dsimp only at he
        split at he
        · obtain rfl := Option.some.inj he
          exact .refuse i call index _ hh
        · obtain rfl := Option.some.inj he
          exact .pass i call index _ .shorter req hh hs (by simp)
      | shorter =>
        dsimp only at he
        split at he
        · obtain rfl := Option.some.inj he
          exact .refuse i call index _ hh
        · obtain rfl := Option.some.inj he
          exact .pass i call index _ .voted req hh hs (by simp)
      | voted =>
        dsimp only at he
        split at he
        · obtain rfl := Option.some.inj he
          exact .refuse i call index _ hh
        · rename_i hnot
          obtain rfl := Option.some.inj he
          refine .pass i call index _ .newer req hh hs fun _ heq => ?_
          exact Bool.eq_false_iff.mpr fun hv => hnot ⟨heq, hv⟩
      | newer =>
        dsimp only at he
        split at he
        · rename_i hterm
          obtain rfl := Option.some.inj he
          exact .newer i call index req hh hs hterm
        · rename_i hterm
          obtain rfl := Option.some.inj he
          have hpassed : s.el.passed i = some req := by
            simp only [passed, hh, hs, Option.filter_some, hterm, not_false_eq_true, decide_true,
              if_true]
          exact .grant i call index req hh hs (not_lt.mp hterm) (hg.vote req hpassed) fun ho =>
            hg.once ho i rfl req hpassed
  · cases he

theorem move_of_elect {a : ElectionAct N} {e : Elections N} (hg : Elects G s (.elect a) t)
    (he : s.el.step (fun i => (s.rep.log i).index) a = some e) : Move G s.el e := by
  cases a with
  | timeOut i =>
    simp only [Elections.step, Elections.timeOut] at he
    split at he
    · rename_i hth
      split at he
      · cases he
      · rename_i hl
        obtain rfl := Option.some.inj he
        exact .timeOut i (by rw [hth]; rfl) hl
    · cases he
  | requestVote i =>
    simp only [Elections.step, Elections.requestVote] at he
    split at he
    · rename_i hth
      obtain rfl := Option.some.inj he
      exact .requestVote i hth fun hf => hg.fits hf i rfl
    · cases he
  | setTerm i =>
    simp only [Elections.step, Elections.setTerm] at he
    split at he
    · rename_i f rest n hth
      obtain rfl := Option.some.inj he
      exact .fill i f rest n hth
    · cases he
  | setIndex i =>
    simp only [Elections.step, Elections.setIndex] at he
    split at he
    · rename_i f rest n term hth
      obtain rfl := Option.some.inj he
      exact .prepare i f rest n term _ hth
    · cases he
  | callVote i =>
    simp only [Elections.step, Elections.callVote] at he
    split at he
    · rename_i f rest n req hth
      split at he
      · cases he
      · rename_i hh
        split at he
        · obtain rfl := Option.some.inj he
          exact .quiet i .waiting rfl fun _ hp => by cases hp
        · rename_i hc
          obtain rfl := Option.some.inj he
          exact .call i f rest n req hth (by simpa using hh) (by simpa using hc)
    · cases he
  | voteAnswered i code =>
    simp only [Elections.step, Elections.voteAnswered] at he
    split at he
    · rename_i f rest n call hth
      split at he
      · rename_i hr
        obtain rfl := Option.some.inj he
        exact .answer i f rest n call code hth hr
      · cases he
    · cases he
  | voteFailed i =>
    simp only [Elections.step, Elections.voteFailed] at he
    split at he
    · rename_i f rest n call hth
      obtain rfl := Option.some.inj he
      exact .fail i f rest n call hth
    · cases he
  | countTickets i =>
    simp only [Elections.step, Elections.countTickets] at he
    split at he
    · rename_i n hth
      split at he
      · cases he
      · rename_i hh
        split at he
        · obtain rfl := Option.some.inj he
          exact .quiet i .waiting rfl fun _ hp => by cases hp
        · rename_i hc
          split at he
          · rename_i hn
            obtain rfl := Option.some.inj he
            exact .win i n hth (by simpa using hh) (by simpa using hc) hn
          · obtain rfl := Option.some.inj he
            exact .quiet i .waiting rfl fun _ hp => by cases hp
    · cases he
  | startBeat i =>
    simp only [Elections.step, Elections.startBeat] at he
    split at he
    · split at he
      · cases he
      · obtain rfl := Option.some.inj he
        exact .quiet i _ rfl fun _ hp => by cases hp
    · cases he
  | readTerm i =>
    simp only [Elections.step, Elections.readTerm] at he
    split at he
    · obtain rfl := Option.some.inj he
      exact .quiet i _ rfl fun _ hp => by cases hp
    · obtain rfl := Option.some.inj he
      exact .quiet i _ rfl fun _ hp => by cases hp
    · cases he
  | vote call =>
    simp only [Elections.step, Elections.vote] at he
    split at he
    · cases he
    · rename_i req harr
      split at he
      · cases he
      · rename_i hlock
        obtain rfl := Option.some.inj he
        exact .vote call req _ (Net.getElem?_of_arriving harr) hlock
  | voteTest i => exact move_of_voteTest hg he
  | storeTerm i =>
    simp only [Elections.step, Elections.storeTerm] at he
    split at he
    · rename_i cause call term hh
      obtain rfl := Option.some.inj he
      exact .store i cause call term _ _ hh fun hl => if_pos hl
    · cases he
  | voteStopped i =>
    simp only [Elections.step, Elections.voteStopped] at he
    split at he
    · rename_i call hst
      split at he
      · cases he
      · rename_i req hs
        obtain rfl := Option.some.inj he
        refine .voteStopped i call req hst hs (hg.vote req ?_)
        simp only [grantReq, hst, hs, Option.mem_def]
    · cases he

theorem move_of_solveAppend {call : Nat} (hplain : s.rep.EntriesPlain)
    (h : s.step (.solveAppend call) = some t) : t.el = s.el ∨ Move G s.el t.el := by
  simp only [step, solveAppend] at h
  split at h
  · cases h
  · rename_i req harr
    split at h
    · cases h
    · rename_i hlock
      split at h
      · rename_i htake
        obtain rfl := Option.some.inj h
        refine Or.inr (.take req.dst call req.term (fun hl => hlock (Or.inl hl)) ?_)
        rcases htake with hlt | ⟨heq, hb⟩
        · exact Or.inl hlt
        · have hmem := List.mem_of_getElem? (Net.getElem?_of_arriving harr)
          have hne : req.entrys ≠ [] := fun hnil => by rw [hnil] at hb; cases hb
          exact Or.inr ⟨heq, (hplain req hmem hne).1⟩
      · obtain rfl := Option.some.inj h
        exact Or.inl rfl

/-- **The election half changes as listed.** -/
theorem move_of_step {a : Action N} (hplain : s.rep.EntriesPlain) (hg : Elects G s a t)
    (h : s.step a = some t) : t.el = s.el ∨ Move G s.el t.el := by
  cases a with
  | elect a =>
    obtain ⟨e, he, rfl⟩ := Option.map_eq_some_iff.mp h
    exact Or.inr (move_of_elect hg he)
  | replicate a =>
    obtain ⟨r, -, rfl⟩ := Option.map_eq_some_iff.mp h
    exact Or.inl rfl
  | promote i =>
    simp only [step, promote] at h
    split at h
    · rename_i f rest hth
      split at h
      · obtain rfl := Option.some.inj h
        refine Or.inr (.quiet i _ rfl fun r hp => ⟨f, ?_⟩)
        rw [hth, ElectionThread.promoting.inj hp]
      · cases h
    · obtain rfl := Option.some.inj h
      exact Or.inr (.quiet i _ rfl fun _ hp => by cases hp)
    · cases h
  | sendHeartBeat i =>
    simp only [step, sendHeartBeat] at h
    split at h
    · obtain rfl := Option.some.inj h
      exact Or.inr (.quiet i _ rfl fun _ hp => by cases hp)
    · cases h
  | join i =>
    simp only [step, join] at h
    split at h
    · rename_i f rest cause call hst
      split at h
      · obtain rfl := Option.some.inj h
        refine Or.inr (.join i f rest cause call hst (hg.off i f ?_))
        simp only [Replicas.setSync, Function.update_self]
      · cases h
    · cases h
  | solveAppend call => exact move_of_solveAppend hplain h
  | appendStopped i =>
    simp only [step, appendStopped] at h
    split at h
    · rename_i call hst
      split at h
      · cases h
      · rename_i req hs
        obtain rfl := Option.some.inj h
        exact Or.inr (.adopted i req.id call hst)
    · cases h

end

end Cluster

namespace Elections

/-- A leader does not count itself among its followers. -/
def NoSelf (e : Elections N) : Prop :=
  ∀ i rest, (e.pod i).thread = .promoting rest → ∀ f ∈ rest, f ≠ i

@[simp] theorem setPod_pod_self (e : Elections N) (i : Fin N) (p : Pod N) :
    (e.setPod i p).pod i = p := Function.update_self ..

theorem setPod_pod_ne (e : Elections N) {i j : Fin N} (p : Pod N) (h : j ≠ i) :
    (e.setPod i p).pod j = e.pod j := Function.update_of_ne h ..

theorem noSelf_init : (init N).NoSelf := fun _ _ h => by cases h

/-- Only the thread of pod `i` matters when only pod `i` changes. -/
theorem NoSelf.update {e e' : Elections N} (h : e.NoSelf) (i : Fin N)
    (hpods : ∀ j, j ≠ i → e'.pod j = e.pod j)
    (hi : ∀ rest, (e'.pod i).thread = .promoting rest → ∀ f ∈ rest, f ≠ i) : e'.NoSelf := by
  intro j rest hth
  by_cases hj : j = i
  · subst hj
    exact hi rest hth
  · rw [hpods j hj] at hth
    exact h j rest hth

theorem NoSelf.move {G : Guard N} {e e' : Elections N} (h : e.NoSelf)
    (hm : Move G e e') : e'.NoSelf := by
  cases hm with
  | quiet i th hq hp =>
    refine h.update i (fun j hj => setPod_pod_ne e _ hj) ?_
    intro rest hth f hf
    rw [setPod_pod_self] at hth
    obtain ⟨g, hg⟩ := hp rest hth
    exact h i _ hg f (List.mem_cons_of_mem g hf)
  | win i n hth hst hc hn =>
    refine h.update i (fun j hj => setPod_pod_ne e _ hj) ?_
    intro rest hth f hf
    simp only [setPod_pod_self, ElectionThread.promoting.injEq] at hth
    exact mem_others.mp (hth ▸ hf)
  | timeOut i | requestVote i | fill i | prepare i | call i | answer i | fail i =>
    refine h.update i (fun j hj => setPod_pod_ne e _ hj) ?_
    intro rest hth
    simp only [setPod_pod_self] at hth
    cases hth
  | vote call req =>
    refine h.update req.dst (fun j hj => setPod_pod_ne e _ hj) ?_
    intro rest hth
    simp only [setPod_pod_self] at hth
    exact h _ rest hth
  | pass i | refuse i | grant i | newer i | take i | store i | voteStopped i | join i | adopted i =>
    refine h.update i (fun j hj => setPod_pod_ne e _ hj) ?_
    intro rest hth
    simp only [setPod_pod_self] at hth
    exact h _ rest hth

end Elections

end Mokv.Raft
