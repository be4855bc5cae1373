import Mathlib.Data.List.FinRange
import Mokv.Lib.Rpc
import Mokv.Lib.Run
import Mokv.Raft.RaftLog

/-!
# Elections

The election half of a `Pod` (`mokv/raft/pod.hpp`): the fields guarded by
`election_mutex_`, the election thread with its loop in `RequestVote`, and the handler
`Vote`.  A step is one section under the mutex as long as it touches only what the mutex
guards; every access to `term_` and to the log, which it does not guard, is a step of its
own.  So the steps of all threads of all pods may be interleaved in any way:

* `RequestVote` increments `term_` without the mutex, reads the term and log index for a
  request without it, and then holds it while the call is under way;
* `Vote` reads `term_` anew for each of its tests, and `RequestVote` may increment it in
  between (`Holder.testing`);
* a handler that raises the term holds the mutex while it joins the threads of a former
  leader (`Stopping`), and the new term is visible meanwhile.

Calls may be lost or delayed, and the caller may give up at any time.  `PutTest` before
each request is a client's put at the other pod.
-/

namespace Mokv.Raft

open Lib

/-- `PodStatus`. -/
inductive PodStatus where
  | candidate
  | leader
  | follower
deriving DecidableEq

/-- `RequestVoteReq`, with the pod it is sent to. -/
structure RequestVoteReq (N : Nat) where
  id : Fin N
  dst : Fin N
  term : Int
  index : Int
deriving DecidableEq

/-- Where `election_thread_` is. -/
inductive ElectionThread (N : Nat) where
  /-- at the top of its loop -/
  | waiting
  /-- `status_` is `Candidate`, `RequestVote` not begun -/
  | timedOut
  /-- in the loop of `RequestVote` -/
  | asking (rest : List (Fin N)) (ticketNum : Nat)
  /-- the term of the request for `f` is read, the log index is not -/
  | filling (f : Fin N) (rest : List (Fin N)) (ticketNum : Nat) (term : Int)
  /-- the request for `f` is filled in -/
  | prepared (f : Fin N) (rest : List (Fin N)) (ticketNum : Nat) (req : RequestVoteReq N)
  /-- in the call to `f`, holding `election_mutex_` -/
  | calling (f : Fin N) (rest : List (Fin N)) (ticketNum : Nat) (call : Nat)
  /-- a leader that starts its followers' threads, holding `election_mutex_` -/
  | promoting (rest : List (Fin N))
  /-- in the loop of `SendHeartBeat` -/
  | beating (rest : List (Fin N))
  /-- the term for the heartbeat to `f` is read -/
  | beat (f : Fin N) (rest : List (Fin N)) (term : Int)
deriving DecidableEq

/-- Which handler raises the term. -/
inductive StopCause where
  | vote
  | solveAppend
deriving DecidableEq

/-- A handler that has raised the term and holds `election_mutex_`, with the followers
whose threads it still has to join. -/
structure Stopping (N : Nat) where
  rest : List (Fin N)
  cause : StopCause
  call : Nat
deriving DecidableEq

/-- The tests of `Vote`, in their order. -/
inductive VoteTest where
  /-- `req.term() < term_` -/
  | older
  /-- the same term and a shorter log -/
  | shorter
  /-- the same term and `voted_` -/
  | voted
  /-- `req.term() > term_` -/
  | newer
deriving DecidableEq

/-- A handler that holds `election_mutex_`. -/
inductive Holder (N : Nat) where
  /-- `Vote`, which has read the index of the log, before a test -/
  | testing (call currentLogIndex : Nat) (test : VoteTest)
  /-- the term was found to be newer and is not yet stored -/
  | raising (cause : StopCause) (call : Nat) (term : Int)
  | stopping (st : Stopping N)
deriving DecidableEq

/-- A pod as the elections see it.  `won` is the term at which it last became leader. -/
structure Pod (N : Nat) where
  status : PodStatus
  term : Int
  voted : Bool
  leaderId : Option (Fin N)
  thread : ElectionThread N
  holder : Option (Holder N)
  won : Int
deriving DecidableEq

/-- `Pod::Pod`. -/
def Pod.init (N : Nat) : Pod N := ⟨.follower, 0, false, none, .waiting, none, 0⟩

/-- The handler that joins threads. -/
def Pod.stopping {N : Nat} (p : Pod N) : Option (Stopping N) :=
  match p.holder with
  | some (.stopping st) => some st
  | _ => none

/-- `election_mutex_` is taken. -/
def Pod.locked {N : Nat} (p : Pod N) : Bool :=
  p.holder.isSome || match p.thread with
    | .calling _ _ _ _ => true
    | .promoting _ => true
    | _ => false

/-- All elections: the pods, the calls of `RequestVote`, and what happened so far: the
votes given (voter, candidate, term) and the elections won (pod, term). -/
structure Elections (N : Nat) where
  pod : Fin N → Pod N
  calls : Net (RequestVoteReq N)
  grants : List (Fin N × Fin N × Int)
  wins : List (Fin N × Int)

/-- `followers_` of a pod. -/
def others {N : Nat} (i : Fin N) : List (Fin N) := (List.finRange N).filter (· ≠ i)

/-- Steps of the election threads and of `Vote`. -/
inductive ElectionAct (N : Nat) where
  | timeOut (i : Fin N)
  | requestVote (i : Fin N)
  | setTerm (i : Fin N)
  | setIndex (i : Fin N)
  | callVote (i : Fin N)
  | voteAnswered (i : Fin N) (code : Int)
  | voteFailed (i : Fin N)
  | countTickets (i : Fin N)
  | startBeat (i : Fin N)
  | readTerm (i : Fin N)
  | vote (call : Nat)
  | voteTest (i : Fin N)
  | storeTerm (i : Fin N)
  | voteStopped (i : Fin N)
deriving DecidableEq

namespace Elections

variable {N : Nat}

/-- No pod has acted. -/
def init (N : Nat) : Elections N := ⟨fun _ => Pod.init N, Net.empty, [], []⟩

/-- Replace one pod. -/
def setPod (e : Elections N) (i : Fin N) (p : Pod N) : Elections N :=
  { e with pod := Function.update e.pod i p }

/-! ### The election thread -/

/-- The election time-out: `status_ = PodStatus::Candidate`, outside the mutex.  Only this
thread makes a leader, so the status it saw before waiting is still not `Leader`. -/
def timeOut (e : Elections N) (i : Fin N) : Option (Elections N) :=
  let p := e.pod i
  match p.thread with
  | .waiting =>
    if p.status = .leader then none
    else some (e.setPod i { p with status := .candidate, thread := .timedOut })
  | _ => none

/-- The beginning of `RequestVote`: `++term_` and one ticket. -/
def requestVote (e : Elections N) (i : Fin N) : Option (Elections N) :=
  let p := e.pod i
  match p.thread with
  | .timedOut =>
    some (e.setPod i { p with term := toInt64 (p.term + 1), thread := .asking (others i) 1 })
  | _ => none

/-- `req.set_term(term_)` in the request for the next follower. -/
def setTerm (e : Elections N) (i : Fin N) : Option (Elections N) :=
  let p := e.pod i
  match p.thread with
  | .asking (f :: rest) ticketNum =>
    some (e.setPod i { p with thread := .filling f rest ticketNum (toInt32 p.term) })
  | _ => none

/-- `req.set_index(raft_log_.index())`. -/
def setIndex (e : Elections N) (index : Fin N → Nat) (i : Fin N) : Option (Elections N) :=
  let p := e.pod i
  match p.thread with
  | .filling f rest ticketNum term =>
    some (e.setPod i { p with
      thread := .prepared f rest ticketNum ⟨i, f, term, toInt32 (index i)⟩ })
  | _ => none

/-- Take the mutex, give up if no longer a candidate, and send the request. -/
def callVote (e : Elections N) (i : Fin N) : Option (Elections N) :=
  let p := e.pod i
  match p.thread with
  | .prepared f rest ticketNum req =>
    if p.holder.isSome then none
    else if p.status ≠ .candidate then some (e.setPod i { p with thread := .waiting })
    else
      some { e.setPod i { p with thread := .calling f rest ticketNum e.calls.sent.length } with
        calls := e.calls.send req }
  | _ => none

/-- The call returns a response; code `0` is a ticket. -/
def voteAnswered (e : Elections N) (i : Fin N) (code : Int) : Option (Elections N) :=
  let p := e.pod i
  match p.thread with
  | .calling _ rest ticketNum call =>
    if (call, code) ∈ e.calls.rsps then
      some (e.setPod i { p with
        thread := .asking rest (if code = 0 then ticketNum + 1 else ticketNum) })
    else none
  | _ => none

/-- The call fails or runs into its deadline. -/
def voteFailed (e : Elections N) (i : Fin N) : Option (Elections N) :=
  let p := e.pod i
  match p.thread with
  | .calling _ rest ticketNum _ => some (e.setPod i { p with thread := .asking rest ticketNum })
  | _ => none

/-- The end of `RequestVote`: become leader with more than half of the tickets. -/
def countTickets (e : Elections N) (i : Fin N) : Option (Elections N) :=
  let p := e.pod i
  match p.thread with
  | .asking [] ticketNum =>
    if p.holder.isSome then none
    else if p.status ≠ .candidate then some (e.setPod i { p with thread := .waiting })
    else if ticketNum > ((others i).length + 1) / 2 then
      some { e.setPod i { p with
          status := .leader, thread := .promoting (others i), won := p.term } with
        wins := (i, p.term) :: e.wins }
    else some (e.setPod i { p with thread := .waiting })
  | _ => none

/-- A leader enters `SendHeartBeat`. -/
def startBeat (e : Elections N) (i : Fin N) : Option (Elections N) :=
  let p := e.pod i
  match p.thread with
  | .waiting =>
    if p.holder.isSome ∨ p.status ≠ .leader then none
    else some (e.setPod i { p with thread := .beating (others i) })
  | _ => none

/-- Read `term_` for the next heartbeat; after the last one the loop is left.  The status
is not read again. -/
def readTerm (e : Elections N) (i : Fin N) : Option (Elections N) :=
  let p := e.pod i
  match p.thread with
  | .beating (f :: rest) => some (e.setPod i { p with thread := .beat f rest (toInt32 p.term) })
  | .beating [] => some (e.setPod i { p with thread := .waiting })
  | _ => none

/-! ### `Vote` -/

/-- The beginning of `Vote`: take the mutex and read the index of the log. -/
def vote (e : Elections N) (index : Fin N → Nat) (call : Nat) : Option (Elections N) :=
  match e.calls.arriving call with
  | none => none
  | some req =>
    let p := e.pod req.dst
    if p.locked then none
    else
      some { e.setPod req.dst { p with
          holder := some (.testing call (index req.dst) .older) } with
        calls := e.calls.deliver call }

/-- The handler that holds the mutex of pod `i` comes to `h`. -/
def setHolder (e : Elections N) (i : Fin N) (h : Holder N) : Elections N :=
  e.setPod i { e.pod i with holder := some h }

/-- `Vote` returns `false`. -/
def refuse (e : Elections N) (i : Fin N) (call : Nat) : Elections N :=
  { e.setPod i { e.pod i with holder := none } with calls := e.calls.reply call (-1) }

/-- A test of `Vote`, with its read of `term_`.  The last one leads to the new term or to the
vote. -/
def voteTest (e : Elections N) (i : Fin N) : Option (Elections N) :=
  let p := e.pod i
  match p.holder with
  | some (.testing call currentLogIndex test) =>
    match e.calls.sent[call]? with
    | none => none
    | some req =>
      match test with
      | .older =>
        if req.term < p.term then some (e.refuse i call)
        else some (e.setHolder i (.testing call currentLogIndex .shorter))
      | .shorter =>
        if req.term = p.term ∧ toSizeT req.index < currentLogIndex then some (e.refuse i call)
        else some (e.setHolder i (.testing call currentLogIndex .voted))
      | .voted =>
        if req.term = p.term ∧ p.voted = true then some (e.refuse i call)
        else some (e.setHolder i (.testing call currentLogIndex .newer))
      | .newer =>
        if req.term > p.term then some (e.setHolder i (.raising .vote call req.term))
        else
          some { e.setPod i { p with voted := true, holder := none } with
            calls := e.calls.reply call 0
            grants := (i, req.id, req.term) :: e.grants }
  | _ => none

/-- `term_ = req.term()`, in `Vote` and in `SolveAppend`, which also resets `voted_`. -/
def storeTerm (e : Elections N) (i : Fin N) : Option (Elections N) :=
  let p := e.pod i
  match p.holder with
  | some (.raising cause call term) =>
    some (e.setPod i { p with
      term := term
      voted := match cause with
        | .vote => p.voted
        | .solveAppend => false
      holder := some (.stopping ⟨if p.status = .leader then others i else [], cause, call⟩) })
  | _ => none

/-- The rest of `Vote` once the threads are joined. -/
def voteStopped (e : Elections N) (i : Fin N) : Option (Elections N) :=
  let p := e.pod i
  match p.stopping with
  | some ⟨[], .vote, call⟩ =>
    match e.calls.sent[call]? with
    | none => none
    | some req =>
      some { e.setPod i { p with status := .follower, voted := true, holder := none } with
        calls := e.calls.reply call 0
        grants := (i, req.id, req.term) :: e.grants }
  | _ => none

/-- One step; `index` is the index of each pod's log. -/
def step (e : Elections N) (index : Fin N → Nat) : ElectionAct N → Option (Elections N)
  | .timeOut i => e.timeOut i
  | .requestVote i => e.requestVote i
  | .setTerm i => e.setTerm i
  | .setIndex i => e.setIndex index i
  | .callVote i => e.callVote i
  | .voteAnswered i code => e.voteAnswered i code
  | .voteFailed i => e.voteFailed i
  | .countTickets i => e.countTickets i
  | .startBeat i => e.startBeat i
  | .readTerm i => e.readTerm i
  | .vote call => e.vote index call
  | .voteTest i => e.voteTest i
  | .storeTerm i => e.storeTerm i
  | .voteStopped i => e.voteStopped i

end Elections

end Mokv.Raft
