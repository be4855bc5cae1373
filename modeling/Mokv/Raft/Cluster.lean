import Mokv.Raft.Replication

/-!
# The cluster

Elections and replication together, with the steps that touch both: a new leader starts
the threads of its followers, a heartbeat reads the commit index, a handler joins the
threads of a former leader, and `SolveAppend` reads and writes the term before it looks
at the log.
-/

namespace Mokv.Raft

open Lib

/-- The state of all pods and of the network. -/
structure Cluster (N : Nat) where
  el : Elections N
  rep : Replicas N

/-- Steps of the cluster. -/
inductive Action (N : Nat) where
  | elect (a : ElectionAct N)
  | replicate (a : ReplicaAct N)
  | promote (i : Fin N)
  | sendHeartBeat (i : Fin N)
  | join (i : Fin N)
  | solveAppend (call : Nat)
  | appendStopped (i : Fin N)
deriving DecidableEq

namespace Cluster

variable {N : Nat}

/-- Pods that were just constructed. -/
def init (N : Nat) : Cluster N := ⟨Elections.init N, Replicas.init N⟩

/-- `SetNextindex(raft_log_.commited())` and `Run()` for the next follower.  `Run` first
joins the follower's old thread. -/
def promote (s : Cluster N) (i : Fin N) : Option (Cluster N) :=
  let p := s.el.pod i
  match p.thread with
  | .promoting (f :: rest) =>
    if s.rep.sync i f = .off then
      some ⟨s.el.setPod i { p with thread := .promoting rest },
        (s.rep.setNextindex i f (toInt64 (s.rep.log i).commited)).setSync i f .idle⟩
    else none
  | .promoting [] => some { s with el := s.el.setPod i { p with thread := .waiting } }
  | _ => none

/-- `Follower::SendHeartBeat`. -/
def sendHeartBeat (s : Cluster N) (i : Fin N) : Option (Cluster N) :=
  let p := s.el.pod i
  match p.thread with
  | .beat f rest term =>
    some ⟨s.el.setPod i { p with thread := .beating rest },
      s.rep.send ⟨i, f, term, toInt64 (s.rep.log i).commited, []⟩⟩
  | _ => none

/-- `Stop` joins the thread of the next follower. -/
def join (s : Cluster N) (i : Fin N) : Option (Cluster N) :=
  let p := s.el.pod i
  match p.stopping with
  | some ⟨f :: rest, cause, call⟩ =>
    if s.rep.sync i f = .idle ∨ s.rep.sync i f = .off then
      some ⟨s.el.setPod i { p with holder := some (.stopping ⟨rest, cause, call⟩) },
        s.rep.setSync i f .off⟩
    else none
  | _ => none

/-- The first entry is beyond the log. -/
def beyondLog (index : Nat) : List Entry → Bool
  | [] => false
  | entry :: _ => decide (toInt32 entry.index > toInt32 index)

/-- `SolveAppend` takes the sender for the new leader: a newer term, or the same term with
an entry beyond the log. -/
def TakesOver (p : Pod N) (index : Nat) (req : AppendReq N) : Prop :=
  req.term > p.term ∨ (req.term = p.term ∧ beyondLog index req.entrys = true)

instance (p : Pod N) (index : Nat) (req : AppendReq N) : Decidable (TakesOver p index req) :=
  inferInstanceAs (Decidable (_ ∨ _))

/-- `SolveAppend`, the section under `election_mutex_`, up to the store to `term_`.  One of its two
reads of `term_` decides: entries come with term `0`, which is never newer, and without entries
the term is not read again. -/
def solveAppend (s : Cluster N) (call : Nat) : Option (Cluster N) :=
  match s.rep.calls.arriving call with
  | none => none
  | some req =>
    let p := s.el.pod req.dst
    let r := { s.rep with calls := s.rep.calls.deliver call }
    if p.locked ∨ s.rep.handler req.dst ≠ .free then none
    else if TakesOver p (s.rep.log req.dst).index req then
      some ⟨s.el.setHolder req.dst (.raising .solveAppend call req.term),
        r.setHandler req.dst (.taking call)⟩
    else some { s with rep := r.takeCommit req call }

/-- The rest of that section once the threads are joined. -/
def appendStopped (s : Cluster N) (i : Fin N) : Option (Cluster N) :=
  let p := s.el.pod i
  match p.stopping with
  | some ⟨[], .solveAppend, call⟩ =>
    match s.rep.calls.sent[call]? with
    | none => none
    | some req =>
      some ⟨s.el.setPod i { p with
          status := .follower, leaderId := some req.id, holder := none },
        s.rep.takeCommit req call⟩
  | _ => none

/-- One step. -/
def step (s : Cluster N) : Action N → Option (Cluster N)
  | .elect a => (s.el.step (fun i => (s.rep.log i).index) a).map fun e => { s with el := e }
  | .replicate a => (s.rep.step s.el.pod a).map fun r => { s with rep := r }
  | .promote i => s.promote i
  | .sendHeartBeat i => s.sendHeartBeat i
  | .join i => s.join i
  | .solveAppend call => s.solveAppend call
  | .appendStopped i => s.appendStopped i

end Cluster

/-- Pod `i` asks the next follower for its vote. -/
def Action.ask {N : Nat} (i : Fin N) : List (Action N) :=
  [.elect (.setTerm i), .elect (.setIndex i), .elect (.callVote i)]

/-- `Vote` makes its tests at pod `v`. -/
def Action.test {N : Nat} (call : Nat) (v : Fin N) : List (Action N) :=
  [.elect (.vote call), .elect (.voteTest v), .elect (.voteTest v), .elect (.voteTest v),
    .elect (.voteTest v)]

end Mokv.Raft
