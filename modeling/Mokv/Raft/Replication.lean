import Mokv.Raft.Election

/-!
# Replication

The log half of a `Pod`: its `RaftLog`, the threads of `Follower::Run` that send entries
one by one, the puts of clients, and the second half of `SolveAppend`.

An `Append` with an entry carries neither term nor commit index, only the commit index
inside the entry; a heartbeat carries both and no entry.  The loops that count the
followers read one `nextindex_` at a time.
-/

namespace Mokv.Raft

open Lib

/-- `AppendReq`, with the pod it is sent to. -/
structure AppendReq (N : Nat) where
  id : Fin N
  dst : Fin N
  term : Int
  commitedIndex : Int
  entrys : List Entry
deriving DecidableEq

/-- Where the thread of `Follower::Run` is. -/
inductive SyncThread (N : Nat) where
  /-- not started or joined -/
  | off
  /-- at the top of the outer loop -/
  | idle
  /-- in the inner loop -/
  | trying
  /-- in the call -/
  | awaiting (call : Nat)
  /-- counting the other followers -/
  | counting (rest : List (Fin N)) (sum : Nat)
deriving DecidableEq

/-- Where a client's put is. -/
inductive PutThread (N : Nat) where
  | free
  /-- the pod was seen to be leader -/
  | checked (key value : Bytes)
  /-- `term_` is read -/
  | termed (key value : Bytes) (term : Int)
  /-- in the loop of `InnerPut` -/
  | polling (nowIdx : Nat)
  /-- counting the followers -/
  | counting (nowIdx : Nat) (rest : List (Fin N)) (sum : Nat)
  /-- returned -/
  | done (ok : Bool)
deriving DecidableEq

/-- Where `SolveAppend` is; all but `free` hold `solve_append_lock_`. -/
inductive AppendHandler where
  | free
  /-- the threads of the former leader are being stopped -/
  | taking (call : Nat)
  /-- at the beginning of `UpdateRaftLog` -/
  | entered (call : Nat)
  /-- the index did not match -/
  | mismatched (call : Nat)
  /-- the index matched -/
  | matched (call : Nat)
deriving DecidableEq

/-- The logs and all that moves entries between them.  `applied` lists what each apply
thread has put into its database, `commits` the terms of leaders and what they committed
with a majority. -/
structure Replicas (N : Nat) where
  log : Fin N → RaftLog
  nextindex : Fin N → Fin N → Int
  sync : Fin N → Fin N → SyncThread N
  puts : Fin N → Nat → PutThread N
  handler : Fin N → AppendHandler
  calls : Net (AppendReq N)
  applied : Fin N → List Entry
  commits : List (Int × List Entry)

/-- `other_followers_` of a follower. -/
def otherFollowers {N : Nat} (i f : Fin N) : List (Fin N) := (others i).filter (· ≠ f)

/-- Steps of the logs. -/
inductive ReplicaAct (N : Nat) where
  | syncCheck (i f : Fin N)
  | syncStop (i f : Fin N)
  | syncSend (i f : Fin N)
  | syncAnswered (i f : Fin N) (code : Int)
  | syncFailed (i f : Fin N)
  | syncCount (i f : Fin N)
  | syncCommit (i f : Fin N)
  | put (i : Fin N) (k : Nat) (key value : Bytes)
  | putTerm (i : Fin N) (k : Nat)
  | innerPut (i : Fin N) (k : Nat)
  | poll (i : Fin N) (k : Nat)
  | pollCount (i : Fin N) (k : Nat)
  | pollCommit (i : Fin N) (k : Nat)
  | updateRaftLog (i : Fin N)
  | resetRaftLog (i : Fin N)
  | putEntry (i : Fin N)
  | apply (i : Fin N)
deriving DecidableEq

namespace Replicas

variable {N : Nat}

/-- Fresh logs. -/
def init (N : Nat) : Replicas N :=
  ⟨fun _ => RaftLog.load 0, fun _ _ => 0, fun _ _ => .off, fun _ _ => .free, fun _ => .free,
    Net.empty, fun _ => [], []⟩

/-- Replace one log. -/
def setLog (r : Replicas N) (i : Fin N) (l : RaftLog) : Replicas N :=
  { r with log := Function.update r.log i l }

/-- Move one thread of `Follower::Run`. -/
def setSync (r : Replicas N) (i f : Fin N) (t : SyncThread N) : Replicas N :=
  { r with sync := Function.update r.sync i (Function.update (r.sync i) f t) }

/-- Write one `nextindex_`. -/
def setNextindex (r : Replicas N) (i f : Fin N) (n : Int) : Replicas N :=
  { r with nextindex := Function.update r.nextindex i (Function.update (r.nextindex i) f n) }

/-- Move one put. -/
def setPut (r : Replicas N) (i : Fin N) (k : Nat) (t : PutThread N) : Replicas N :=
  { r with puts := Function.update r.puts i (Function.update (r.puts i) k t) }

/-- Move one handler. -/
def setHandler (r : Replicas N) (i : Fin N) (h : AppendHandler) : Replicas N :=
  { r with handler := Function.update r.handler i h }

/-- Send an `Append`. -/
def send (r : Replicas N) (req : AppendReq N) : Replicas N := { r with calls := r.calls.send req }

/-- Answer an `Append`. -/
def reply (r : Replicas N) (call : Nat) (code : Int) : Replicas N :=
  { r with calls := r.calls.reply call code }

/-- `UpdateCommit` by the leader of term `won`, after it counted a majority. -/
def leaderCommit (r : Replicas N) (won : Int) (i : Fin N) (n : Nat) : Replicas N :=
  let l := (r.log i).updateCommit n
  { r.setLog i l with
    commits := if (r.log i).commited < l.commited then
        (won, l.entries.take l.commited) :: r.commits
      else r.commits }

/-! ### `Follower::Run` -/

/-- The outer loop finds an entry to send. -/
def syncCheck (r : Replicas N) (i f : Fin N) : Option (Replicas N) :=
  match r.sync i f with
  | .idle =>
    if toSizeT (r.nextindex i f) < (r.log i).index then some (r.setSync i f .trying) else none
  | _ => none

/-- The inner loop sees `stop_` and is left. -/
def syncStop (r : Replicas N) (pod : Fin N → Pod N) (i f : Fin N) : Option (Replicas N) :=
  match r.sync i f with
  | .trying =>
    if ((pod i).stopping.map fun st => st.rest.head?) = some (some f) then
      some (r.setSync i f (.counting (otherFollowers i f) 2))
    else none
  | _ => none

/-- The request for the entry after `nextindex_`. -/
def appendReq (r : Replicas N) (i f : Fin N) (mainEntry : Entry) : AppendReq N :=
  ⟨i, f, 0, 0, [⟨mainEntry.term, toInt32 (r.nextindex i f + 1), mainEntry.key, mainEntry.value, 0,
    toInt32 (r.log i).commited⟩]⟩

/-- Send the entry after `nextindex_`. -/
def syncSend (r : Replicas N) (i f : Fin N) : Option (Replicas N) :=
  match r.sync i f with
  | .trying =>
    match (r.log i).at (toSizeT (r.nextindex i f + 1)) with
    | none => none
    | some mainEntry =>
      some ((r.setSync i f (.awaiting r.calls.sent.length)).send (r.appendReq i f mainEntry))
  | _ => none

/-- The call returns a response. -/
def syncAnswered (r : Replicas N) (i f : Fin N) (code : Int) : Option (Replicas N) :=
  match r.sync i f with
  | .awaiting call =>
    if (call, code) ∈ r.calls.rsps then
      if code ≠ 0 then
        some ((r.setNextindex i f (r.nextindex i f - 1)).setSync i f .trying)
      else
        some ((r.setNextindex i f (r.nextindex i f + 1)).setSync i f
          (.counting (otherFollowers i f) 2))
    else none
  | _ => none

/-- The call fails or runs into its deadline. -/
def syncFailed (r : Replicas N) (i f : Fin N) : Option (Replicas N) :=
  match r.sync i f with
  | .awaiting _ => some (r.setSync i f .trying)
  | _ => none

/-- Compare with the next of the other followers. -/
def syncCount (r : Replicas N) (i f : Fin N) : Option (Replicas N) :=
  match r.sync i f with
  | .counting (g :: rest) sum =>
    some (r.setSync i f
      (.counting rest (if r.nextindex i g ≥ r.nextindex i f then sum + 1 else sum)))
  | _ => none

/-- The end of the outer loop's body. -/
def syncCommit (r : Replicas N) (pod : Fin N → Pod N) (i f : Fin N) : Option (Replicas N) :=
  match r.sync i f with
  | .counting [] sum =>
    some (if sum > ((otherFollowers i f).length + 2) / 2 then
        (r.leaderCommit (pod i).won i (toSizeT (r.nextindex i f))).setSync i f .idle
      else r.setSync i f .idle)
  | _ => none

/-! ### `Put` -/

/-- The status check of `Put`. -/
def put (r : Replicas N) (pod : Fin N → Pod N) (i : Fin N) (k : Nat) (key value : Bytes) :
    Option (Replicas N) :=
  match r.puts i k with
  | .free =>
    if (pod i).locked = false ∧ (pod i).status = .leader then
      some (r.setPut i k (.checked key value))
    else none
  | _ => none

/-- `InnerPut` reads `term_`. -/
def putTerm (r : Replicas N) (pod : Fin N → Pod N) (i : Fin N) (k : Nat) : Option (Replicas N) :=
  match r.puts i k with
  | .checked key value => some (r.setPut i k (.termed key value (pod i).term))
  | _ => none

/-- `InnerPut` appends to the log. -/
def innerPut (r : Replicas N) (i : Fin N) (k : Nat) : Option (Replicas N) :=
  match r.puts i k with
  | .termed key value term =>
    match (r.log i).put key value term with
    | none => some (r.setPut i k (.done false))
    | some (l, nowIdx) => some ((r.setLog i l).setPut i k (.polling nowIdx))
  | _ => none

/-- A turn of the loop of `InnerPut` begins. -/
def poll (r : Replicas N) (i : Fin N) (k : Nat) : Option (Replicas N) :=
  match r.puts i k with
  | .polling nowIdx => some (r.setPut i k (.counting nowIdx (others i) 1))
  | _ => none

/-- Compare with the next follower. -/
def pollCount (r : Replicas N) (i : Fin N) (k : Nat) : Option (Replicas N) :=
  match r.puts i k with
  | .counting nowIdx (f :: rest) sum =>
    some (r.setPut i k (.counting nowIdx rest
      (if toSizeT (r.nextindex i f) > nowIdx then sum + 1 else sum)))
  | _ => none

/-- The turn ends. -/
def pollCommit (r : Replicas N) (pod : Fin N → Pod N) (i : Fin N) (k : Nat) :
    Option (Replicas N) :=
  match r.puts i k with
  | .counting nowIdx [] sum =>
    some (if sum > ((others i).length + 1) / 2 then
        (r.leaderCommit (pod i).won i nowIdx).setPut i k (.done true)
      else r.setPut i k (.polling nowIdx))
  | _ => none

/-! ### `SolveAppend` -/

/-- `UpdateCommit` at the end of the section under `election_mutex_`; a heartbeat is then
answered. -/
def takeCommit (r : Replicas N) (req : AppendReq N) (call : Nat) : Replicas N :=
  let r' := r.setLog req.dst ((r.log req.dst).updateCommit (toSizeT req.commitedIndex))
  if req.entrys = [] then (r'.setHandler req.dst .free).reply call 0
  else r'.setHandler req.dst (.entered call)

/-- The index of the entry is not the next one. -/
def Mismatch (l : RaftLog) (entry : Entry) : Prop :=
  toSizeT entry.index ≠ (l.index + 1) % 2 ^ 64

instance (l : RaftLog) (entry : Entry) : Decidable (Mismatch l entry) :=
  inferInstanceAs (Decidable (_ ≠ _))

/-- `UpdateRaftLog`: the number of entries and the first comparison. -/
def updateRaftLog (r : Replicas N) (i : Fin N) : Option (Replicas N) :=
  match r.handler i with
  | .entered call =>
    match r.calls.sent[call]? with
    | none => none
    | some req =>
      match req.entrys with
      | [entry] =>
        some (r.setHandler i (if Mismatch (r.log i) entry then .mismatched call else .matched call))
      | _ => some ((r.setHandler i .free).reply call (-3))
  | _ => none

/-- The log after `Reset(commited())`, if it is called. -/
def resetLog (l : RaftLog) (leaderCommit : Nat) : RaftLog :=
  if leaderCommit < l.index ∧ leaderCommit > l.commited then l.reset l.commited else l

/-- `UpdateRaftLog`: `Reset` and the second comparison. -/
def resetRaftLog (r : Replicas N) (i : Fin N) : Option (Replicas N) :=
  match r.handler i with
  | .mismatched call =>
    match r.calls.sent[call]? with
    | none => none
    | some req =>
      match req.entrys with
      | [entry] =>
        let l := resetLog (r.log i) (toSizeT req.commitedIndex)
        some (if Mismatch l entry then ((r.setLog i l).setHandler i .free).reply call (-2)
          else (r.setLog i l).setHandler i (.matched call))
      | _ => none
  | _ => none

/-- `UpdateRaftLog`: the put, whose result is not looked at. -/
def putEntry (r : Replicas N) (i : Fin N) : Option (Replicas N) :=
  match r.handler i with
  | .matched call =>
    match r.calls.sent[call]? with
    | none => none
    | some req =>
      match req.entrys with
      | [entry] =>
        some (((r.setLog i (((r.log i).putEntry entry).getD (r.log i))).setHandler i .free).reply
          call 0)
      | _ => none
  | _ => none

/-- A turn of the apply thread. -/
def apply (r : Replicas N) (i : Fin N) : Option (Replicas N) :=
  match (r.log i).apply with
  | none => none
  | some (l, entry) =>
    some { r.setLog i l with applied := Function.update r.applied i (r.applied i ++ [entry]) }

/-- One step. -/
def step (r : Replicas N) (pod : Fin N → Pod N) : ReplicaAct N → Option (Replicas N)
  | .syncCheck i f => r.syncCheck i f
  | .syncStop i f => r.syncStop pod i f
  | .syncSend i f => r.syncSend i f
  | .syncAnswered i f code => r.syncAnswered i f code
  | .syncFailed i f => r.syncFailed i f
  | .syncCount i f => r.syncCount i f
  | .syncCommit i f => r.syncCommit pod i f
  | .put i k key value => r.put pod i k key value
  | .putTerm i k => r.putTerm pod i k
  | .innerPut i k => r.innerPut i k
  | .poll i k => r.poll i k
  | .pollCount i k => r.pollCount i k
  | .pollCommit i k => r.pollCommit pod i k
  | .updateRaftLog i => r.updateRaftLog i
  | .resetRaftLog i => r.resetRaftLog i
  | .putEntry i => r.putEntry i
  | .apply i => r.apply i

end Replicas

end Mokv.Raft
