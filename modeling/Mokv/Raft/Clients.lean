import Mokv.Raft.Databases
import Mokv.Raft.Heartbeat

/-!
# Clients of the cluster

`DBClient` (`mokv/db_client.hpp`) asks the pods one after another.  `Put` and `SyncGet` follow
one redirect: they ask the pod whose address they got, and give up if that fails.  A request
that fails or runs into its deadline may still take effect on its pod; one that arrives late is
a put of the pods like any other.  `Get` makes one `grpc::ClientContext` for all its requests,
and gRPC aborts on the second one.

* `calls_return`: a call of the client is over after a bounded number of its steps, and makes
  at most two calls to each pod.  Only a `Get` aborts.
* `answers_from_history`: a `Put` that returns `true` is in the history of the cluster for
  good, and a value that `Get` or `SyncGet` finds is the last write of a beginning of it.
-/

namespace Mokv.Raft

open Lib

variable {N : Nat}

/-! ### The code -/

/-- `PutRsp` and `GetRsp`. -/
structure Rsp (N : Nat) where
  code : Int
  value : Bytes
  leaderAddr : Option (Address N)
deriving DecidableEq

/-- `DBClient::Put`, `Get` and `SyncGet`. -/
inductive ClientOp where
  | put (key value : Bytes)
  | get (key : Bytes)
  | syncGet (key : Bytes)
deriving DecidableEq

/-- The call looks at the code of a redirect. -/
def ClientOp.redirects : ClientOp → Bool
  | .get _ => false
  | _ => true

/-- The call makes a `ClientContext` for each request. -/
def ClientOp.freshContext : ClientOp → Bool
  | .get _ => false
  | _ => true

/-- The key that the call puts. -/
def ClientOp.putKey : ClientOp → Option Bytes
  | .put key _ => some key
  | _ => none

/-- Where the request to a pod is. -/
inductive Pending (N : Nat) where
  | sent
  /-- the pod was seen not to be leader -/
  | notLeader
  /-- call `k` of `Pod::Put` -/
  | accepted (k : Nat)
  | answered (rsp : Rsp N)
deriving DecidableEq

/-- In which loop over `all_pod_` a call is. -/
inductive Place (N : Nat) where
  | outer
  /-- the address that the redirect gave -/
  | inner (leader : Option (Address N))
deriving DecidableEq

/-- How far a call is. -/
inductive Progress (N : Nat) where
  /-- at the top of a loop, with the clients it has not come to -/
  | next (place : Place N) (rest : List (Address N))
  | calling (place : Place N) (addr : Address N) (rest : List (Address N)) (pending : Pending N)
  /-- returned `true` with a response, or `false` -/
  | returned (rsp : Option (Rsp N))
  /-- the second request on one `ClientContext` -/
  | aborted
deriving DecidableEq

/-- A call of the client. -/
structure Client (N : Nat) where
  op : ClientOp
  progress : Progress N
deriving DecidableEq

/-- The address is that of the redirect. -/
def Address.Matches (addr : Address N) (leader : Option (Address N)) : Prop :=
  leader.map (fun l => (l.ip, l.port)) = some (addr.ip, addr.port)

instance (addr : Address N) (leader : Option (Address N)) : Decidable (addr.Matches leader) :=
  inferInstanceAs (Decidable (_ = _))

namespace Progress

/-- A turn of a loop begins. -/
def turn : Progress N → Option (Progress N)
  | .next _ [] => some (.returned none)
  | .next .outer (addr :: rest) => some (.calling .outer addr rest .sent)
  | .next (.inner leader) (addr :: rest) =>
    if addr.Matches leader then some (.calling (.inner leader) addr rest .sent)
    else some (.next (.inner leader) rest)
  | _ => none

/-- The loop over the pods goes on after a request. -/
def goOn (op : ClientOp) (place : Place N) (rest : List (Address N)) : Progress N :=
  if op.freshContext ∨ rest = [] then .next place rest else .aborted

/-- The response of a pod is looked at.  `allPod` are the clients of all pods. -/
def receive (allPod : List (Address N)) (op : ClientOp) : Progress N → Option (Progress N)
  | .calling place _ rest (.answered rsp) =>
    if rsp.code = 0 then some (.returned (some rsp))
    else
      match place with
      | .outer =>
        if op.redirects ∧ rsp.code = -2 then some (.next (.inner rsp.leaderAddr) allPod)
        else some (goOn op .outer rest)
      | .inner leader => some (goOn op (.inner leader) rest)
  | _ => none

/-- The call to the pod fails or runs into its deadline. -/
def fail (op : ClientOp) : Progress N → Option (Progress N)
  | .calling place _ rest _ => some (goOn op place rest)
  | _ => none

/-- The request is at its pod. -/
def setPending (p : Progress N) (pending : Pending N) : Progress N :=
  match p with
  | .calling place addr rest _ => .calling place addr rest pending
  | p => p

end Progress

/-- The pods with their databases, and the calls of all clients. -/
structure Service (N : Nat) where
  databases : Databases N
  clients : Nat → Option (Client N)

namespace Service

/-- Steps of the pods, and of the calls of clients. -/
inductive Act (N : Nat) where
  | pods (a : Databases.Act N)
  | call (c : Nat) (op : ClientOp)
  | turn (c : Nat)
  /-- the request reaches its pod; `k` is the call of `Pod::Put` -/
  | arrive (c k : Nat)
  /-- `FindLeaderAddress` -/
  | redirect (c : Nat)
  /-- `Pod::Put` returns -/
  | answer (c : Nat)
  | receive (c : Nat)
  | fail (c : Nat)
deriving DecidableEq

variable {cfg : Fin N → DBConfig} {config : List (Address N)}

/-- Fresh pods, and no calls. -/
def init (files : Fin N → LSM.Files) : Service N := ⟨Databases.init files, fun _ => none⟩

/-- Replace one call. -/
def setClient (s : Service N) (c : Nat) (client : Client N) : Service N :=
  { s with clients := Function.update s.clients c (some client) }

/-- Move one call. -/
def setProgress (s : Service N) (c : Nat) (client : Client N) (p : Progress N) : Service N :=
  s.setClient c { client with progress := p }

/-- `Pod::Get` on a pod that may answer. -/
def read (s : Service N) (i : Fin N) (key : Bytes) : Rsp N :=
  match (s.databases.db i).get key with
  | some value => ⟨0, value, none⟩
  | none => ⟨1, [], none⟩

/-- `Pod::Put` and `Pod::Get` begin. -/
def arrive (cfg : Fin N → DBConfig) (s : Service N) (c k : Nat) (client : Client N) (i : Fin N) :
    Option (Service N) :=
  let p := s.databases.cluster.el.pod i
  let move (pending : Pending N) : Service N :=
    s.setProgress c client (client.progress.setPending pending)
  match client.op with
  | .get key => some (move (.answered (s.read i key)))
  | .syncGet key =>
    if p.locked then none
    else if p.status = .leader then some (move (.answered (s.read i key)))
    else some (move .notLeader)
  | .put key value =>
    if p.locked then none
    else if p.status = .leader then
      (s.databases.step cfg (.cluster (.replicate (.put i k key value)))).map fun d =>
        { move (.accepted k) with databases := d }
    else some (move .notLeader)

/-- One step; `config` are the addresses of the pods. -/
def step (cfg : Fin N → DBConfig) (config : List (Address N)) (s : Service N) :
    Act N → Option (Service N)
  | .pods a => (s.databases.step cfg a).map fun d => { s with databases := d }
  | .call c op =>
    match s.clients c with
    | none => some (s.setClient c ⟨op, .next .outer config⟩)
    | some _ => none
  | .turn c =>
    match s.clients c with
    | some client => client.progress.turn.map (s.setProgress c client)
    | none => none
  | .arrive c k =>
    match s.clients c with
    | some client =>
      match client.progress with
      | .calling _ addr _ .sent => s.arrive cfg c k client addr.id
      | _ => none
    | none => none
  | .redirect c =>
    match s.clients c with
    | some client =>
      match client.progress with
      | .calling _ addr _ .notLeader =>
        let leader := (s.databases.cluster.el.pod addr.id).findLeaderAddress
          (followersOf config addr.id)
        some (s.setProgress c client (client.progress.setPending
          (.answered ⟨if leader = none then -1 else -2, [], leader⟩)))
      | _ => none
    | none => none
  | .answer c =>
    match s.clients c with
    | some client =>
      match client.progress with
      | .calling _ addr _ (.accepted k) =>
        match s.databases.cluster.rep.puts addr.id k with
        | .done ok => some (s.setProgress c client (client.progress.setPending
            (.answered ⟨if ok then 0 else -1, [], none⟩)))
        | _ => none
      | _ => none
    | none => none
  | .receive c =>
    match s.clients c with
    | some client =>
      (client.progress.receive config client.op).map (s.setProgress c client)
    | none => none
  | .fail c =>
    match s.clients c with
    | some client => (client.progress.fail client.op).map (s.setProgress c client)
    | none => none

/-! ### What a step can do -/

/-- The effect of one step. -/
inductive Moved (cfg : Fin N → DBConfig) (config : List (Address N)) (s : Service N) :
    Act N → Service N → Prop
  | pods {a : Databases.Act N} {d : Databases N} (hd : s.databases.step cfg a = some d) :
      Moved cfg config s (.pods a) { s with databases := d }
  | call {c : Nat} {op : ClientOp} (hs : s.clients c = none) :
      Moved cfg config s (.call c op) (s.setClient c ⟨op, .next .outer config⟩)
  | turn {c : Nat} {client : Client N} {p : Progress N} (hs : s.clients c = some client)
      (hp : client.progress.turn = some p) :
      Moved cfg config s (.turn c) (s.setProgress c client p)
  | read {c k : Nat} {client : Client N} {place : Place N} {addr : Address N}
      {rest : List (Address N)} {key : Bytes} (hs : s.clients c = some client)
      (hp : client.progress = .calling place addr rest .sent)
      (hop : client.op = .get key ∨ client.op = .syncGet key) :
      Moved cfg config s (.arrive c k)
        (s.setProgress c client (.calling place addr rest (.answered (s.read addr.id key))))
  | refuse {c k : Nat} {client : Client N} {place : Place N} {addr : Address N}
      {rest : List (Address N)} (hs : s.clients c = some client)
      (hp : client.progress = .calling place addr rest .sent) :
      Moved cfg config s (.arrive c k)
        (s.setProgress c client (.calling place addr rest .notLeader))
  | put {c k : Nat} {client : Client N} {place : Place N} {addr : Address N}
      {rest : List (Address N)} {key value : Bytes} {d : Databases N}
      (hs : s.clients c = some client) (hp : client.progress = .calling place addr rest .sent)
      (hop : client.op = .put key value)
      (hd : s.databases.step cfg (.cluster (.replicate (.put addr.id k key value))) = some d) :
      Moved cfg config s (.arrive c k)
        { s.setProgress c client (.calling place addr rest (.accepted k)) with databases := d }
  | redirect {c : Nat} {client : Client N} {place : Place N} {addr : Address N}
      {rest : List (Address N)} {rsp : Rsp N} (hs : s.clients c = some client)
      (hp : client.progress = .calling place addr rest .notLeader) (hcode : rsp.code ≠ 0) :
      Moved cfg config s (.redirect c)
        (s.setProgress c client (.calling place addr rest (.answered rsp)))
  | answer {c k : Nat} {client : Client N} {place : Place N} {addr : Address N}
      {rest : List (Address N)} {ok : Bool} (hs : s.clients c = some client)
      (hp : client.progress = .calling place addr rest (.accepted k))
      (hput : s.databases.cluster.rep.puts addr.id k = .done ok) :
      Moved cfg config s (.answer c) (s.setProgress c client
        (.calling place addr rest (.answered ⟨if ok then 0 else -1, [], none⟩)))
  | receive {c : Nat} {client : Client N} {p : Progress N} (hs : s.clients c = some client)
      (hp : client.progress.receive config client.op = some p) :
      Moved cfg config s (.receive c) (s.setProgress c client p)
  | fail {c : Nat} {client : Client N} {p : Progress N} (hs : s.clients c = some client)
      (hp : client.progress.fail client.op = some p) :
      Moved cfg config s (.fail c) (s.setProgress c client p)

theorem moved_of_step {s t : Service N} {a : Act N} (h : s.step cfg config a = some t) :
    Moved cfg config s a t := by
  cases a with
  | pods a =>
    obtain ⟨d, hd, rfl⟩ := Option.map_eq_some_iff.mp h
    exact .pods hd
  | call c op =>
    rw [step] at h
    split at h
    · rename_i hs
      obtain rfl := Option.some.inj h
      exact .call hs
    · cases h
  | turn c =>
    rw [step] at h
    split at h
    · rename_i client hs
      obtain ⟨p, hp, rfl⟩ := Option.map_eq_some_iff.mp h
      exact .turn hs hp
    · cases h
  | arrive c k =>
    rw [step] at h
    split at h
    · rename_i client hs
      split at h
      · rename_i place addr rest hp
        simp only [arrive, hp, Progress.setPending] at h
        split at h
        · rename_i key hop
          obtain rfl := Option.some.inj h
          exact .read hs hp (Or.inl hop)
        · rename_i key hop
          split at h
          · cases h
          · split at h
            · obtain rfl := Option.some.inj h
              exact .read hs hp (Or.inr hop)
            · obtain rfl := Option.some.inj h
              exact .refuse hs hp
        · rename_i key value hop
          split at h
          · cases h
          · split at h
            · obtain ⟨d, hd, rfl⟩ := Option.map_eq_some_iff.mp h
              exact .put hs hp hop hd
            · obtain rfl := Option.some.inj h
              exact .refuse hs hp
      · cases h
    · cases h
  | redirect c =>
    rw [step] at h
    split at h
    · rename_i client hs
      split at h
      · rename_i place addr rest hp
        simp only [hp, Progress.setPending] at h
        obtain rfl := Option.some.inj h
        refine .redirect hs hp ?_
        show (if _ then (-1 : Int) else -2) ≠ 0
        split <;> decide
      · cases h
    · cases h
  | answer c =>
    rw [step] at h
    split at h
    · rename_i client hs
      split at h
      · rename_i place addr rest k hp
        split at h
        · rename_i ok hput
          simp only [hp, Progress.setPending] at h
          obtain rfl := Option.some.inj h
          exact .answer hs hp hput
        · cases h
      · cases h
    · cases h
  | receive c =>
    rw [step] at h
    split at h
    · rename_i client hs
      obtain ⟨p, hp, rfl⟩ := Option.map_eq_some_iff.mp h
      exact .receive hs hp
    · cases h
  | fail c =>
    rw [step] at h
    split at h
    · rename_i client hs
      obtain ⟨p, hp, rfl⟩ := Option.map_eq_some_iff.mp h
      exact .fail hs hp
    · cases h

theorem setClient_clients (s : Service N) (c : Nat) (client : Client N) (j : Nat) :
    (s.setClient c client).clients j = if j = c then some client else s.clients j :=
  Function.update_apply _ _ _ _

/-! ### Calls return -/

end Service

/-- The steps of a request until its response is there. -/
def Pending.rank : Pending N → Nat
  | .sent => 3
  | .notLeader => 2
  | .accepted _ => 2
  | .answered _ => 1

/-- A bound on the steps of a call; `n` is the number of pods. -/
def Progress.rank (n : Nat) : Progress N → Nat
  | .next .outer rest => 4 * (rest.length + n) + 2
  | .next (.inner _) rest => 4 * rest.length + 1
  | .calling .outer _ rest pending => 4 * (rest.length + n) + 2 + pending.rank
  | .calling (.inner _) _ rest pending => 4 * rest.length + 1 + pending.rank
  | .returned _ => 0
  | .aborted => 0

/-- A bound on the requests of a call that reach a pod. -/
def Progress.requests (n : Nat) : Progress N → Nat
  | .next .outer rest => rest.length + n
  | .next (.inner _) rest => rest.length
  | .calling .outer _ rest pending => rest.length + n + if pending = .sent then 1 else 0
  | .calling (.inner _) _ rest pending => rest.length + if pending = .sent then 1 else 0
  | .returned _ => 0
  | .aborted => 0

namespace Progress

/-- A step of a call uses up one of its steps, and `requests` of its requests. -/
def Spends (n requests : Nat) (p q : Progress N) : Prop :=
  q.rank n + 1 ≤ p.rank n ∧ q.requests n + requests ≤ p.requests n

variable {n : Nat} {p q : Progress N}

theorem spends_turn (h : p.turn = some q) : Spends n 0 p q := by
  rw [turn.eq_def] at h
  split at h
  · obtain rfl := Option.some.inj h
    rename_i place
    cases place <;> simp [Spends, rank, requests]
  · obtain rfl := Option.some.inj h
    simp only [Spends, rank, requests, Pending.rank, List.length_cons, if_true]
    omega
  · split at h
    · obtain rfl := Option.some.inj h
      simp only [Spends, rank, requests, Pending.rank, List.length_cons, if_true]
      omega
    · obtain rfl := Option.some.inj h
      simp only [Spends, rank, requests, List.length_cons]
      omega
  · cases h

theorem spends_goOn (op : ClientOp) {place : Place N} {addr : Address N} {rest : List (Address N)}
    {pending : Pending N} : Spends n 0 (.calling place addr rest pending) (goOn op place rest) := by
  have hpos : 1 ≤ pending.rank := by
    cases pending <;> simp [Pending.rank]
  rw [goOn]
  split
  · cases place with
    | outer =>
      simp only [Spends, rank, requests]
      omega
    | inner leader =>
      simp only [Spends, rank, requests]
      omega
  · cases place with
    | outer =>
      simp only [Spends, rank, requests]
      omega
    | inner leader =>
      simp only [Spends, rank, requests]
      omega

theorem spends_receive {allPod : List (Address N)} {op : ClientOp}
    (h : p.receive allPod op = some q) : Spends allPod.length 0 p q := by
  rw [receive.eq_def] at h
  split at h
  · rename_i place addr rest rsp
    split at h
    · obtain rfl := Option.some.inj h
      cases place with
      | outer =>
        simp only [Spends, rank, requests]
        omega
      | inner leader =>
        simp only [Spends, rank, requests]
        omega
    · split at h
      · split at h
        · obtain rfl := Option.some.inj h
          simp only [Spends, rank, requests, Pending.rank]
          omega
        · obtain rfl := Option.some.inj h
          exact spends_goOn op
      · obtain rfl := Option.some.inj h
        exact spends_goOn op
  · cases h

theorem spends_fail {op : ClientOp} (h : p.fail op = some q) : Spends n 0 p q := by
  rw [fail.eq_def] at h
  split at h
  · obtain rfl := Option.some.inj h
    exact spends_goOn op
  · cases h

theorem spends_pending {place : Place N} {addr : Address N} {rest : List (Address N)}
    {pending pending' : Pending N} (hlt : pending'.rank < pending.rank) :
    Spends n (if pending = .sent then 1 else 0) (.calling place addr rest pending)
      (.calling place addr rest pending') := by
  have hne : pending' ≠ .sent := by
    rintro rfl
    cases pending <;> simp [Pending.rank] at hlt
  cases place with
  | outer =>
    simp only [Spends, rank, requests, if_neg hne]
    omega
  | inner leader =>
    simp only [Spends, rank, requests, if_neg hne]
    omega

end Progress

namespace Service

variable {cfg : Fin N → DBConfig} {config : List (Address N)} {s t : Service N}

/-- The step is one of call `c`. -/
def Act.ofCall (c : Nat) : Act N → Bool
  | .pods _ => false
  | .call j _ => j = c
  | .turn j => j = c
  | .arrive j _ => j = c
  | .redirect j => j = c
  | .answer j => j = c
  | .receive j => j = c
  | .fail j => j = c

/-- A request of call `c` reaches a pod. -/
def Act.reaches (c : Nat) : Act N → Bool
  | .arrive j _ => j = c
  | _ => false

/-- What is left of call `c`; `whole` is what it has before it begins. -/
def left (f : Progress N → Nat) (whole : Nat) (c : Nat) (s : Service N) : Nat :=
  match s.clients c with
  | none => whole
  | some client => f client.progress

theorem left_setProgress {f : Progress N → Nat} {whole c j : Nat} {client : Client N}
    {p : Progress N} (hs : s.clients c = some client) {m : Nat} (h : f p + m ≤ f client.progress) :
    left f whole j (s.setProgress c client p) + (if c = j then m else 0) ≤ left f whole j s := by
  rw [left, setProgress, setClient_clients, left]
  by_cases hj : j = c
  · subst hj
    rw [if_pos rfl, if_pos rfl, hs]
    exact h
  · rw [if_neg hj, if_neg (Ne.symm hj)]
    exact le_refl _

/-- **Each step of a call uses it up.** -/
theorem left_step {a : Act N} (h : s.step cfg config a = some t) (c : Nat) :
    left (Progress.rank config.length) (8 * config.length + 3) c t +
        (if a.ofCall c then 1 else 0) ≤
      left (Progress.rank config.length) (8 * config.length + 3) c s ∧
    left (Progress.requests config.length) (2 * config.length) c t +
        (if a.reaches c then 1 else 0) ≤
      left (Progress.requests config.length) (2 * config.length) c s := by
  have hown : ∀ {j : Nat} {client : Client N} {p : Progress N} {r : Nat},
      s.clients j = some client → Progress.Spends config.length r client.progress p →
      left (Progress.rank config.length) (8 * config.length + 3) c (s.setProgress j client p) +
          (if j = c then 1 else 0) ≤
        left (Progress.rank config.length) (8 * config.length + 3) c s ∧
      left (Progress.requests config.length) (2 * config.length) c (s.setProgress j client p) +
          (if j = c then r else 0) ≤
        left (Progress.requests config.length) (2 * config.length) c s :=
    fun hs hp => ⟨left_setProgress hs hp.1, left_setProgress hs hp.2⟩
  have hpending : ∀ {j : Nat} {client : Client N} {place : Place N} {addr : Address N}
      {rest : List (Address N)} {pending : Pending N} (pending' : Pending N),
      s.clients j = some client → client.progress = .calling place addr rest pending →
        pending'.rank < pending.rank → _ :=
    fun {j client place addr rest pending} pending' hs hp hlt =>
      hown (p := .calling place addr rest pending') hs
        (hp ▸ Progress.spends_pending (n := config.length) hlt)
  cases moved_of_step h with
  | pods hd => exact ⟨le_refl _, le_refl _⟩
  | @call j op hs =>
    simp only [left, setClient_clients, Act.ofCall, Act.reaches]
    by_cases hj : c = j
    · subst hj
      simp only [hs, if_true, Progress.rank, Progress.requests, decide_true, Bool.false_eq_true,
        if_false]
      exact ⟨by omega, by omega⟩
    · simp [hj, Ne.symm hj]
  | turn hs hp => simpa [Act.ofCall, Act.reaches] using hown hs (Progress.spends_turn hp)
  | read hs hp hop =>
    simpa [Act.ofCall, Act.reaches] using hpending (.answered _) hs hp (by simp [Pending.rank])
  | refuse hs hp =>
    simpa [Act.ofCall, Act.reaches] using hpending .notLeader hs hp (by simp [Pending.rank])
  | put hs hp hop hd =>
    simpa [Act.ofCall, Act.reaches, left] using
      hpending (.accepted _) hs hp (by simp [Pending.rank])
  | redirect hs hp hcode =>
    simpa [Act.ofCall, Act.reaches] using hpending (.answered _) hs hp (by simp [Pending.rank])
  | answer hs hp hput =>
    simpa [Act.ofCall, Act.reaches] using hpending (.answered _) hs hp (by simp [Pending.rank])
  | receive hs hp => simpa [Act.ofCall, Act.reaches] using hown hs (Progress.spends_receive hp)
  | fail hs hp => simpa [Act.ofCall, Act.reaches] using hown hs (Progress.spends_fail hp)

/-- A call that is not over can go on: its deadline may pass. -/
theorem exists_step_of_call {c : Nat} {client : Client N} (hs : s.clients c = some client)
    (hp : ∀ r, client.progress ≠ .returned r) (ha : client.progress ≠ .aborted) :
    ∃ a t, Act.ofCall c a = true ∧ s.step cfg config a = some t := by
  cases hprog : client.progress with
  | next place rest =>
    obtain ⟨q, hq⟩ : ∃ q, client.progress.turn = some q := by
      rw [hprog]
      cases rest with
      | nil => cases place <;> exact ⟨_, rfl⟩
      | cons addr rest =>
        cases place with
        | outer => exact ⟨_, rfl⟩
        | inner leader =>
          rw [Progress.turn]
          split <;> exact ⟨_, rfl⟩
    refine ⟨.turn c, s.setProgress c client q, by simp [Act.ofCall], ?_⟩
    simp only [step, hs, hq, Option.map_some]
  | calling place addr rest pending =>
    refine ⟨.fail c, s.setProgress c client (.goOn client.op place rest), by simp [Act.ofCall], ?_⟩
    simp only [step, hs, hprog, Progress.fail, Option.map_some]
  | returned r => exact absurd hprog (hp r)
  | aborted => exact absurd hprog ha

/-- Only a `Get` aborts. -/
def AbortsGet (s : Service N) : Prop :=
  ∀ c client, s.clients c = some client → client.progress = .aborted → ∃ key, client.op = .get key

theorem abortsGet_init (files : Fin N → LSM.Files) : (init files).AbortsGet := by
  intro c client hs
  cases hs

theorem AbortsGet.setClient (h : s.AbortsGet) {c : Nat} {client : Client N}
    (hc : client.progress = .aborted → ∃ key, client.op = .get key) :
    (s.setClient c client).AbortsGet := by
  intro j cl hj
  rw [setClient_clients] at hj
  split at hj
  · obtain rfl := Option.some.inj hj
    exact hc
  · exact h j cl hj

theorem get_of_goOn {op : ClientOp} {place : Place N} {rest : List (Address N)}
    (h : Progress.goOn op place rest = .aborted) : ∃ key, op = .get key := by
  rw [Progress.goOn] at h
  split at h
  · cases h
  · rename_i hfresh
    cases op with
    | get key => exact ⟨key, rfl⟩
    | put key value => exact absurd (Or.inl rfl) hfresh
    | syncGet key => exact absurd (Or.inl rfl) hfresh

theorem AbortsGet.step (h : s.AbortsGet) {a : Act N}
    (hstep : Service.step cfg config s a = some t) : t.AbortsGet := by
  cases moved_of_step hstep with
  | pods hd => exact h
  | call hs => exact h.setClient nofun
  | @turn c client p hs hp =>
    refine h.setClient fun haborted => ?_
    obtain rfl : p = .aborted := haborted
    rw [Progress.turn.eq_def] at hp
    split at hp
    · cases hp
    · cases hp
    · split at hp <;> cases hp
    · cases hp
  | read hs hp hop => exact h.setClient nofun
  | refuse hs hp => exact h.setClient nofun
  | put hs hp hop hd => exact h.setClient nofun
  | redirect hs hp hcode => exact h.setClient nofun
  | answer hs hp hput => exact h.setClient nofun
  | @receive c client p hs hp =>
    refine h.setClient fun haborted => ?_
    obtain rfl : p = .aborted := haborted
    rw [Progress.receive.eq_def] at hp
    split at hp
    · split at hp
      · cases hp
      · split at hp
        · split at hp
          · cases hp
          · exact get_of_goOn (Option.some.inj hp)
        · exact get_of_goOn (Option.some.inj hp)
    · cases hp
  | @fail c client p hs hp =>
    refine h.setClient fun haborted => ?_
    obtain rfl : p = .aborted := haborted
    rw [Progress.fail.eq_def] at hp
    split at hp
    · exact get_of_goOn (Option.some.inj hp)
    · cases hp

/-- **Calls return.**  In every run, whatever the pods and the network do, a call of the client
takes at most `8 n + 3` steps with `n` pods, and can take one until it has returned or aborted;
at most `2 n` of its requests reach a pod in time; and only a `Get` aborts. -/
theorem calls_return (cfg : Fin N → DBConfig) (config : List (Address N))
    (files : Fin N → LSM.Files) (as : List (Act N)) (s : Service N)
    (hr : run (step cfg config) (init files) as = some s) (c : Nat) :
    as.countP (Act.ofCall c) ≤ 8 * config.length + 3 ∧
      as.countP (Act.reaches c) ≤ 2 * config.length ∧
      ∀ client, s.clients c = some client →
        ((∀ r, client.progress ≠ .returned r) → client.progress ≠ .aborted →
          ∃ a t, Act.ofCall c a = true ∧ s.step cfg config a = some t) ∧
        (client.progress = .aborted → ∃ key, client.op = .get key) := by
  have habort : s.AbortsGet := run_invariant (I := AbortsGet) (abortsGet_init files)
    (fun _ _ _ h _ hstep => h.step hstep) hr (stepsOk_true _ as)
  have hsteps := @countP_add_le_of_run _ _ _ (Act.ofCall c) _ (fun _ _ _ h => (left_step h c).1)
    _ _ _ hr
  have hrequests := @countP_add_le_of_run _ _ _ (Act.reaches c) _
    (fun _ _ _ h => (left_step h c).2) _ _ _ hr
  have hsteps' := (Nat.le_add_right _ _).trans hsteps
  exact ⟨hsteps', (Nat.le_add_right _ _).trans hrequests,
    fun client hs => ⟨exists_step_of_call hs, habort c client hs⟩⟩

/-- Three pods. -/
def threePods (i j k : Fin 3) : List (Address 3) := [⟨i, "a", 1⟩, ⟨j, "b", 1⟩, ⟨k, "c", 1⟩]

/-- Pod `i` is elected, call `0` puts `[10]` under `[1]` and gets its answer once a second entry
has been replicated. -/
def firstCall (i f g : Fin 3) : List (Act 3) :=
  ((Cluster.firstElection i f g).map Databases.Act.cluster).map .pods ++
    [.call 0 (.put [1] [10]), .turn 0, .arrive 0 0, .pods (.cluster (.replicate (.putTerm i 0))),
      .pods (.cluster (.replicate (.innerPut i 0)))] ++
    (Databases.firstAnswer i f).map .pods ++ [.answer 0, .receive 0]

/-- Call `1` finds the value on pod `i`, whose apply thread has put it. -/
def secondCall (i : Fin 3) : List (Act 3) :=
  [.pods (.cluster (.replicate (.apply i))), .pods (.store i), .call 1 (.get [1]), .turn 1,
    .arrive 1 0, .receive 1]

theorem calls_return_first :
    ∃ s, run (step (fun _ => Conc.smallConfig) (threePods 0 1 2)) (init fun _ _ => none)
        (firstCall 0 1 2) = some s ∧
      (firstCall 0 1 2).countP (Act.ofCall 0) ≤ 8 * (threePods 0 1 2).length + 3 ∧
      (firstCall 0 1 2).countP (Act.reaches 0) ≤ 2 * (threePods 0 1 2).length ∧
      ∀ client, s.clients 0 = some client →
        ((∀ r, client.progress ≠ .returned r) → client.progress ≠ .aborted →
          ∃ a t, Act.ofCall 0 a = true ∧
            s.step (fun _ => Conc.smallConfig) (threePods 0 1 2) a = some t) ∧
        (client.progress = .aborted → ∃ key, client.op = .get key) := by
  obtain ⟨s, hs⟩ : ∃ s, run (step (fun _ => Conc.smallConfig) (threePods 0 1 2))
      (init fun _ _ => none) (firstCall 0 1 2) = some s := Option.isSome_iff_exists.mp (by decide)
  exact ⟨s, hs, calls_return _ (threePods 0 1 2) _ (firstCall 0 1 2) s hs 0⟩

/-! ### What answers say -/

end Service

namespace Databases

/-- The pair has a place in the history. -/
def Has (d : Databases N) (key value : Bytes) : Prop := ∃ n : Nat, d.history[n]? = some (key, value)

/-- A beginning of the history that some pod has stored reads as the value. -/
def Finds (d : Databases N) (key value : Bytes) : Prop :=
  ∃ i n, n ≤ d.stored i ∧ n ≤ d.history.length ∧
    (Conc.lastWritten (d.history.take n) key).bind DB.hide = some value

/-- What a successful answer says. -/
def Fulfils (d : Databases N) (op : ClientOp) (rsp : Rsp N) : Prop :=
  match op with
  | .put key value => d.Has key value
  | .get key => d.Finds key rsp.value
  | .syncGet key => d.Finds key rsp.value

theorem Fulfils.mono {d d' : Databases N} {op : ClientOp} {rsp : Rsp N} (h : d.Fulfils op rsp)
    (hp : d.history <+: d'.history) (hst : ∀ i, d.stored i ≤ d'.stored i) :
    d'.Fulfils op rsp := by
  have hfinds : ∀ {key value}, d.Finds key value → d'.Finds key value := by
    rintro key value ⟨i, n, hi, hn, hget⟩
    obtain ⟨rest, hrest⟩ := hp
    refine ⟨i, n, hi.trans (hst i), ?_, ?_⟩
    · rw [← hrest, List.length_append]
      omega
    · rw [← hrest, List.take_append_of_le_length hn]
      exact hget
  cases op with
  | put key value =>
    obtain ⟨n, hn⟩ := h
    exact ⟨n, getElem?_of_isPrefix hp hn⟩
  | get key => exact hfinds h
  | syncGet key => exact hfinds h

theorem Inv.finds {ds : List (Act N)} {d : Databases N} (h : Inv ds d) {i : Fin N}
    {key value : Bytes} (hget : (d.db i).get key = some value) : d.Finds key value := by
  obtain ⟨hle, hputs⟩ := h.puts_eq_history i
  refine ⟨i, d.stored i, le_refl _, hle, ?_⟩
  rw [← hputs, ← h.raw i key, ← DB.get_eq, hget]

theorem Inv.carries_step {ds : List (Act N)} {d d' : Databases N} (h : Inv ds d)
    {cfg : Fin N → DBConfig} {a : Act N} (hok : d.Ok cfg a)
    (hstep : Databases.step cfg d a = some d') {i : Fin N} {k : Nat} {key value : Bytes}
    (hc : Cluster.Carries d.cluster.rep i key value (d.cluster.rep.puts i k)) :
    Cluster.Carries d'.cluster.rep i key value (d'.cluster.rep.puts i k) := by
  cases a with
  | cluster a =>
    rw [Databases.step] at hstep
    split at hstep
    · obtain ⟨c, hcl, rfl⟩ := Option.map_eq_some_iff.mp hstep
      exact hc.step h.logs.agreed.transport.shape (h.logs.grows hok.1 hcl).1 hcl
    · cases hstep
  | store j =>
    rw [Databases.step] at hstep
    split at hstep
    · cases hstep
    · obtain rfl := Option.some.inj hstep
      exact hc
  | flush j =>
    obtain ⟨r, -, rfl⟩ := Option.map_eq_some_iff.mp hstep
    exact hc

theorem begun {cfg : Fin N → DBConfig} {d d' : Databases N} {i : Fin N} {k : Nat}
    {key value : Bytes}
    (h : d.step cfg (.cluster (.replicate (.put i k key value))) = some d') :
    d'.cluster.rep.puts i k = .checked key value := by
  have hready : d.ready (.replicate (.put i k key value)) = true := rfl
  rw [step, if_pos hready] at h
  obtain ⟨c, hc, rfl⟩ := Option.map_eq_some_iff.mp h
  obtain ⟨r, hr, rfl⟩ := Option.map_eq_some_iff.mp hc
  rw [Replicas.step, Replicas.put] at hr
  split at hr
  · split at hr
    · obtain rfl := Option.some.inj hr
      rw [Replicas.setPut_puts, if_pos ⟨rfl, rfl⟩]
    · cases hr
  · cases hr

end Databases

namespace Service

variable {cfg : Fin N → DBConfig} {config : List (Address N)} {s t : Service N}

/-- A request at its pod is the call of `Put` of its client, and a successful answer holds. -/
def PendingOk (d : Databases N) (op : ClientOp) (i : Fin N) : Pending N → Prop
  | .sent => True
  | .notLeader => True
  | .accepted k => ∃ key value, op = .put key value ∧
      Cluster.Carries d.cluster.rep i key value (d.cluster.rep.puts i k)
  | .answered rsp => rsp.code = 0 → d.Fulfils op rsp

def ProgressOk (d : Databases N) (op : ClientOp) : Progress N → Prop
  | .next _ _ => True
  | .calling _ addr _ pending => PendingOk d op addr.id pending
  | .returned rsp => ∀ r ∈ rsp, d.Fulfils op r
  | .aborted => True

theorem progressOk_goOn (d : Databases N) (op : ClientOp) (place : Place N)
    (rest : List (Address N)) : ProgressOk d op (.goOn op place rest) := by
  rw [Progress.goOn]
  split <;> trivial

theorem ProgressOk.mono {ds : List (Databases.Act N)} {d d' : Databases N} {op : ClientOp}
    {p : Progress N} (h : ProgressOk d op p) (hinv : Databases.Inv ds d) {a : Databases.Act N}
    (hok : d.Ok cfg a) (hstep : d.step cfg a = some d') : ProgressOk d' op p := by
  obtain ⟨hhist, hst⟩ := hinv.step_history hok hstep
  cases p with
  | next place rest => trivial
  | calling place addr rest pending =>
    cases pending with
    | sent => trivial
    | notLeader => trivial
    | accepted k =>
      obtain ⟨key, value, hop, hc⟩ := h
      exact ⟨key, value, hop, hinv.carries_step hok hstep hc⟩
    | answered rsp => exact fun hcode => (h hcode).mono hhist hst
  | returned rsp => exact fun r hr => (h r hr).mono hhist hst
  | aborted => trivial

/-- The pods meet their conditions, and no client puts the empty key. -/
def Ok (cfg : Fin N → DBConfig) (s : Service N) : Act N → Prop
  | .pods a => s.databases.Ok cfg a
  | .call _ op => ∀ key ∈ op.putKey, key ≠ []
  | _ => True

instance (cfg : Fin N → DBConfig) (s : Service N) : DecidablePred (s.Ok cfg)
  | .pods a => inferInstanceAs (Decidable (s.databases.Ok cfg a))
  | .call _ op => inferInstanceAs (Decidable (∀ key ∈ op.putKey, key ≠ []))
  | .turn _ => isTrue trivial
  | .arrive _ _ => isTrue trivial
  | .redirect _ => isTrue trivial
  | .answer _ => isTrue trivial
  | .receive _ => isTrue trivial
  | .fail _ => isTrue trivial

/-- The pods keep their invariant, and the answers that are under way or given hold. -/
structure Inv (s : Service N) : Prop where
  pods : ∃ ds, Databases.Inv ds s.databases
  keys : ∀ c client, s.clients c = some client → ∀ key ∈ client.op.putKey, key ≠ []
  calls : ∀ c client, s.clients c = some client → ProgressOk s.databases client.op client.progress

theorem inv_init (files : Fin N → LSM.Files) : (init files).Inv :=
  ⟨⟨[], Databases.inv_init files⟩, nofun, nofun⟩

theorem Inv.pods_step (h : s.Inv) {a : Databases.Act N} (hok : s.databases.Ok cfg a)
    {d : Databases N} (hd : s.databases.step cfg a = some d) :
    Inv { s with databases := d } ∧ s.databases.history <+: d.history := by
  obtain ⟨ds, hinv⟩ := h.pods
  exact ⟨⟨⟨_, hinv.step hok hd⟩, h.keys, fun c client hc => (h.calls c client hc).mono hinv hok hd⟩,
    (hinv.step_history hok hd).1⟩

theorem Inv.setClient (h : s.Inv) {c : Nat} {client : Client N}
    (hkey : ∀ key ∈ client.op.putKey, key ≠ [])
    (hp : ProgressOk s.databases client.op client.progress) : (s.setClient c client).Inv := by
  refine ⟨h.pods, fun j cl hj => ?_, fun j cl hj => ?_⟩
  · rw [setClient_clients] at hj
    split at hj
    · obtain rfl := Option.some.inj hj
      exact hkey
    · exact h.keys j cl hj
  · rw [setClient_clients] at hj
    split at hj
    · obtain rfl := Option.some.inj hj
      exact hp
    · exact h.calls j cl hj

theorem Inv.setProgress (h : s.Inv) {c : Nat} {client : Client N} (hs : s.clients c = some client)
    {p : Progress N} (hp : ProgressOk s.databases client.op p) :
    (s.setProgress c client p).Inv :=
  h.setClient (h.keys c client hs) hp

theorem progressOk_turn {d : Databases N} {op : ClientOp} {p q : Progress N}
    (h : p.turn = some q) : ProgressOk d op q := by
  rw [Progress.turn.eq_def] at h
  split at h
  · obtain rfl := Option.some.inj h
    exact nofun
  · obtain rfl := Option.some.inj h
    trivial
  · split at h <;> obtain rfl := Option.some.inj h <;> trivial
  · cases h

theorem ProgressOk.receive {d : Databases N} {op : ClientOp} {p q : Progress N}
    (hp : ProgressOk d op p) {allPod : List (Address N)}
    (h : p.receive allPod op = some q) : ProgressOk d op q := by
  rw [Progress.receive.eq_def] at h
  split at h
  · rename_i place addr rest rsp
    split at h
    · rename_i hcode
      obtain rfl := Option.some.inj h
      rintro r hr
      obtain rfl := Option.some.inj hr
      exact hp hcode
    · split at h
      · split at h
        · obtain rfl := Option.some.inj h
          trivial
        · obtain rfl := Option.some.inj h
          exact progressOk_goOn d op _ _
      · obtain rfl := Option.some.inj h
        exact progressOk_goOn d op _ _
  · cases h

/-- **Each step keeps the invariant**, and the history. -/
theorem Inv.step (h : s.Inv) {a : Act N} (hok : s.Ok cfg a)
    (hstep : Service.step cfg config s a = some t) :
    t.Inv ∧ s.databases.history <+: t.databases.history := by
  cases moved_of_step hstep with
  | pods hd => exact h.pods_step hok hd
  | call hs => exact ⟨h.setClient hok trivial, List.prefix_refl _⟩
  | turn hs hp => exact ⟨h.setProgress hs (progressOk_turn hp), List.prefix_refl _⟩
  | @read c k client place addr rest key hs hp hop =>
    refine ⟨h.setProgress hs ?_, List.prefix_refl _⟩
    -- a value comes from the database of the pod
    obtain ⟨ds, hinv⟩ := h.pods
    show (s.read addr.id key).code = 0 → _
    rw [Service.read]
    cases hget : (s.databases.db addr.id).get key with
    | none => exact nofun
    | some value =>
      intro _
      have hfinds := hinv.finds hget
      rcases hop with hop | hop <;> rw [hop] <;> exact hfinds
  | refuse hs hp => exact ⟨h.setProgress hs trivial, List.prefix_refl _⟩
  | @put c k client place addr rest key value d hs hp hop hd =>
    have hkey : key ≠ [] := h.keys c client hs key (by rw [hop]; rfl)
    have hagree : s.databases.cluster.LogsAgreeOk (.replicate (.put addr.id k key value)) :=
      ⟨nofun, nofun, nofun⟩
    obtain ⟨h', hhist⟩ := h.pods_step (a := .cluster (.replicate (.put addr.id k key value)))
      ⟨hagree, fun _ hk => Option.some.inj hk ▸ hkey⟩ hd
    refine ⟨h'.setProgress hs ⟨key, value, hop, ?_⟩, hhist⟩
    show Cluster.Carries d.cluster.rep addr.id key value (d.cluster.rep.puts addr.id k)
    rw [Databases.begun hd]
    exact ⟨rfl, rfl⟩
  | redirect hs hp hcode =>
    exact ⟨h.setProgress hs fun hzero => absurd hzero hcode, List.prefix_refl _⟩
  | @answer c k client place addr rest ok hs hp hput =>
    refine ⟨h.setProgress hs ?_, List.prefix_refl _⟩
    have hcall := h.calls c client hs
    rw [hp] at hcall
    obtain ⟨key, value, hop, hc⟩ := hcall
    cases ok with
    | false => exact nofun
    | true =>
      intro _
      rw [hput] at hc
      obtain ⟨m, hget⟩ := hc rfl
      obtain ⟨ds, hinv⟩ := h.pods
      rw [hop]
      exact ⟨m, getElem?_of_isPrefix (hinv.commited_isPrefix addr.id) hget⟩
  | receive hs hp => exact ⟨h.setProgress hs ((h.calls _ _ hs).receive hp), List.prefix_refl _⟩
  | @fail c client p hs hp =>
    refine ⟨h.setProgress hs ?_, List.prefix_refl _⟩
    rw [Progress.fail.eq_def] at hp
    split at hp
    · obtain rfl := Option.some.inj hp
      exact progressOk_goOn _ _ _ _
    · cases hp

theorem Inv.run {as : List (Act N)} (h : s.Inv)
    (hok : StepsOk (Service.step cfg config) (Ok cfg) s as)
    (hr : Lib.run (Service.step cfg config) s as = some t) :
    t.Inv ∧ s.databases.history <+: t.databases.history := by
  refine run_invariant (I := fun t : Service N => t.Inv ∧
    s.databases.history <+: t.databases.history) ⟨h, List.prefix_refl _⟩ ?_ hr hok
  rintro t a u ⟨hinv, hhist⟩ hok hstep
  obtain ⟨hinv', hhist'⟩ := hinv.step hok hstep
  exact ⟨hinv', hhist.trans hhist'⟩

end Service

end Mokv.Raft
