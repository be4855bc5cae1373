import Mokv.Raft.ElectionMoves

/-!
# Heartbeats

What a heartbeat tells a pod about its leader.  `Pod::SolveAppend` (`mokv/raft/pod.hpp`)
takes the sender for its leader when the term is newer, or when the term is its own and
there is an entry beyond its log; a heartbeat has no entry.  `Pod::Put` on a pod that is not
leader looks up the address of `leader_id_` among the followers.

* `Cluster.run_appendActs`: the steps of the handler, one after another, do to the pod what
  `Pod.solveAppend` says.
* `heartbeat_establishes_iff`: **after a heartbeat the pod follows its sender exactly when
  the term was newer, or it did so before.**  `Vote` already takes over the term of a
  candidate, so a pod that voted for its leader never learns who it is.
-/

namespace Mokv.Raft

open Lib

variable {N : Nat}

/-! ### The code -/

/-- `Address`. -/
structure Address (N : Nat) where
  id : Fin N
  ip : String
  port : Int
deriving DecidableEq

/-- `followers_`, in the order of the configuration. -/
def followersOf (config : List (Address N)) (i : Fin N) : List (Address N) :=
  config.filter fun addr => addr.id ≠ i

namespace Pod

/-- `SolveAppend`, the section under `election_mutex_`. -/
def solveAppend (p : Pod N) (index : Nat) (req : AppendReq N) : Pod N :=
  if Cluster.TakesOver p index req then
    { p with term := req.term, voted := false, status := .follower, leaderId := some req.id }
  else p

/-- `FindLeaderAddress`. -/
def findLeaderAddress (p : Pod N) (followers : List (Address N)) : Option (Address N) :=
  followers.find? fun addr => some addr.id = p.leaderId

/-- `PutRsp`. -/
structure PutRsp (N : Nat) where
  code : Int
  leaderAddr : Option (Address N)
deriving DecidableEq

/-- `Put`, with the result of `InnerPut` on a leader. -/
def put (p : Pod N) (followers : List (Address N)) (innerPut : Bool) : PutRsp N :=
  if p.status ≠ .leader then
    match p.findLeaderAddress followers with
    | none => ⟨-1, none⟩
    | some addr => ⟨-2, some addr⟩
  else if innerPut then ⟨0, none⟩ else ⟨-1, none⟩

/-- Pod `i` follows `leader` in a term: it is no candidate and no leader (unless it is `leader`
itself), and sends clients to the address of `leader` if it has one. -/
structure Follows (config : List (Address N)) (i leader : Fin N) (term : Int) (p : Pod N) :
    Prop where
  term_eq : p.term = term
  status_eq : i ≠ leader → p.status = .follower
  leaderId_eq : p.leaderId = some leader
  redirects : ∀ innerPut, (∃ addr ∈ followersOf config i, addr.id = leader) →
    ∃ addr ∈ followersOf config i, addr.id = leader ∧
      p.put (followersOf config i) innerPut = ⟨-2, some addr⟩

theorem put_of_follower {p : Pod N} {followers : List (Address N)} {leader : Fin N}
    (hstatus : p.status = .follower) (hleader : p.leaderId = some leader)
    (hmem : ∃ addr ∈ followers, addr.id = leader) (innerPut : Bool) :
    ∃ addr ∈ followers, addr.id = leader ∧ p.put followers innerPut = ⟨-2, some addr⟩ := by
  obtain ⟨a, ha, hid⟩ := hmem
  have hsome : (p.findLeaderAddress followers).isSome = true :=
    List.find?_isSome.mpr ⟨a, ha, by rw [hleader, hid]; exact decide_eq_true rfl⟩
  obtain ⟨addr, haddr⟩ := Option.isSome_iff_exists.mp hsome
  refine ⟨addr, List.mem_of_find?_eq_some haddr, ?_, ?_⟩
  · have := List.find?_some haddr
    rw [hleader] at this
    exact Option.some.inj (of_decide_eq_true this)
  · rw [put, if_pos (by rw [hstatus]; decide), haddr]

theorem follows_iff {config : List (Address N)} {i leader : Fin N} {term : Int} {p : Pod N} :
    Follows config i leader term p ↔
      p.term = term ∧ (i ≠ leader → p.status = .follower) ∧ p.leaderId = some leader := by
  constructor
  · intro h
    exact ⟨h.term_eq, h.status_eq, h.leaderId_eq⟩
  · rintro ⟨hterm, hstatus, hleader⟩
    refine ⟨hterm, hstatus, hleader, ?_⟩
    intro innerPut hmem
    have hne : i ≠ leader := by
      rintro rfl
      obtain ⟨addr, haddr, hid⟩ := hmem
      exact of_decide_eq_true (List.mem_filter.mp haddr).2 hid
    exact put_of_follower (hstatus hne) hleader hmem innerPut

end Pod

/-! ### The steps of the handler -/

namespace Cluster

/-- The steps of `SolveAppend` up to the end of the section under `election_mutex_`. -/
def appendActs (s : Cluster N) (call : Nat) (req : AppendReq N) : List (Action N) :=
  let p := s.el.pod req.dst
  if TakesOver p (s.rep.log req.dst).index req then
    .solveAppend call :: .elect (.storeTerm req.dst) ::
      ((if p.status = .leader then others req.dst else []).map (fun _ => .join req.dst) ++
        [.appendStopped req.dst])
  else [.solveAppend call]

theorem run_join {i : Fin N} (cause : StopCause) (call : Nat) (rest : List (Fin N)) :
    ∀ {s t : Cluster N}, (s.el.pod i).holder = some (.stopping ⟨rest, cause, call⟩) →
      run step s (rest.map fun _ => .join i) = some t →
      t.el.pod i = { s.el.pod i with holder := some (.stopping ⟨[], cause, call⟩) } ∧
        t.rep.calls = s.rep.calls := by
  induction rest with
  | nil =>
    intro s t hst hrun
    obtain rfl : s = t := Option.some.inj hrun
    exact ⟨by rw [← hst], rfl⟩
  | cons f rest ih =>
    intro s t hst hrun
    rw [List.map_cons, run_cons] at hrun
    obtain ⟨u, hu, hrun⟩ := Option.bind_eq_some_iff.mp hrun
    simp only [step, join, Pod.stopping, hst] at hu
    split at hu
    · obtain rfl := Option.some.inj hu
      have hpod := ih (by simp [Elections.setPod]) hrun
      simpa [Elections.setPod, Replicas.setSync] using hpod
    · cases hu

/-- **The handler alone** does to its pod what `Pod.solveAppend` says. -/
theorem run_appendActs {s t : Cluster N} {call : Nat} {req : AppendReq N}
    (harr : s.rep.calls.arriving call = some req)
    (hrun : run step s (s.appendActs call req) = some t) :
    t.el.pod req.dst = (s.el.pod req.dst).solveAppend (s.rep.log req.dst).index req := by
  rw [appendActs] at hrun
  rw [Pod.solveAppend]
  by_cases htakes : TakesOver (s.el.pod req.dst) (s.rep.log req.dst).index req
  · rw [if_pos htakes, run_cons] at hrun
    obtain ⟨u, hu, hrun⟩ := Option.bind_eq_some_iff.mp hrun
    rw [step, solveAppend, harr] at hu
    dsimp only at hu
    split at hu
    · cases hu
    · rename_i hfree
      obtain rfl := Option.some.inj hu
      -- the store to `term_`
      rw [run_cons] at hrun
      obtain ⟨w, hw, hrun⟩ := Option.bind_eq_some_iff.mp hrun
      simp only [step, Elections.step, Elections.storeTerm, Elections.setHolder,
        Elections.setPod_pod_self, Option.map_some] at hw
      obtain rfl := Option.some.inj hw
      obtain ⟨v, hv, hlast⟩ := run_concat.mp hrun
      obtain ⟨hpod, hcalls⟩ := run_join .solveAppend call _ (by simp [Elections.setPod]) hv
      have hnone := Pod.holder_of_not_locked (not_or.mp hfree).1
      have hsent : v.rep.calls.sent[call]? = some req := by
        rw [hcalls]
        show s.rep.calls.sent[call]? = some req
        exact Net.getElem?_of_arriving harr
      simp only [step, appendStopped, Pod.stopping, hpod, hsent] at hlast
      obtain rfl := Option.some.inj hlast
      rw [if_pos htakes]
      simp [Elections.setPod, hnone]
  · rw [if_neg htakes, run_cons] at hrun
    obtain ⟨u, hu, hrun⟩ := Option.bind_eq_some_iff.mp hrun
    obtain rfl : u = t := Option.some.inj hrun
    rw [step, solveAppend, harr] at hu
    dsimp only at hu
    split at hu
    · cases hu
    · obtain rfl := Option.some.inj hu
      rw [if_neg htakes]

end Cluster

/-- **A heartbeat establishes its sender exactly when its term is newer, or the pod follows the
sender already.** -/
theorem heartbeat_establishes_iff (config : List (Address N)) (i : Fin N) (p : Pod N)
    (index : Nat) (req : AppendReq N) (hbeat : req.entrys = []) (hterm : p.term ≤ req.term) :
    Pod.Follows config i req.id req.term (p.solveAppend index req) ↔
      p.term < req.term ∨
        ((i ≠ req.id → p.status = .follower) ∧ p.leaderId = some req.id) := by
  have htakes : Cluster.TakesOver p index req ↔ p.term < req.term := by
    rw [Cluster.TakesOver, hbeat]
    simp [Cluster.beyondLog]
  rw [Pod.follows_iff, Pod.solveAppend]
  by_cases hnew : p.term < req.term
  · rw [if_pos (htakes.mpr hnew)]
    exact iff_of_true ⟨rfl, fun _ => rfl, rfl⟩ (Or.inl hnew)
  · have heq : p.term = req.term := by omega
    rw [if_neg (fun h => hnew (htakes.mp h))]
    constructor
    · rintro ⟨-, hstatus, hleader⟩
      exact Or.inr ⟨hstatus, hleader⟩
    · rintro (h | ⟨hstatus, hleader⟩)
      · exact absurd h hnew
      · exact ⟨heq, hstatus, hleader⟩

/-- A configuration of two pods. -/
def twoPods (i j : Fin N) : List (Address N) :=
  [⟨i, "127.0.0.1", 19091⟩, ⟨j, "127.0.0.1", 19092⟩]

theorem heartbeat_establishes_newTerm :
    Pod.Follows (twoPods 0 1) 1 0 1 ((Pod.init 2).solveAppend 0 ⟨0, 1, 1, 0, []⟩) :=
  (heartbeat_establishes_iff (twoPods 0 1) 1 (Pod.init 2) 0 ⟨0, 1, 1, 0, []⟩ rfl
    (by decide)).mpr (Or.inl (by decide))

/-- Of two pods, `i` becomes leader of term 1 with the vote of `j` and sends it a heartbeat. -/
def electAndBeat (i j : Fin N) : List (Action N) := List.flatten
  [[.elect (.timeOut i), .elect (.requestVote i)], Action.ask i, Action.test 0 j,
    [.elect (.storeTerm j), .elect (.voteStopped j), .elect (.voteAnswered i 0),
      .elect (.countTickets i), .promote i, .promote i, .elect (.startBeat i),
      .elect (.readTerm i), .sendHeartBeat i]]

/-- **The voter never learns its leader**: the vote has raised its term to that of the
heartbeat, so it keeps no leader, and a client's put is refused. -/
theorem voter_keeps_no_leader :
    ∃ s t : Cluster 2, ∃ req : AppendReq 2,
      run Cluster.step (Cluster.init 2) (electAndBeat 0 1) = some s ∧
      s.rep.calls.arriving 0 = some req ∧ req.id = 0 ∧ req.dst = 1 ∧ req.entrys = [] ∧
      (s.el.pod 1).term ≤ req.term ∧ run Cluster.step s (s.appendActs 0 req) = some t ∧
      (t.el.pod 1).put (followersOf (twoPods 0 1) 1) true = ⟨-1, none⟩ ∧
      ¬ Pod.Follows (twoPods 0 1) 1 req.id req.term (t.el.pod 1) := by
  obtain ⟨s, hs⟩ : ∃ s, run Cluster.step (Cluster.init 2) (electAndBeat 0 1) = some s :=
    Option.isSome_iff_exists.mp (by decide)
  have hmap : (run Cluster.step (Cluster.init 2) (electAndBeat 0 1)).map (fun s =>
      (s.rep.calls.arriving 0, (s.el.pod 1).term,
        (run Cluster.step s (s.appendActs 0 ⟨0, 1, 1, 0, []⟩)).map fun t => t.el.pod 1)) =
      some (some ⟨0, 1, 1, 0, []⟩, 1,
        some ⟨.follower, 1, true, none, .waiting, none, 0⟩) := by decide
  rw [hs] at hmap
  simp only [Option.map_some, Option.some.injEq, Prod.mk.injEq] at hmap
  obtain ⟨harr, hterm, hafter⟩ := hmap
  obtain ⟨t, ht, hpod⟩ := Option.map_eq_some_iff.mp hafter
  refine ⟨s, t, ⟨0, 1, 1, 0, []⟩, hs, harr, rfl, rfl, rfl, le_of_eq hterm, ht, ?_, ?_⟩
  · rw [hpod]
    decide
  · intro h
    have hleader := h.leaderId_eq
    rw [hpod] at hleader
    cases hleader

end Mokv.Raft
