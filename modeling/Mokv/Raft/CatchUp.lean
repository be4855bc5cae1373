import Mokv.Raft.Append
import Mokv.Raft.Cluster

/-!
# The search of a new leader

After an election `Follower::Run` looks for the place where a follower's log ends.  It begins
at the leader's commit index, sends the entry after `nextindex_`, and goes one back after
every refusal.

A follower refuses an entry that does not have the next index of its log, and the requests of
this loop carry no commit index, so a refusal changes nothing.  The search ends well exactly
when it meets the end of the follower's log on its way down (`catchesUp_iff`).  A follower that
is ahead of the commit index is never met: the search walks below the log and out of the ring.
-/

namespace Mokv.Raft

open Lib Replicas

/-- The inner loop of `Follower::Run` and the log at the other end.  `asked` lists what `At`
was called with, and `matched` says that the loop was left after a zero. -/
structure CatchUp where
  nextindex : Int
  follower : RaftLog
  asked : List Nat
  matched : Bool

namespace CatchUp

/-- The entry that is sent. -/
def sentEntry (leader : RaftLog) (nextindex : Int) (mainEntry : Entry) : Entry :=
  ⟨mainEntry.term, toInt32 (nextindex + 1), mainEntry.key, mainEntry.value, 0,
    toInt32 leader.commited⟩

/-- One turn of the loop, when the call succeeds and nobody else calls the follower.  There is
no result when `At` leaves the array. -/
def turn (leader : RaftLog) (s : CatchUp) : Option CatchUp :=
  match leader.at (toSizeT (s.nextindex + 1)) with
  | none => none
  | some mainEntry =>
    let r := s.follower.solveAppend 0 [sentEntry leader s.nextindex mainEntry]
    let asked := s.asked ++ [toSizeT (s.nextindex + 1)]
    if r.2 ≠ 0 then some ⟨s.nextindex - 1, r.1, asked, false⟩
    else some ⟨s.nextindex + 1, r.1, asked, true⟩

/-- The loop, for at most so many turns. -/
def search (leader : RaftLog) : Nat → CatchUp → Option CatchUp
  | 0, s => some s
  | n + 1, s => if s.matched then some s else (s.turn leader).bind (search leader n)

/-- `SetNextindex(raft_log_.commited())` and `Run()`. -/
def start (leader follower : RaftLog) : CatchUp :=
  ⟨toInt64 leader.commited, follower, [], false⟩

/-- `At` was called for entries of the log only. -/
def AsksInside (leader : RaftLog) (s : CatchUp) : Prop :=
  ∀ j ∈ s.asked, leader.startIndex < j ∧ j ≤ leader.index

end CatchUp

open CatchUp

/-- The search ends, the follower has taken an entry, and `At` was called for entries of the
log only. -/
def CatchesUp (leader follower : RaftLog) : Prop :=
  ∃ n s, search leader n (start leader follower) = some s ∧ s.matched = true ∧
    (∃ entry, follower.putEntry entry = some s.follower) ∧ AsksInside leader s

/-- The entry after `n` is sent under the next index of the follower. -/
def Meets (follower : RaftLog) (n : Nat) : Prop :=
  toSizeT (toInt32 ((n : Int) + 1)) = (follower.index + 1) % 2 ^ 64

/-- Some entry that the search comes by is the follower's next. -/
def Reaches (leader follower : RaftLog) : Prop :=
  ∃ n, leader.startIndex ≤ n ∧ n ≤ leader.commited ∧ Meets follower n

theorem reaches_iff {leader follower : RaftLog} (hl : leader.commited + 1 < 2 ^ 31)
    (hf : follower.index + 1 < 2 ^ 64) :
    Reaches leader follower ↔
      leader.startIndex ≤ follower.index ∧ follower.index ≤ leader.commited := by
  have hmeets : ∀ n, n ≤ leader.commited → (Meets follower n ↔ n = follower.index) := by
    intro n hn
    have hsucc : (n : Int) + 1 = ((n + 1 : Nat) : Int) := by push_cast; rfl
    rw [Meets, hsucc, toInt32_natCast (by omega), toSizeT_natCast (by omega), Nat.mod_eq_of_lt hf]
    omega
  constructor
  · rintro ⟨n, hstart, hcom, hn⟩
    rw [(hmeets n hcom).mp hn] at hstart hcom
    exact ⟨hstart, hcom⟩
  · rintro ⟨hstart, hcom⟩
    exact ⟨follower.index, hstart, hcom, (hmeets _ hcom).mpr rfl⟩

namespace CatchUp

variable {leader follower : RaftLog}

/-! ### One turn -/

theorem solveAppend_zero (l : RaftLog) (entry : Entry) :
    l.solveAppend 0 [entry] =
      if Mismatch l entry then (l, -2) else ((l.putEntry entry).getD l, 0) := by
  have hupdate : l.updateCommit (toSizeT 0) = l := by
    rw [RaftLog.updateCommit, RaftLog.toSizeT_zero, Nat.min_zero, Nat.max_zero]
  rw [RaftLog.solveAppend_one, hupdate]

theorem nextindex_start (leader follower : RaftLog) :
    (CatchUp.start leader follower).nextindex % 2 ^ 64 = (leader.commited : Int) % 2 ^ 64 := by
  rw [CatchUp.start, toInt64, Int.bmod_def]
  dsimp only
  omega

theorem toSizeT_next {z c : Int} (hz : z % 2 ^ 64 = c % 2 ^ 64) (h0 : 0 ≤ c + 1)
    (h1 : c + 1 < 2 ^ 64) : toSizeT (z + 1) = (c + 1).toNat := by
  unfold toSizeT
  omega

theorem toInt32_next {z c : Int} (hz : z % 2 ^ 64 = c % 2 ^ 64) :
    toInt32 (z + 1) = toInt32 (c + 1) := by
  have hmod : (z + 1) % (2 ^ 32 : Nat) = (c + 1) % (2 ^ 32 : Nat) := by omega
  rw [toInt32, toInt32, Int.bmod_def, Int.bmod_def, hmod]

theorem turn_eq {s : CatchUp} {n : Nat} (hz : s.nextindex % 2 ^ 64 = n % 2 ^ 64)
    (hn : n + 1 < 2 ^ 64) {mainEntry : Entry} (hat : leader.at (n + 1) = some mainEntry)
    (entry : Entry) (hentry : sentEntry leader s.nextindex mainEntry = entry) :
    (Meets s.follower n → s.turn leader = some ⟨s.nextindex + 1,
        (s.follower.putEntry entry).getD s.follower, s.asked ++ [n + 1], true⟩) ∧
      (¬ Meets s.follower n → s.turn leader =
        some ⟨s.nextindex - 1, s.follower, s.asked ++ [n + 1], false⟩) := by
  have hj : toSizeT (s.nextindex + 1) = n + 1 := by
    rw [toSizeT_next hz (by omega) (by omega)]
    omega
  have hmeets : Meets s.follower n ↔ ¬ Mismatch s.follower entry := by
    rw [Mismatch, not_not, ← hentry, sentEntry, Meets, toInt32_next hz]
  rw [turn, hj, hat]
  simp only [hentry, solveAppend_zero]
  constructor
  · intro hm
    rw [if_neg (hmeets.mp hm)]
    rfl
  · intro hm
    rw [if_pos (not_not.mp (mt hmeets.mpr hm))]
    rfl

theorem at_of_lt (hl : leader.Inv) (hmax : leader.index < 2 ^ 64) {n : Nat}
    (hstart : leader.startIndex ≤ n) (hn : n < leader.index) :
    ∃ mainEntry, leader.at (n + 1) = some mainEntry := by
  obtain ⟨hq, -, -, -, hsize⟩ := hl
  have hhead := hq.head_lt
  have hring := RingBufferQueue.ringBufferSize_eq
  rw [hq.size_eq] at hsize
  have hlt : n - leader.startIndex < leader.queue.head := by omega
  have hat := RaftLog.at_eq_of_place hq (i := n + 1) (by omega) hlt (by omega)
  rw [RaftLog.entries, hq.getElem?_toList hlt] at hat
  exact ⟨_, hat⟩

theorem turn_cases {s t : CatchUp} (h : s.turn leader = some t) :
    ∃ mainEntry res, leader.at (toSizeT (s.nextindex + 1)) = some mainEntry ∧
      s.follower.solveAppend 0 [sentEntry leader s.nextindex mainEntry] = res ∧
      t.follower = res.1 ∧ t.asked = s.asked ++ [toSizeT (s.nextindex + 1)] ∧
      ((res.2 ≠ 0 ∧ t.nextindex = s.nextindex - 1 ∧ t.matched = false) ∨
        (res.2 = 0 ∧ t.nextindex = s.nextindex + 1 ∧ t.matched = true)) := by
  rw [turn] at h
  split at h
  · cases h
  · rename_i mainEntry hat
    refine ⟨mainEntry, _, hat, rfl, ?_⟩
    dsimp only at h
    split at h
    · rename_i hcode
      obtain rfl := Option.some.inj h
      exact ⟨rfl, rfl, Or.inl ⟨hcode, rfl, rfl⟩⟩
    · rename_i hcode
      obtain rfl := Option.some.inj h
      exact ⟨rfl, rfl, Or.inr ⟨not_not.mp hcode, rfl, rfl⟩⟩

theorem asked_of_turn {s t : CatchUp} (h : s.turn leader = some t) :
    t.asked = s.asked ++ [toSizeT (s.nextindex + 1)] := by
  obtain ⟨_, _, _, _, _, hasked, _⟩ := turn_cases h
  exact hasked

/-! ### The whole search -/

theorem asked_of_search {n : Nat} {s t : CatchUp} (h : search leader n s = some t) :
    s.asked ⊆ t.asked := by
  induction n generalizing s with
  | zero =>
    obtain rfl := Option.some.inj h
    exact List.Subset.refl _
  | succ n ih =>
    rw [search] at h
    split at h
    · obtain rfl := Option.some.inj h
      exact List.Subset.refl _
    · obtain ⟨u, hu, hrest⟩ := Option.bind_eq_some_iff.mp h
      have hmono := ih hrest
      rw [asked_of_turn hu] at hmono
      exact fun j hj => hmono (List.mem_append_left _ hj)

/-- The loop was left after a zero. -/
def Taken (leader follower : RaftLog) (t : CatchUp) : Prop :=
  t.matched = true ∧ (∃ entry, t.follower = (follower.putEntry entry).getD follower) ∧
    AsksInside leader t

theorem AsksInside.concat {s t : CatchUp} (h : AsksInside leader s) {n : Nat}
    (hstart : leader.startIndex ≤ n) (hn : n < leader.index) (ht : t.asked = s.asked ++ [n + 1]) :
    AsksInside leader t := by
  intro j hj
  rw [ht] at hj
  rcases List.mem_append.mp hj with hj | hj
  · exact h j hj
  · rw [List.mem_singleton.mp hj]
    omega

section

variable (hl : leader.Inv) (hmax : leader.index < 2 ^ 64)
include hl hmax

theorem search_one {s : CatchUp} {c : Nat} (hstart : leader.startIndex ≤ c) (hc : c < leader.index)
    (hz : s.nextindex % 2 ^ 64 = c % 2 ^ 64) (hmatched : s.matched = false)
    (hasked : AsksInside leader s) (hmeets : Meets s.follower c) :
    ∃ t, search leader 1 s = some t ∧ Taken leader s.follower t := by
  obtain ⟨mainEntry, hat⟩ := at_of_lt hl hmax hstart hc
  have hturn := (turn_eq hz (by omega) hat _ rfl).1 hmeets
  have hsearch : search leader 1 s = s.turn leader := by
    rw [search, if_neg (by rw [hmatched]; decide)]
    cases s.turn leader <;> rfl
  exact ⟨_, hsearch.trans hturn, rfl, ⟨_, rfl⟩, hasked.concat hstart hc rfl⟩

/-- **The search finds the end of the follower's log** when it is on the way down. -/
theorem search_of_meets {n : Nat} (hstart : leader.startIndex ≤ n) (hn : Meets follower n) (d : Nat)
    (s : CatchUp) (hc : n + d < leader.index) (hz : s.nextindex % 2 ^ 64 = (n + d : Nat) % 2 ^ 64)
    (hs : s.follower = follower) (hmatched : s.matched = false) (hasked : AsksInside leader s) :
    ∃ k t, search leader k s = some t ∧ Taken leader follower t := by
  -- the distance that is left
  induction d generalizing s with
  | zero =>
    subst hs
    exact ⟨1, search_one hl hmax hstart hc hz hmatched hasked hn⟩
  | succ d ih =>
    have hstart' : leader.startIndex ≤ n + (d + 1) := by omega
    by_cases hmeets : Meets s.follower (n + (d + 1))
    · obtain ⟨t, ht, htaken⟩ := search_one hl hmax hstart' hc hz hmatched hasked hmeets
      rw [hs] at htaken
      exact ⟨1, t, ht, htaken⟩
    · obtain ⟨mainEntry, hat⟩ := at_of_lt hl hmax hstart' hc
      have hturn := (turn_eq hz (by omega) hat _ rfl).2 hmeets
      have hz' : (s.nextindex - 1) % 2 ^ 64 = ((n + d : Nat) : Int) % 2 ^ 64 := by
        push_cast at hz ⊢
        omega
      obtain ⟨k, t, hk, ht⟩ := ih ⟨s.nextindex - 1, s.follower, s.asked ++ [n + (d + 1) + 1], false⟩
        (by omega) hz' hs rfl (hasked.concat hstart' hc rfl)
      refine ⟨k + 1, t, ?_, ht⟩
      rw [search, if_neg (by rw [hmatched]; decide), hturn, Option.bind_some, hk]

/-- **A search that asks inside the log has met the follower.** -/
theorem meets_of_search {k : Nat} {s t : CatchUp} {c : Int} (h : search leader k s = some t)
    (hz : s.nextindex % 2 ^ 64 = c % 2 ^ 64) (hstart : leader.startIndex ≤ c + 1)
    (hc : c < leader.index) (hmatched : s.matched = false) (ht : t.matched = true)
    (hasked : AsksInside leader t) :
    ∃ n : Nat, leader.startIndex ≤ n ∧ (n : Int) ≤ c ∧ Meets s.follower n := by
  induction k generalizing s c with
  | zero =>
    obtain rfl := Option.some.inj h
    rw [hmatched] at ht
    cases ht
  | succ k ih =>
    rw [search, if_neg (by rw [hmatched]; decide)] at h
    obtain ⟨u, hu, hrest⟩ := Option.bind_eq_some_iff.mp h
    -- what this turn asked for is inside the log
    have hmem : (c + 1).toNat ∈ t.asked := by
      refine asked_of_search hrest ?_
      rw [asked_of_turn hu, toSizeT_next hz (by omega) (by omega)]
      exact List.mem_append_right _ (List.mem_singleton_self _)
    have hinside := hasked _ hmem
    obtain ⟨n, rfl⟩ : ∃ n : Nat, c = n := ⟨c.toNat, by omega⟩
    by_cases hmeets : Meets s.follower n
    · exact ⟨n, by omega, le_rfl, hmeets⟩
    · obtain ⟨mainEntry, hat⟩ := at_of_lt hl hmax (n := n) (by omega) (by omega)
      obtain rfl := Option.some.inj (((turn_eq hz (by omega) hat _ rfl).2 hmeets).symm.trans hu)
      obtain ⟨m, hm1, hm2, hm3⟩ :=
        ih (c := n - 1) hrest (by simp only; omega) (by omega) (by omega) rfl
      exact ⟨m, hm1, by omega, hm3⟩

theorem reaches_of_catchesUp (hlt : leader.commited < leader.index) (hf : follower.queue.Ok)
    (h : CatchesUp leader follower) : follower.accepts = true ∧ Reaches leader follower := by
  obtain ⟨k, t, hsearch, hmatched, ⟨entry, hput⟩, hasked⟩ := h
  have hstart := hl.2.start_le
  have hlast := hl.2.last_le
  refine ⟨?_, ?_⟩
  · rcases RaftLog.putEntry_eq hf entry with ⟨-, hnone⟩ | ⟨haccepts, -⟩
    · rw [hnone] at hput
      cases hput
    · exact haccepts
  · obtain ⟨n, hn1, hn2, hn3⟩ := meets_of_search hl hmax hsearch (c := leader.commited)
      (nextindex_start leader follower) (by omega) (by omega) rfl hmatched hasked
    exact ⟨n, hn1, by omega, hn3⟩

theorem catchesUp_of_reaches (hlt : leader.commited < leader.index) (hf : follower.queue.Ok)
    (haccepts : follower.accepts = true) (h : Reaches leader follower) :
    CatchesUp leader follower := by
  obtain ⟨n, hstart, hn, hmeets⟩ := h
  have hdist : n + (leader.commited - n) = leader.commited := by omega
  obtain ⟨k, t, hsearch, hmatched, ⟨entry, ht⟩, hasked⟩ :=
    search_of_meets hl hmax hstart hmeets (leader.commited - n) (CatchUp.start leader follower)
      (by omega) (by rw [hdist]; exact nextindex_start leader follower) rfl rfl
      (by simp [AsksInside, CatchUp.start])
  refine ⟨k, t, hsearch, hmatched, ⟨entry, ?_⟩, hasked⟩
  rcases RaftLog.putEntry_eq hf entry with ⟨hno, -⟩ | ⟨-, q, -, -, -, -, hput⟩
  · rw [haccepts] at hno
    cases hno
  · rw [hput] at ht ⊢
    rw [ht, Option.getD_some]

end

end CatchUp

/-! ### The steps of the cluster -/

section

variable {N : Nat}

/-- A cluster in the middle of a search: the thread of leader `i` for follower `f` is at the top
of its loop or has left it, and `f` is past its first election and not held up. -/
structure Searching (s : Cluster N) (i f : Fin N) (leader : RaftLog) (c : CatchUp) : Prop where
  log_leader : s.rep.log i = leader
  log_follower : s.rep.log f = c.follower
  nextindex_eq : s.rep.nextindex i f = c.nextindex
  sync_eq : s.rep.sync i f = if c.matched then .counting (otherFollowers i f) 2 else .trying
  handler_eq : s.rep.handler f = .free
  unlocked : (s.el.pod f).locked = false
  term_pos : 0 < (s.el.pod f).term

theorem run_replicate (el : Elections N) (r : Replicas N) (as : List (ReplicaAct N)) :
    run Cluster.step ⟨el, r⟩ (as.map .replicate) =
      (run (fun r a => r.step el.pod a) r as).map fun r => ⟨el, r⟩ := by
  induction as generalizing r with
  | nil => rfl
  | cons a as ih =>
    rw [List.map_cons, run_cons, run_cons, Cluster.step]
    cases r.step el.pod a with
    | none => rfl
    | some r' => exact ih r'

/-- **An `Append` with one entry is answered as `SolveAppend` says**, if its term is not taken
over. -/
theorem run_solveAppend (el : Elections N) (r : Replicas N) {req : AppendReq N} {call : Nat}
    {entry : Entry} {f : Fin N} (hdst : req.dst = f) (hentrys : req.entrys = [entry])
    (harr : r.calls.arriving call = some req) (hlocked : (el.pod f).locked = false)
    (hhandler : r.handler f = .free)
    (htakes : ¬ Cluster.TakesOver (el.pod f) (r.log f).index req) :
    ∃ as r', run Cluster.step ⟨el, r⟩ as = some ⟨el, r'⟩ ∧
      r'.log = Function.update r.log f ((r.log f).solveAppend req.commitedIndex [entry]).1 ∧
      r'.handler f = .free ∧ r'.sync = r.sync ∧ r'.nextindex = r.nextindex ∧
      (call, ((r.log f).solveAppend req.commitedIndex [entry]).2) ∈ r'.calls.rsps := by
  subst hdst
  -- the section under `election_mutex_`
  have hsolve : Cluster.step ⟨el, r⟩ (.solveAppend call) =
      some ⟨el, { r with calls := r.calls.deliver call }.takeCommit req call⟩ := by
    rw [Cluster.step, Cluster.solveAppend, harr]
    simp only [hlocked, hhandler]
    rw [if_neg (by simp), if_neg htakes]
  have hne : req.entrys ≠ [] := by rw [hentrys]; exact List.cons_ne_nil _ _
  rw [takeCommit, if_neg hne] at hsolve
  -- `UpdateRaftLog`
  set r₂ := ({ r with calls := r.calls.deliver call }.setLog req.dst
    ((r.log req.dst).updateCommit (toSizeT req.commitedIndex))).setHandler req.dst (.entered call)
    with hr₂
  have hlog : r₂.log req.dst = (r.log req.dst).updateCommit (toSizeT req.commitedIndex) :=
    Function.update_self ..
  have hresult : (r.log req.dst).solveAppend req.commitedIndex [entry] =
      (r₂.log req.dst).updateRaftLog [entry] (toSizeT req.commitedIndex) := by
    rw [RaftLog.solveAppend, if_neg (List.cons_ne_nil _ _), hlog]
  have hentered : r₂.handler req.dst = .entered call := Function.update_self ..
  have hsent : r.calls.sent[call]? = some req := Net.getElem?_of_arriving harr
  obtain ⟨as, has⟩ := r₂.run_updateRaftLog el.pod req.dst hentered hsent hentrys
  rw [hresult]
  generalize (r₂.log req.dst).updateRaftLog [entry] (toSizeT req.commitedIndex) = result at has ⊢
  refine ⟨.solveAppend call :: as.map .replicate,
    ((r₂.setLog req.dst result.1).setHandler req.dst .free).reply call result.2,
    ?_, ?_, Function.update_self .., rfl, rfl, List.mem_cons_self ..⟩
  · rw [run_cons, hsolve, Option.bind_some, run_replicate, has]
    rfl
  · exact Function.update_idem ..

namespace Searching

variable {s : Cluster N} {i f : Fin N} {leader : RaftLog} {c d : CatchUp}

theorem step_syncAnswered (el : Elections N) {r : Replicas N} {call : Nat} {code : Int}
    (hsync : r.sync i f = .awaiting call) (hrsp : (call, code) ∈ r.calls.rsps)
    (hnext : r.nextindex i f = c.nextindex)
    (hcode : (code ≠ 0 ∧ d.nextindex = c.nextindex - 1 ∧ d.matched = false) ∨
      (code = 0 ∧ d.nextindex = c.nextindex + 1 ∧ d.matched = true)) :
    Cluster.step ⟨el, r⟩ (.replicate (.syncAnswered i f code)) =
      some ⟨el, (r.setNextindex i f d.nextindex).setSync i f
        (if d.matched then .counting (otherFollowers i f) 2 else .trying)⟩ := by
  rw [Cluster.step, Replicas.step, syncAnswered, hsync]
  dsimp only
  rw [if_pos hrsp, hnext]
  rcases hcode with ⟨hcode, hd, hmatched⟩ | ⟨hcode, hd, hmatched⟩
  · rw [if_pos hcode, hd, hmatched]
    rfl
  · rw [if_neg (not_not.mpr hcode), hd, hmatched]
    rfl

theorem sent (h : Searching s i f leader c) (hm : c.matched = false) {mainEntry : Entry}
    (hat : leader.at (toSizeT (c.nextindex + 1)) = some mainEntry) :
    ∃ r call, Cluster.step s (.replicate (.syncSend i f)) = some ⟨s.el, r⟩ ∧
      r.log = s.rep.log ∧ r.handler = s.rep.handler ∧ r.nextindex = s.rep.nextindex ∧
      r.sync i f = .awaiting call ∧
      r.calls.arriving call = some (s.rep.appendReq i f mainEntry) := by
  have hsync : s.rep.sync i f = .trying := by
    rw [h.sync_eq, hm]
    rfl
  refine ⟨(s.rep.setSync i f (.awaiting s.rep.calls.sent.length)).send
    (s.rep.appendReq i f mainEntry), s.rep.calls.sent.length, ?_, rfl, rfl, rfl, ?_, ?_⟩
  · rw [Cluster.step, Replicas.step, syncSend, hsync]
    simp only [h.log_leader, h.nextindex_eq, hat]
    rfl
  · simp [send, setSync]
  · exact Net.arriving_send_length _ _

theorem handled (h : Searching s i f leader c) {mainEntry : Entry} {r : Replicas N} {call : Nat}
    (hlog : r.log = s.rep.log) (hhandler : r.handler = s.rep.handler)
    (harr : r.calls.arriving call = some (s.rep.appendReq i f mainEntry)) {res : RaftLog × Int}
    (hres : c.follower.solveAppend 0 [sentEntry leader c.nextindex mainEntry] = res) :
    ∃ as r', run Cluster.step ⟨s.el, r⟩ as = some ⟨s.el, r'⟩ ∧
      r'.log = Function.update s.rep.log f res.1 ∧ r'.handler f = .free ∧ r'.sync = r.sync ∧
      r'.nextindex = r.nextindex ∧ (call, res.2) ∈ r'.calls.rsps := by
  have hentrys : (s.rep.appendReq i f mainEntry).entrys =
      [sentEntry leader c.nextindex mainEntry] := by
    rw [appendReq, h.log_leader, h.nextindex_eq]
    rfl
  have htakes :
      ¬ Cluster.TakesOver (s.el.pod f) (r.log f).index (s.rep.appendReq i f mainEntry) := by
    have hpos := h.term_pos
    have hterm : (s.rep.appendReq i f mainEntry).term = 0 := rfl
    rintro (hgt | ⟨heq, -⟩) <;> omega
  have hfree : r.handler f = .free := by
    rw [hhandler]
    exact h.handler_eq
  obtain ⟨as, r', has, hlog', hhandler', hsync, hnext, hrsp⟩ :=
    run_solveAppend s.el r (f := f) rfl hentrys harr h.unlocked hfree htakes
  have hres' : (r.log f).solveAppend (s.rep.appendReq i f mainEntry).commitedIndex
      [sentEntry leader c.nextindex mainEntry] = res := by
    rw [← hres, ← h.log_follower, ← hlog]
    rfl
  rw [hres'] at hlog' hrsp
  rw [hlog] at hlog'
  exact ⟨as, r', has, hlog', hhandler', hsync, hnext, hrsp⟩

/-- **A turn is a run of the cluster**: the call, its handler and the answer. -/
theorem turn (hfi : f ≠ i) (h : Searching s i f leader c) (hm : c.matched = false)
    (ht : c.turn leader = some d) :
    ∃ as t, run Cluster.step s as = some t ∧ Searching t i f leader d := by
  obtain ⟨mainEntry, res, hat, hres, hfollower, -, hcode⟩ := turn_cases ht
  obtain ⟨r₁, call, hsend, hlog₁, hhandler₁, hnext₁, hawaiting, harr⟩ := h.sent hm hat
  obtain ⟨as, r₂, has, hlog, hhandler, hsync₂, hnext, hrsp⟩ := h.handled hlog₁ hhandler₁ harr hres
  -- the answer
  have hnextindex : r₂.nextindex i f = c.nextindex := by
    rw [hnext, hnext₁]
    exact h.nextindex_eq
  have hstep := step_syncAnswered s.el (hsync₂ ▸ hawaiting) hrsp hnextindex hcode
  refine ⟨.replicate (.syncSend i f) :: (as ++ [.replicate (.syncAnswered i f res.2)]),
    ⟨s.el, (r₂.setNextindex i f d.nextindex).setSync i f
      (if d.matched then .counting (otherFollowers i f) 2 else .trying)⟩, ?_, ?_⟩
  · rw [run_cons, hsend, Option.bind_some, run_append, has, Option.bind_some, run_cons, hstep]
    rfl
  · have hleader : r₂.log i = leader := by
      rw [hlog, Function.update_of_ne hfi.symm]
      exact h.log_leader
    have hlogf : r₂.log f = d.follower := by rw [hlog, Function.update_self, hfollower]
    exact ⟨hleader, hlogf, by simp [setSync, setNextindex], by simp [setSync], hhandler, h.unlocked,
      h.term_pos⟩

/-- **The search is a run of the cluster.** -/
theorem search (hfi : f ≠ i) {n : Nat} (h : Searching s i f leader c)
    (ht : CatchUp.search leader n c = some d) :
    ∃ as t, run Cluster.step s as = some t ∧ Searching t i f leader d := by
  induction n generalizing s c with
  | zero =>
    obtain rfl := Option.some.inj ht
    exact ⟨[], s, rfl, h⟩
  | succ n ih =>
    rw [CatchUp.search] at ht
    split at ht
    · obtain rfl := Option.some.inj ht
      exact ⟨[], s, rfl, h⟩
    · rename_i hm
      obtain ⟨e, he, hrest⟩ := Option.bind_eq_some_iff.mp ht
      obtain ⟨as, t, has, hsearching⟩ := h.turn hfi (Bool.eq_false_iff.mpr hm) he
      obtain ⟨bs, u, hbs, hu⟩ := ih hsearching hrest
      exact ⟨as ++ bs, u, by rw [run_append, has, Option.bind_some, hbs], hu⟩

end Searching

end

/-! ### When the search ends well -/

/-- **When the search ends well**: the follower takes entries, and the search comes by the end
of its log.  For indices below `2 ^ 31` this end lies between the leader's start and its commit
index. -/
theorem catchesUp_iff (leader follower : RaftLog) (hl : leader.Inv)
    (hlt : leader.commited < leader.index) (hmax : leader.index < 2 ^ 64) (hf : follower.queue.Ok) :
    (CatchesUp leader follower ↔ follower.accepts = true ∧ Reaches leader follower) ∧
      (leader.commited + 1 < 2 ^ 31 → follower.index + 1 < 2 ^ 64 →
        (Reaches leader follower ↔
          leader.startIndex ≤ follower.index ∧ follower.index ≤ leader.commited)) :=
  ⟨⟨reaches_of_catchesUp hl hmax hlt hf, fun h => catchesUp_of_reaches hl hmax hlt hf h.1 h.2⟩,
    reaches_iff⟩

/-- A log of the first entries of a list. -/
def firstEntries (entries : List Entry) (n : Nat) : RaftLog :=
  ⟨n, 0, 0, 0, ⟨fun place => entries.getD (place - 1) Entry.empty, n, 0⟩, false⟩

/-- Two entries, none of them committed. -/
def twoEntries : List Entry := [⟨1, 1, [1], [10], 0, 0⟩, ⟨1, 2, [2], [20], 0, 0⟩]

theorem inv_twoEntries : (firstEntries twoEntries 2).Inv :=
  ⟨⟨rfl, by decide⟩, by decide⟩

/-- A follower with an empty log takes the first entry. -/
theorem catchesUp_iff_sample :
    ((CatchesUp (firstEntries twoEntries 2) (RaftLog.load 0) ↔
        (RaftLog.load 0).accepts = true ∧ Reaches (firstEntries twoEntries 2) (RaftLog.load 0)) ∧
      (0 + 1 < 2 ^ 31 → 0 + 1 < 2 ^ 64 →
        (Reaches (firstEntries twoEntries 2) (RaftLog.load 0) ↔ 0 ≤ 0 ∧ 0 ≤ 0))) ∧
    ((search (firstEntries twoEntries 2) 1
      (start (firstEntries twoEntries 2) (RaftLog.load 0))).map CatchUp.matched) = some true :=
  ⟨catchesUp_iff (firstEntries twoEntries 2) (RaftLog.load 0) inv_twoEntries (by decide) (by decide)
    (RingBufferQueue.ok_empty _), by decide⟩

/-- **A follower that is ahead of the commit index is not met**: it has the first of two entries,
is offered this one again, and then the search leaves the log. -/
theorem search_walks_off :
    (firstEntries twoEntries 2).Inv ∧
      (search (firstEntries twoEntries 2) 2
        (start (firstEntries twoEntries 2) (firstEntries twoEntries 1))).map CatchUp.asked =
          some [1, 0] ∧
      (search (firstEntries twoEntries 2) 3
        (start (firstEntries twoEntries 2) (firstEntries twoEntries 1))).isNone = true ∧
      ¬ CatchesUp (firstEntries twoEntries 2) (firstEntries twoEntries 1) := by
  refine ⟨inv_twoEntries, by decide, by decide, ?_⟩
  intro h
  have hreaches := (reaches_of_catchesUp inv_twoEntries (by decide) (by decide)
    ⟨rfl, by decide⟩ h).2
  have hle := ((reaches_iff (by decide) (by decide)).mp hreaches).2
  exact absurd hle (by decide)

end Mokv.Raft
