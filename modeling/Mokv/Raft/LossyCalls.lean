import Mokv.Raft.CatchUp

/-!
# The thread of a follower over a network that loses calls

`CatchUp` is one search with calls that succeed.  Here the thread of `Follower::Run` goes on with
the outer loop, the leader's log gets new entries and commits meanwhile, and of each call the
request or the answer may be lost.  A call that failed is made again.

The follower's log ends between the leader's start and its commit index when the thread is
started, as the search needs it.  `Searching.call` connects the calls with the cluster.

* `brought_over`: as long as the answer to an accepted call arrives, the follower has its own
  entries and after them those of the leader, in order; the entries that are missing and the
  refusals to come are as many as the answers that are needed.
* `stranded`: **one lost answer to an accepted call ends the replication.**  The call is made again
  with an entry that the follower has; it is refused, and so is every later one, until `At` leaves
  the array.
-/

namespace Mokv.Raft

open Lib CatchUp Replicas

/-- What becomes of a call. -/
inductive Delivery where
  | answered
  /-- the request does not arrive -/
  | lost
  /-- the answer does not arrive -/
  | unanswered
deriving DecidableEq

/-- One turn of the inner loop of `Follower::Run`.  A call that fails leaves `nextindex_`. -/
def CatchUp.call (leader : RaftLog) (s : CatchUp) : Delivery → Option CatchUp
  | .answered => s.turn leader
  | .lost => (s.turn leader).map fun t => { s with asked := t.asked }
  | .unanswered =>
    (s.turn leader).map fun t => { s with follower := t.follower, asked := t.asked }

theorem CatchUp.AsksInside.mono {l l' : RaftLog} {c : CatchUp} (h : AsksInside l c)
    (hstart : l'.startIndex = l.startIndex) (hindex : l.index ≤ l'.index) : AsksInside l' c :=
  fun j hj => ⟨hstart ▸ (h j hj).1, (h j hj).2.trans hindex⟩

/-- **A call is a run of the cluster**, also where its request or its answer is lost. -/
theorem Searching.call {N : Nat} {s : Cluster N} {i f : Fin N} {leader : RaftLog} {c d : CatchUp}
    (hfi : f ≠ i) (h : Searching s i f leader c) (hm : c.matched = false) {delivery : Delivery}
    (hd : c.call leader delivery = some d) :
    ∃ as t, run Cluster.step s as = some t ∧ Searching t i f leader d := by
  have hfailed : ∀ (r : Replicas N) call, r.sync i f = .awaiting call →
      Cluster.step ⟨s.el, r⟩ (.replicate (.syncFailed i f)) =
        some ⟨s.el, r.setSync i f .trying⟩ := by
    intro r call hawaiting
    rw [Cluster.step, Replicas.step, syncFailed, hawaiting]
    rfl
  cases delivery with
  | answered => exact h.turn hfi hm hd
  | lost =>
    obtain ⟨t, ht, rfl⟩ := Option.map_eq_some_iff.mp hd
    obtain ⟨mainEntry, res, hat, -⟩ := turn_cases ht
    obtain ⟨r, call, hsend, hlog, hhandler, hnext, hawaiting, -⟩ := h.sent hm hat
    refine ⟨[.replicate (.syncSend i f), .replicate (.syncFailed i f)],
      ⟨s.el, r.setSync i f .trying⟩, ?_, ?_⟩
    · rw [run_cons, hsend, Option.bind_some, run_cons, hfailed r call hawaiting]
      rfl
    · exact ⟨by rw [← h.log_leader, ← hlog]; rfl, by rw [← h.log_follower, ← hlog]; rfl,
        by rw [← h.nextindex_eq, ← hnext]; rfl, by simp [setSync, hm],
        by rw [← h.handler_eq, ← hhandler]; rfl, h.unlocked, h.term_pos⟩
  | unanswered =>
    obtain ⟨t, ht, rfl⟩ := Option.map_eq_some_iff.mp hd
    obtain ⟨mainEntry, res, hat, hres, hfollower, -⟩ := turn_cases ht
    obtain ⟨r, call, hsend, hlog, hhandler, hnext, hawaiting, harr⟩ := h.sent hm hat
    obtain ⟨as, r', has, hlog', hhandler', hsync', hnext', -⟩ := h.handled hlog hhandler harr hres
    refine ⟨.replicate (.syncSend i f) :: (as ++ [.replicate (.syncFailed i f)]),
      ⟨s.el, r'.setSync i f .trying⟩, ?_, ?_⟩
    · rw [run_cons, hsend, Option.bind_some, run_append, has, Option.bind_some, run_cons,
        hfailed r' call (hsync' ▸ hawaiting)]
      rfl
    · have hleader : r'.log i = leader := by
        rw [hlog', Function.update_of_ne hfi.symm]
        exact h.log_leader
      have hlogf : r'.log f = t.follower := by rw [hlog', Function.update_self, hfollower]
      have hnextindex : r'.nextindex i f = c.nextindex := by
        rw [hnext', hnext]
        exact h.nextindex_eq
      exact ⟨hleader, hlogf, hnextindex, by simp [setSync, hm], hhandler', h.unlocked, h.term_pos⟩

/-- A leader's log and the thread for one follower.  `matched` says that the thread is in the outer
loop. -/
structure Stream where
  leader : RaftLog
  thread : CatchUp

namespace Stream

inductive Act where
  /-- a put, a commit or the apply thread of the leader -/
  | leader (op : RaftLog.Op)
  | call (delivery : Delivery)
  /-- the test of the outer loop -/
  | again
deriving DecidableEq

/-- What happens to the log of a pod as long as it leads. -/
def leads : RaftLog.Op → Bool
  | .put .. | .updateCommit _ | .apply => true
  | .putEntry _ | .reset => false

/-- `SetNextindex(raft_log_.commited())` and `Run()`. -/
def start (leader follower : RaftLog) : Stream :=
  ⟨leader, { CatchUp.start leader follower with matched := true }⟩

/-- One step. -/
def step (s : Stream) : Act → Option Stream
  | .leader op => if leads op then (s.leader.step op).map fun l => { s with leader := l } else none
  | .call delivery =>
    if s.thread.matched then none
    else (s.thread.call s.leader delivery).map fun c => { s with thread := c }
  | .again =>
    if s.thread.matched ∧ toSizeT s.thread.nextindex < s.leader.index then
      some { s with thread := { s.thread with matched := false } }
    else none

/-! ### The leader's log -/

/-- The indices of the ring fit in the `int32` of `Entry.index`. -/
def Fits (l : RaftLog) : Prop := l.startIndex + RingBufferQueue.ringBufferSize < 2 ^ 31

instance (l : RaftLog) : Decidable (Fits l) := inferInstanceAs (Decidable (_ < _))

theorem head_eq {l : RaftLog} (hl : l.Inv) : l.queue.head = l.index - l.startIndex := by
  have hsize := hl.2.size_eq
  rw [hl.1.size_eq] at hsize
  exact hsize.symm

theorem start_le_index {l : RaftLog} (hl : l.Inv) : l.startIndex ≤ l.index :=
  hl.2.start_le.trans (hl.2.last_le.trans hl.2.commited_le)

theorem index_lt {l : RaftLog} (hl : l.Inv) (hfits : Fits l) : l.index + 1 < 2 ^ 31 := by
  have hlt := hl.1.head_lt
  have hhead := head_eq hl
  have hfits' : l.startIndex + RingBufferQueue.ringBufferSize < 2 ^ 31 := hfits
  omega

theorem length_entries {l : RaftLog} (hl : l.Inv) : l.entries.length = l.index - l.startIndex := by
  rw [RaftLog.entries, RingBufferQueue.length_toList, hl.2.size_eq]

/-- **The log of a leader only grows.** -/
theorem leader_step {l l' : RaftLog} {op : RaftLog.Op} (hop : leads op = true) (hl : l.Inv)
    (hfits : Fits l) (hstep : l.step op = some l') :
    l'.Inv ∧ l'.startIndex = l.startIndex ∧ l.entries <+: l'.entries ∧ l.index ≤ l'.index := by
  have hindex := index_lt hl hfits
  have hinv : RaftLog.PutOk l op → l'.Inv := fun hok =>
    ⟨(RaftLog.ordered_step_iff hl.1 hl.2 hstep).1,
      (RaftLog.ordered_step_iff hl.1 hl.2 hstep).2.mpr hok⟩
  cases op with
  | put key value term =>
    refine ⟨hinv fun _ => by omega, ?_⟩
    obtain rfl := Option.some.inj hstep
    rw [RaftLog.fst_put_getD]
    rcases RaftLog.putEntry_eq hl.1 (l.newEntry key value term) with
      ⟨-, hput⟩ | ⟨-, q, -, -, -, hlist, hput⟩
    · rw [hput]
      exact ⟨rfl, List.prefix_refl _, le_refl _⟩
    · rw [hput, Option.getD_some]
      refine ⟨rfl, ?_, ?_⟩
      · show l.queue.toList <+: q.toList
        rw [hlist]
        exact List.prefix_append _ _
      · show l.index ≤ (l.index + 1) % 2 ^ 64
        omega
  | updateCommit n =>
    refine ⟨hinv trivial, ?_⟩
    obtain rfl := Option.some.inj hstep
    exact ⟨rfl, List.prefix_refl _, le_refl _⟩
  | apply =>
    refine ⟨hinv trivial, ?_⟩
    obtain ⟨r, hr, rfl⟩ := Option.map_eq_some_iff.mp hstep
    rw [RaftLog.apply] at hr
    split at hr
    · obtain rfl := Option.some.inj hr
      exact ⟨rfl, List.prefix_refl _, le_refl _⟩
    · cases hr
  | putEntry entry => cases hop
  | reset => cases hop

/-! ### A call -/

/-- What an entry says, apart from its index and the commit index it brings. -/
def content (e : Entry) : Int × Bytes × Bytes := (e.term, e.key, e.value)

/-- The contents of a log. -/
def contents (l : RaftLog) : List (Int × Bytes × Bytes) := l.entries.map content

theorem meets_iff {follower : RaftLog} {n : Nat} (hn : n + 1 < 2 ^ 31)
    (hf : follower.index + 1 < 2 ^ 64) : Meets follower n ↔ n = follower.index := by
  have hsucc : (n : Int) + 1 = ((n + 1 : Nat) : Int) := by push_cast; rfl
  rw [Meets, hsucc, toInt32_natCast (by omega), toSizeT_natCast (by omega), Nat.mod_eq_of_lt hf]
  omega

/-- The entry after `n` is read where it is. -/
theorem at_succ {l : RaftLog} (hl : l.Inv) (hfits : Fits l) {n : Nat} (hstart : l.startIndex ≤ n)
    (hn : n < l.index) :
    ∃ e, l.at (n + 1) = some e ∧ l.entries[n - l.startIndex]? = some e := by
  have hindex := index_lt hl hfits
  have hhead := head_eq hl
  have hlt : n - l.startIndex < l.queue.head := by omega
  have hat := RaftLog.at_eq_of_place hl.1 (i := n + 1) (by omega) hlt (by omega)
  have hentry := hl.1.getElem?_toList hlt
  exact ⟨_, hat.trans hentry, hentry⟩

section

variable {leader : RaftLog} {c d : CatchUp} {n : Nat}

/-- **An accepted call** takes the leader's next entry over. -/
theorem turn_accepted (hl : leader.Inv) (hfits : Fits leader) (hstart : leader.startIndex ≤ n)
    (hn : n < leader.index) (hnext : c.nextindex = n) (hend : n = c.follower.index)
    (hf : c.follower.queue.Ok) (haccepts : c.follower.accepts = true) :
    ∃ t, c.turn leader = some t ∧ t.nextindex = (n + 1 : Nat) ∧ t.matched = true ∧
      t.asked = c.asked ++ [n + 1] ∧ t.follower.queue.Ok ∧ t.follower.index = n + 1 ∧
      contents t.follower = contents c.follower ++
        ((contents leader)[n - leader.startIndex]?).toList := by
  obtain ⟨e, hat, he⟩ := at_succ hl hfits hstart hn
  have hindex := index_lt hl hfits
  have hmeets : Meets c.follower n := (meets_iff (by omega) (by omega)).mpr hend
  have hturn := (turn_eq (by rw [hnext]) (by omega) hat _ rfl).1 hmeets
  rcases RaftLog.putEntry_eq hf (sentEntry leader c.nextindex e) with
    ⟨hno, -⟩ | ⟨-, q, -, hq, -, hlist, hput⟩
  · rw [haccepts] at hno
    cases hno
  · rw [hput, Option.getD_some] at hturn
    refine ⟨_, hturn, by rw [hnext]; push_cast; rfl, rfl, rfl, hq, ?_, ?_⟩
    · show (c.follower.index + 1) % 2 ^ 64 = n + 1
      omega
    · show q.toList.map content = _
      rw [hlist, List.map_append, contents, contents, List.getElem?_map, he]
      rfl

/-- **A refused call** goes one entry back. -/
theorem turn_refused (hl : leader.Inv) (hfits : Fits leader) (hstart : leader.startIndex ≤ n)
    (hn : n < leader.index) (hnext : c.nextindex = n) (hf : c.follower.index ≤ leader.index)
    (hne : n ≠ c.follower.index) :
    c.turn leader = some ⟨(n : Int) - 1, c.follower, c.asked ++ [n + 1], false⟩ := by
  obtain ⟨e, hat, -⟩ := at_succ hl hfits hstart hn
  have hindex := index_lt hl hfits
  have hno : ¬ Meets c.follower n := fun hm => hne ((meets_iff (by omega) (by omega)).mp hm)
  rw [(turn_eq (by rw [hnext]) (by omega) hat _ rfl).2 hno, hnext]

theorem call_cases {delivery : Delivery} (h : c.call leader delivery = some d) :
    ∃ t, c.turn leader = some t ∧
      (delivery = .answered ∧ d = t ∨ delivery = .lost ∧ d = { c with asked := t.asked } ∨
        delivery = .unanswered ∧ d = { c with follower := t.follower, asked := t.asked }) := by
  cases delivery with
  | answered => exact ⟨d, h, Or.inl ⟨rfl, rfl⟩⟩
  | lost =>
    obtain ⟨t, ht, rfl⟩ := Option.map_eq_some_iff.mp h
    exact ⟨t, ht, Or.inr (Or.inl ⟨rfl, rfl⟩)⟩
  | unanswered =>
    obtain ⟨t, ht, rfl⟩ := Option.map_eq_some_iff.mp h
    exact ⟨t, ht, Or.inr (Or.inr ⟨rfl, rfl⟩)⟩

end

/-! ### As long as the answers arrive -/

/-- The follower would take the entry of the next call. -/
def Accepting (s : Stream) : Prop := (s.thread.turn s.leader).any CatchUp.matched = true

instance (s : Stream) : Decidable s.Accepting := inferInstanceAs (Decidable (_ = true))

/-- The follower's log has room, and the answer to an accepted call arrives. -/
def AnswersKept (s : Stream) : Act → Prop
  | .call delivery =>
    s.thread.follower.accepts = true ∧ (delivery = .unanswered → ¬ s.Accepting)
  | _ => True

instance (s : Stream) : DecidablePred s.AnswersKept
  | .call _ => inferInstanceAs (Decidable (_ ∧ _))
  | .leader _ => isTrue trivial
  | .again => isTrue trivial

/-- How many answers are needed until the follower has all entries. -/
def distance (s : Stream) : Nat :=
  (s.thread.nextindex - s.thread.follower.index).toNat +
    (s.leader.index - s.thread.follower.index)

/-- The thread goes from `nextindex_`, `gap` entries beyond the follower's log. -/
structure Follows (leader follower : RaftLog) (gap : Nat) (s : Stream) : Prop where
  inv : s.leader.Inv
  fits : Fits s.leader
  start_eq : s.leader.startIndex = leader.startIndex
  index_le : leader.index ≤ s.leader.index
  queue : s.thread.follower.queue.Ok
  nextindex_eq : s.thread.nextindex = (s.thread.follower.index + gap : Nat)
  /-- The search is over when something was taken. -/
  searching : gap = 0 ∨ s.thread.follower.index = follower.index
  start_le : leader.startIndex ≤ follower.index
  follower_le : follower.index ≤ s.thread.follower.index
  next_le : s.thread.follower.index + gap ≤ s.leader.index
  next_lt : s.thread.matched = false → s.thread.follower.index + gap < s.leader.index
  contents_eq : contents s.thread.follower = contents follower ++
    ((contents s.leader).drop (follower.index - leader.startIndex)).take
      (s.thread.follower.index - follower.index)
  asked : AsksInside s.leader s.thread

section

variable {leader follower : RaftLog} {gap : Nat} {s t : Stream}

theorem Follows.distance_eq (h : Follows leader follower gap s) :
    s.distance = gap + (s.leader.index - s.thread.follower.index) := by
  have hnext := h.nextindex_eq
  push_cast at hnext
  rw [distance]
  omega

theorem Follows.leads (h : Follows leader follower gap s) {op : RaftLog.Op}
    (ht : s.step (.leader op) = some t) :
    Follows leader follower gap t ∧
      t.distance = s.distance + (t.leader.index - s.leader.index) ∧
      s.leader.index ≤ t.leader.index := by
  rw [Stream.step] at ht
  split at ht
  · rename_i hop
    obtain ⟨l, hl, rfl⟩ := Option.map_eq_some_iff.mp ht
    obtain ⟨hinv, hstart, hprefix, hindex⟩ := leader_step hop h.inv h.fits hl
    have hnextLe := h.next_le
    have hfits : Fits l := by
      rw [Fits, hstart]
      exact h.fits
    have hfollows : Follows leader follower gap ⟨l, s.thread⟩ := by
      refine ⟨hinv, hfits, hstart.trans h.start_eq, h.index_le.trans hindex, h.queue,
        h.nextindex_eq, h.searching, h.start_le, h.follower_le, hnextLe.trans hindex,
        fun hm => (h.next_lt hm).trans_le hindex, ?_, h.asked.mono hstart hindex⟩
      -- what was taken over is still there
      obtain ⟨new, hnew⟩ := hprefix
      have hlen := length_entries h.inv
      have hle := h.follower_le
      have hst := h.start_le
      have hse := h.start_eq
      have hcontents : contents l = contents s.leader ++ new.map content := by
        rw [contents, ← hnew, List.map_append]
        rfl
      rw [h.contents_eq, hcontents, List.drop_append_of_le_length, List.take_append_of_le_length]
      · rw [List.length_drop, contents, List.length_map, hlen]
        dsimp only
        omega
      · rw [contents, List.length_map, hlen]
        omega
    refine ⟨hfollows, ?_, hindex⟩
    rw [hfollows.distance_eq, h.distance_eq]
    dsimp only
    omega
  · cases ht

theorem Follows.again (h : Follows leader follower gap s) (ht : s.step .again = some t) :
    Follows leader follower gap t ∧ t.distance = s.distance ∧ t.leader = s.leader := by
  rw [Stream.step] at ht
  split at ht
  · rename_i hgo
    obtain rfl := Option.some.inj ht
    refine ⟨?_, rfl, rfl⟩
    have hnext := hgo.2
    have hindex := index_lt h.inv h.fits
    have hle := h.next_le
    rw [h.nextindex_eq, toSizeT_natCast (by omega)] at hnext
    exact ⟨h.inv, h.fits, h.start_eq, h.index_le, h.queue, h.nextindex_eq, h.searching, h.start_le,
      h.follower_le, h.next_le, fun _ => hnext, h.contents_eq, h.asked⟩
  · cases ht

theorem Follows.repeated (h : Follows leader follower gap s) (hm : s.thread.matched = false)
    {asked : List Nat}
    (hasked : asked = s.thread.asked ++ [s.thread.follower.index + gap + 1]) :
    Follows leader follower gap ⟨s.leader, { s.thread with asked := asked }⟩ := by
  have hstart := h.start_le.trans (h.follower_le.trans (Nat.le_add_right _ gap))
  refine ⟨h.inv, h.fits, h.start_eq, h.index_le, h.queue, h.nextindex_eq, h.searching, h.start_le,
    h.follower_le, h.next_le, h.next_lt, h.contents_eq, ?_⟩
  exact h.asked.concat (n := s.thread.follower.index + gap) (h.start_eq ▸ hstart) (h.next_lt hm)
    hasked

theorem Follows.turn_refused (h : Follows leader follower gap s) (hm : s.thread.matched = false)
    (hgap : gap ≠ 0) :
    s.thread.turn s.leader = some ⟨((s.thread.follower.index + gap : Nat) : Int) - 1,
      s.thread.follower, s.thread.asked ++ [s.thread.follower.index + gap + 1], false⟩ := by
  have hstart := h.start_le
  have hfollower := h.follower_le
  have hstartEq := h.start_eq
  have hnext := h.next_lt hm
  exact Stream.turn_refused h.inv h.fits (by omega) hnext h.nextindex_eq (by omega) (by omega)

theorem Follows.turn_accepted (h : Follows leader follower 0 s) (hm : s.thread.matched = false)
    (haccepts : s.thread.follower.accepts = true) :
    ∃ c, s.thread.turn s.leader = some c ∧ c.matched = true ∧
      c.follower.index = s.thread.follower.index + 1 ∧
      Follows leader follower 0 ⟨s.leader, c⟩ := by
  have hnext : s.thread.follower.index < s.leader.index := h.next_lt hm
  have hstart := h.start_le
  have hfollower := h.follower_le
  have hstartEq := h.start_eq
  obtain ⟨c, hc, hcnext, hcm, hcasked, hcq, hcindex, hccontents⟩ :=
    Stream.turn_accepted h.inv h.fits (by omega) hnext h.nextindex_eq rfl h.queue haccepts
  refine ⟨c, hc, hcm, hcindex, h.inv, h.fits, h.start_eq, h.index_le, hcq, ?_, Or.inl rfl,
    h.start_le, by dsimp only; omega, by dsimp only; omega, ?_, ?_, ?_⟩
  · dsimp only
    rw [hcnext, hcindex, Nat.add_zero]
  · intro hno
    rw [hcm] at hno
    cases hno
  · -- the entry that was taken is the next of the leader's
    have hone : s.thread.follower.index + 1 - follower.index =
        (s.thread.follower.index - follower.index) + 1 := by omega
    have hplace : s.thread.follower.index - s.leader.startIndex =
        follower.index - leader.startIndex +
          (s.thread.follower.index - follower.index) := by omega
    dsimp only
    rw [hccontents, h.contents_eq, hcindex, hone, List.take_add_one, List.getElem?_drop, hplace,
      List.append_assoc]
  · exact h.asked.concat (by omega) hnext hcasked

theorem Follows.answered (h : Follows leader follower gap s) (hm : s.thread.matched = false)
    (haccepts : s.thread.follower.accepts = true) {c : CatchUp}
    (hc : s.thread.turn s.leader = some c) :
    ∃ gap', Follows leader follower gap' ⟨s.leader, c⟩ ∧
      1 + (gap' + (s.leader.index - c.follower.index)) =
        gap + (s.leader.index - s.thread.follower.index) := by
  by_cases hgap : gap = 0
  · subst hgap
    have hnext := h.next_lt hm
    obtain ⟨t, ht, -, htindex, hf⟩ := h.turn_accepted hm haccepts
    obtain rfl := Option.some.inj (ht.symm.trans hc)
    exact ⟨0, hf, by omega⟩
  · have hnext := h.next_lt hm
    have hstart := h.start_le
    have hfollower := h.follower_le
    have hstartEq := h.start_eq
    have hindex : s.thread.follower.index = follower.index := h.searching.resolve_left hgap
    obtain rfl := Option.some.inj ((h.turn_refused hm hgap).symm.trans hc)
    refine ⟨gap - 1, ?_, by dsimp only; omega⟩
    refine ⟨h.inv, h.fits, h.start_eq, h.index_le, h.queue, ?_, Or.inr hindex, h.start_le,
      h.follower_le, by dsimp only; omega, fun _ => by dsimp only; omega, h.contents_eq, ?_⟩
    · dsimp only
      push_cast
      omega
    · exact h.asked.concat (by omega) hnext rfl

/-- Answers to come. -/
def Act.isAnswered : Act → Bool
  | .call .answered => true
  | _ => false

/-- **A call** that is answered brings the thread one step closer. -/
theorem Follows.call (h : Follows leader follower gap s) {delivery : Delivery}
    (hok : s.AnswersKept (.call delivery)) (ht : s.step (.call delivery) = some t) :
    ∃ gap', Follows leader follower gap' t ∧ t.leader = s.leader ∧
      (if (Act.call delivery).isAnswered then 1 else 0) + t.distance = s.distance := by
  obtain ⟨haccepts, hkept⟩ := hok
  rw [Stream.step] at ht
  split at ht
  · cases ht
  · rename_i hm
    have hm' := Bool.eq_false_iff.mpr hm
    obtain ⟨c, hc, rfl⟩ := Option.map_eq_some_iff.mp ht
    obtain ⟨u, hu, ⟨rfl, rfl⟩ | ⟨rfl, rfl⟩ | ⟨rfl, rfl⟩⟩ := call_cases hc
    · obtain ⟨gap', hf, hdist⟩ := h.answered hm' haccepts hu
      refine ⟨gap', hf, rfl, ?_⟩
      rw [hf.distance_eq, h.distance_eq]
      exact hdist
    all_goals
      have hnext := h.next_lt hm'
      have hindex := index_lt h.inv h.fits
      have hasked : u.asked = s.thread.asked ++ [s.thread.follower.index + gap + 1] := by
        rw [asked_of_turn hu, h.nextindex_eq, toSizeT_next rfl (by omega) (by omega)]
        rfl
    · have hf := h.repeated hm' hasked
      refine ⟨gap, hf, rfl, ?_⟩
      rw [hf.distance_eq, h.distance_eq]
      exact Nat.zero_add _
    · by_cases hgap : gap = 0
      · -- the entry would be taken
        subst hgap
        obtain ⟨v, hv, hvm, -⟩ := h.turn_accepted hm' haccepts
        refine absurd ?_ (hkept rfl)
        rw [Accepting, hv, Option.any_some]
        exact hvm
      · have hf := h.repeated hm' hasked
        have hfollower : u.follower = s.thread.follower := by
          obtain rfl := Option.some.inj ((h.turn_refused hm' hgap).symm.trans hu)
          rfl
        rw [hfollower]
        refine ⟨gap, hf, rfl, ?_⟩
        rw [hf.distance_eq, h.distance_eq]
        exact Nat.zero_add _

/-- **Every step keeps the thread on the follower's log.** -/
theorem Follows.step (h : Follows leader follower gap s) {a : Act} (hok : s.AnswersKept a)
    (ht : s.step a = some t) :
    ∃ gap', Follows leader follower gap' t ∧ s.leader.index ≤ t.leader.index ∧
      (if a.isAnswered then 1 else 0) + t.distance =
        s.distance + (t.leader.index - s.leader.index) := by
  cases a with
  | leader op =>
    obtain ⟨hf, hdist, hindex⟩ := h.leads ht
    refine ⟨gap, hf, hindex, ?_⟩
    rw [hdist]
    exact Nat.zero_add _
  | call delivery =>
    obtain ⟨gap', hf, hleader, hdist⟩ := h.call hok ht
    refine ⟨gap', hf, by rw [hleader], ?_⟩
    rw [hdist, hleader, Nat.sub_self, Nat.add_zero]
  | again =>
    obtain ⟨hf, hdist, hleader⟩ := h.again ht
    refine ⟨gap, hf, by rw [hleader], ?_⟩
    rw [hdist, hleader, Nat.sub_self, Nat.add_zero]
    exact Nat.zero_add _

theorem follows_start (hl : leader.Inv) (hfits : Fits leader) (hf : follower.queue.Ok)
    (hstart : leader.startIndex ≤ follower.index) (hend : follower.index ≤ leader.commited) :
    Follows leader follower (leader.commited - follower.index) (start leader follower) := by
  have hcommited := hl.2.commited_le
  have hindex := index_lt hl hfits
  refine ⟨hl, hfits, rfl, le_refl _, hf, ?_, Or.inr rfl, hstart, le_refl _, ?_, by simp [start], ?_,
    by simp [AsksInside, start, CatchUp.start]⟩
  · simp only [start, CatchUp.start]
    rw [Nat.add_sub_cancel' hend]
    exact toInt64_of_nonneg (by omega) (by omega)
  · show follower.index + (leader.commited - follower.index) ≤ leader.index
    omega
  · show contents follower = contents follower ++ List.take (follower.index - follower.index) _
    rw [Nat.sub_self, List.take_zero, List.append_nil]

theorem follows_of_run (h : Follows leader follower gap s) {as : List Act}
    (hr : run Stream.step s as = some t) (hok : StepsOk Stream.step AnswersKept s as) :
    ∃ gap', Follows leader follower gap' t ∧ s.leader.index ≤ t.leader.index ∧
      as.countP Act.isAnswered + t.distance =
        s.distance + (t.leader.index - s.leader.index) := by
  induction as generalizing s gap with
  | nil =>
    obtain rfl := Option.some.inj hr
    exact ⟨gap, h, le_refl _, by simp⟩
  | cons a as ih =>
    obtain ⟨u, hu, hr⟩ := Option.bind_eq_some_iff.mp hr
    obtain ⟨gap₁, h₁, hle₁, hdist₁⟩ := h.step hok.1 hu
    obtain ⟨gap₂, h₂, hle₂, hdist₂⟩ := ih h₁ hr (hok.2 u hu)
    refine ⟨gap₂, h₂, hle₁.trans hle₂, ?_⟩
    rw [List.countP_cons]
    omega

/-- The thread has a next step as long as entries are left. -/
theorem Follows.exists_step (h : Follows leader follower gap s)
    (hleft : s.thread.nextindex < s.leader.index) :
    (s.step .again).isSome ∨ ∀ delivery, (s.step (.call delivery)).isSome := by
  have hindex := index_lt h.inv h.fits
  have hnext := h.nextindex_eq
  cases hm : s.thread.matched with
  | true =>
    refine Or.inl ?_
    have hlt : toSizeT s.thread.nextindex < s.leader.index := by
      rw [hnext, toSizeT_natCast (by omega)]
      omega
    rw [Stream.step, if_pos ⟨hm, hlt⟩]
    rfl
  | false =>
    refine Or.inr ?_
    intro delivery
    have hstart := h.start_le
    have hfollower := h.follower_le
    have hstartEq := h.start_eq
    obtain ⟨e, hat, -⟩ := at_succ h.inv h.fits (n := s.thread.follower.index + gap) (by omega)
      (h.next_lt hm)
    have hturn : (s.thread.turn s.leader).isSome := by
      rw [turn, hnext, toSizeT_next rfl (by omega) (by omega)]
      have hnat : ((s.thread.follower.index + gap : Nat) + 1 : Int).toNat =
          s.thread.follower.index + gap + 1 := by omega
      rw [hnat, hat]
      dsimp only
      split <;> rfl
    rw [Stream.step, hm, if_neg Bool.false_ne_true, Option.isSome_map]
    cases delivery with
    | answered => exact hturn
    | lost | unanswered => rwa [CatchUp.call, Option.isSome_map]

/-! ### After a lost answer -/

theorem turn_of_ne {c d : CatchUp} (h0 : 0 ≤ c.nextindex + 1) (h1 : c.nextindex + 1 < 2 ^ 31)
    (hf : c.follower.index + 1 < 2 ^ 64) (hne : c.nextindex ≠ c.follower.index)
    (h : c.turn leader = some d) :
    d = ⟨c.nextindex - 1, c.follower, c.asked ++ [toSizeT (c.nextindex + 1)], false⟩ := by
  rw [turn] at h
  split at h
  · cases h
  · rename_i e hat
    have hmismatch : Mismatch c.follower (sentEntry leader c.nextindex e) := by
      rw [Mismatch, sentEntry, toInt32_of_nonneg h0 h1, toSizeT_of_nonneg h0 (by omega),
        Nat.mod_eq_of_lt hf]
      omega
    rw [solveAppend_zero, if_pos hmismatch] at h
    exact (Option.some.inj h).symm

theorem at_before {l : RaftLog} (hl : l.Inv) (hfits : Fits l) {z : Int}
    (hz : z + 1 = (l.startIndex : Int) - 1) : l.at (toSizeT (z + 1)) = none := by
  have hindex := index_lt hl hfits
  have hhead := head_eq hl
  have hstart := start_le_index hl
  have hring := RingBufferQueue.ringBufferSize_eq
  rw [RaftLog.at, RingBufferQueue.rAt, hz, if_neg]
  unfold toSizeT
  omega

/-- The follower is ahead of the thread. -/
structure Stranded (leader behind : RaftLog) (s : Stream) : Prop where
  inv : s.leader.Inv
  fits : Fits s.leader
  start_eq : s.leader.startIndex = leader.startIndex
  follower_eq : s.thread.follower = behind
  index_le : behind.index ≤ s.leader.index
  notMatched : s.thread.matched = false
  next_lt : s.thread.nextindex < behind.index
  start_le : (leader.startIndex : Int) ≤ s.thread.nextindex + 2
  outside : s.thread.nextindex + 1 < leader.startIndex → leader.startIndex ∈ s.thread.asked

variable {behind : RaftLog}

theorem Stranded.start_le_of_turn (h : Stranded leader behind s) {c : CatchUp}
    (hc : s.thread.turn s.leader = some c) :
    (leader.startIndex : Int) ≤ s.thread.nextindex + 1 := by
  by_contra hlt
  have hstart := h.start_le
  have hnone := at_before h.inv h.fits (z := s.thread.nextindex) (by rw [h.start_eq]; omega)
  rw [turn, hnone] at hc
  cases hc

/-- **A stranded thread stays so**, and goes one back with every answer. -/
theorem Stranded.step (h : Stranded leader behind s) {a : Act} (ht : s.step a = some t) :
    Stranded leader behind t ∧
      (if a.isAnswered then 1 else 0) + t.thread.nextindex = s.thread.nextindex := by
  have hindex := index_lt h.inv h.fits
  have hbehind := h.index_le
  have hnext := h.next_lt
  cases a with
  | leader op =>
    rw [Stream.step] at ht
    split at ht
    · rename_i hop
      obtain ⟨l, hl, rfl⟩ := Option.map_eq_some_iff.mp ht
      obtain ⟨hinv, hstart, -, hle⟩ := leader_step hop h.inv h.fits hl
      have hfits : Fits l := by
        rw [Fits, hstart]
        exact h.fits
      exact ⟨⟨hinv, hfits, hstart.trans h.start_eq, h.follower_eq, hbehind.trans hle, h.notMatched,
        hnext, h.start_le, h.outside⟩, by simp [Act.isAnswered]⟩
    · cases ht
  | again =>
    rw [Stream.step, h.notMatched, if_neg (by simp)] at ht
    cases ht
  | call delivery =>
    rw [Stream.step, h.notMatched, if_neg Bool.false_ne_true] at ht
    obtain ⟨c, hc, rfl⟩ := Option.map_eq_some_iff.mp ht
    obtain ⟨u, hu, hcases⟩ := call_cases hc
    have hstart := h.start_le_of_turn hu
    have hfollower : s.thread.follower.index = behind.index := by rw [h.follower_eq]
    obtain rfl := turn_of_ne (by omega) (by omega) (by omega) (by omega) hu
    -- the first place is asked for on the way out of the log
    have houtside : s.thread.nextindex < leader.startIndex →
        leader.startIndex ∈ s.thread.asked ++ [toSizeT (s.thread.nextindex + 1)] := by
      intro hlt
      have heq : s.thread.nextindex + 1 = leader.startIndex := by omega
      have hst := start_le_index h.inv
      have hse := h.start_eq
      rw [heq, toSizeT_natCast (by omega)]
      exact List.mem_append_right _ List.mem_cons_self
    rcases hcases with ⟨rfl, rfl⟩ | ⟨rfl, rfl⟩ | ⟨rfl, rfl⟩
    · refine ⟨⟨h.inv, h.fits, h.start_eq, h.follower_eq, h.index_le, rfl, ?_, ?_, ?_⟩, ?_⟩
      · dsimp only
        omega
      · dsimp only
        omega
      · intro hlt
        dsimp only at hlt
        exact houtside (by omega)
      · show (1 : Int) + (s.thread.nextindex - 1) = s.thread.nextindex
        omega
    all_goals
      exact ⟨⟨h.inv, h.fits, h.start_eq, h.follower_eq, h.index_le, h.notMatched, hnext, h.start_le,
        fun hlt => List.mem_append_left _ (h.outside hlt)⟩, by simp [Act.isAnswered]⟩

theorem stranded_of_run (h : Stranded leader behind s) {bs : List Act}
    (hr : run Stream.step s bs = some t) :
    Stranded leader behind t ∧
      (bs.countP Act.isAnswered : Int) + t.thread.nextindex = s.thread.nextindex := by
  induction bs generalizing s with
  | nil =>
    obtain rfl := Option.some.inj hr
    exact ⟨h, by simp⟩
  | cons a bs ih =>
    obtain ⟨u, hu, hr⟩ := Option.bind_eq_some_iff.mp hr
    obtain ⟨h₁, hnext₁⟩ := h.step hu
    obtain ⟨h₂, hnext₂⟩ := ih h₁ hr
    refine ⟨h₂, ?_⟩
    rw [List.countP_cons]
    by_cases ha : a.isAnswered = true
    · rw [if_pos ha] at hnext₁ ⊢
      push_cast
      omega
    · rw [if_neg ha] at hnext₁ ⊢
      push_cast
      omega

/-- **The lost answer.** -/
theorem Follows.strand (h : Follows leader follower gap s)
    (haccepts : s.thread.follower.accepts = true) (hacc : s.Accepting)
    (ht : s.step (.call .unanswered) = some t) :
    Stranded leader t.thread.follower t ∧ t.thread.nextindex = s.thread.nextindex ∧
      (t.thread.follower.index : Int) = s.thread.nextindex + 1 := by
  rw [Stream.step] at ht
  split at ht
  · cases ht
  · rename_i hm
    have hm' := Bool.eq_false_iff.mpr hm
    obtain ⟨c, hc, rfl⟩ := Option.map_eq_some_iff.mp ht
    obtain ⟨u, hu, rfl⟩ := Option.map_eq_some_iff.mp hc
    by_cases hgap : gap = 0
    · subst hgap
      obtain ⟨v, hv, -, hvindex, hf⟩ := h.turn_accepted hm' haccepts
      obtain rfl := Option.some.inj (hu.symm.trans hv)
      have hnext : s.thread.nextindex = s.thread.follower.index := h.nextindex_eq
      have hstart := h.start_le
      have hfollower := h.follower_le
      have hle : u.follower.index ≤ s.leader.index := hf.next_le
      refine ⟨⟨h.inv, h.fits, h.start_eq, rfl, hle, hm', ?_, ?_, ?_⟩, rfl, ?_⟩
      all_goals dsimp only
      · omega
      · omega
      · intro hlt
        omega
      · omega
    · rw [Accepting, h.turn_refused hm' hgap] at hacc
      cases hacc

end

/-- Two entries, the first one committed. -/
def oneCommited : RaftLog := { firstEntries twoEntries 2 with commited := 1 }

theorem inv_oneCommited : oneCommited.Inv := ⟨⟨rfl, by decide⟩, by decide⟩

/-- The entry of the commit index is refused by an empty log, a request is lost, and the leader gets
another entry meanwhile. -/
def twoBrought : List Act :=
  [.again, .call .answered, .call .lost, .call .answered, .leader (.put [3] [30] 1), .again,
    .call .answered, .again, .call .lost]

/-- **One lost answer to an accepted call ends the replication.**  Whatever comes after it, the
follower gets nothing more from this thread: every call is refused and goes one entry back, and
after as many answers as there are places before the follower's end `At` leaves the array. -/
theorem stranded (leader follower : RaftLog) (hl : leader.Inv) (hfits : Fits leader)
    (hf : follower.queue.Ok) (hstart : leader.startIndex ≤ follower.index)
    (hend : follower.index ≤ leader.commited) (as bs : List Act) (s t u : Stream)
    (hr : run step (start leader follower) as = some s)
    (hok : StepsOk step AnswersKept (start leader follower) as)
    (haccepts : s.thread.follower.accepts = true) (hacc : s.Accepting)
    (ht : s.step (.call .unanswered) = some t) (hr' : run step t bs = some u) :
    u.thread.follower = t.thread.follower ∧ u.thread.matched = false ∧
      (bs.countP Act.isAnswered : Int) + u.thread.nextindex = s.thread.nextindex ∧
      bs.countP Act.isAnswered ≤ t.thread.follower.index + 1 - leader.startIndex ∧
      (bs.countP Act.isAnswered = t.thread.follower.index + 1 - leader.startIndex →
        ¬ AsksInside u.leader u.thread ∧ ∀ delivery, u.step (.call delivery) = none) := by
  obtain ⟨gap, h, -, -⟩ := follows_of_run (follows_start hl hfits hf hstart hend) hr hok
  obtain ⟨hstranded, hnext, hindex⟩ := h.strand haccepts hacc ht
  obtain ⟨hu, hcount⟩ := stranded_of_run hstranded hr'
  have hstartLe := hu.start_le
  rw [hnext] at hcount
  refine ⟨hu.follower_eq, hu.notMatched, hcount, by omega, ?_⟩
  intro hall
  have hout : u.thread.nextindex + 1 = (leader.startIndex : Int) - 1 := by omega
  refine ⟨?_, ?_⟩
  · intro hinside
    have hlt := (hinside _ (hu.outside (by omega))).1
    rw [hu.start_eq] at hlt
    exact lt_irrefl _ hlt
  · intro delivery
    have hnone : u.thread.turn u.leader = none := by
      rw [turn, at_before hu.inv hu.fits (by rw [hu.start_eq]; exact hout)]
    rw [step, hu.notMatched, if_neg Bool.false_ne_true]
    cases delivery <;> simp [CatchUp.call, hnone]

/-- The answer for the first entry is lost; two answers later the thread is at the edge of the
array, with the second entry not sent. -/
theorem stranded_sample :
    ∃ s t u, run step (start oneCommited (RaftLog.load 0)) [.again, .call .answered] = some s ∧
      s.step (.call .unanswered) = some t ∧
      run step t [.call .answered, .leader (.put [3] [30] 1), .call .answered] = some u ∧
      contents u.thread.follower = [(1, [1], [10])] ∧ ¬ AsksInside u.leader u.thread ∧
      ∀ delivery, u.step (.call delivery) = none := by
  have hrun : (run step (start oneCommited (RaftLog.load 0)) [.again, .call .answered]).any
      (fun s => s.thread.follower.accepts && decide s.Accepting &&
        (s.step (.call .unanswered)).any fun t =>
          t.thread.follower.index == 1 && contents t.thread.follower == [(1, [1], [10])] &&
          (run step t [.call .answered, .leader (.put [3] [30] 1), .call .answered]).isSome) =
      true := by decide +kernel
  rw [Option.any_eq_true] at hrun
  obtain ⟨s, hs, hrun⟩ := hrun
  rw [Bool.and_eq_true, Bool.and_eq_true, Option.any_eq_true] at hrun
  obtain ⟨⟨haccepts, hacc⟩, t, ht, hrun⟩ := hrun
  rw [Bool.and_eq_true, Bool.and_eq_true] at hrun
  obtain ⟨⟨hindex, hcontents⟩, hu⟩ := hrun
  obtain ⟨u, hu⟩ := Option.isSome_iff_exists.mp hu
  obtain ⟨hfollower, -, -, -, hout⟩ := stranded oneCommited (RaftLog.load 0) inv_oneCommited
    (by decide) (RingBufferQueue.ok_empty _) (by decide) (by decide) [.again, .call .answered]
    [.call .answered, .leader (.put [3] [30] 1), .call .answered] s t u hs (by decide +kernel)
    haccepts (of_decide_eq_true hacc) ht hu
  have hindex' : t.thread.follower.index = 1 := by simpa using hindex
  obtain ⟨hasks, hnone⟩ := hout (by rw [hindex']; decide)
  exact ⟨s, t, u, hs, ht, hu, by rw [hfollower]; simpa using hcontents, hasks, hnone⟩

end Stream

end Mokv.Raft
