import Mokv.Raft.Transport

/-!
# State machine safety

Apply threads apply the committed entries of their own logs.  Two of them apply the same
entries as long as what a pod takes for committed is held by a majority of the logs: two
such prefixes cannot disagree (`HeldByMajority.prefix_total`), and logs only grow.

A leader commits with a majority, so its own commits are of that kind.  A follower takes
commit indices from requests, and nothing in the code ties its log to the sender's: an
entry is accepted by its index alone, its commit index is not compared with the log, and
a heartbeat commits whatever the follower has.  `LogsAgreeOk` is what is missing.  With
it all apply threads agree (`applied_agree`); without it a deposed leader applies an
entry that was never replicated (`heartbeat_commits_foreign_entry`).
-/

namespace Mokv.Raft

open Lib

variable {N : Nat}

namespace Replicas

variable {γ : Type} {view : Int → Bytes → Bytes → γ} {r r' : Replicas N}

/-- Pods `i` and `f` have the same first `n` entries. -/
def Shared (view : Int → Bytes → Bytes → γ) (r : Replicas N) (i f : Fin N) (n : Nat) : Prop :=
  ∃ p : List γ, p.length = n ∧ p <+: r.contents view i ∧ p <+: r.contents view f

theorem Shared.down {i f : Fin N} {m n : Nat} (hmn : m ≤ n) (h : Shared view r i f n) :
    Shared view r i f m := by
  obtain ⟨p, hp, h1, h2⟩ := h
  refine ⟨p.take m, ?_, (List.take_prefix m p).trans h1, (List.take_prefix m p).trans h2⟩
  rw [List.length_take]
  omega

theorem Shared.mono (hg : ∀ i, (r.log i).Grows (r'.log i)) {i f : Fin N} {n : Nat}
    (h : Shared view r i f n) : Shared view r' i f n := by
  obtain ⟨p, hp, h1, h2⟩ := h
  exact ⟨p, hp, h1.trans (contents_isPrefix (hg i)), h2.trans (contents_isPrefix (hg f))⟩

/-! ### What has to hold of the steps -/

/-- The first `n` entries of the receiver are the sender's. -/
def AgreeUpTo (view : Int → Bytes → Bytes → γ) (r : Replicas N) (req : AppendReq N) (n : Nat) :
    Prop :=
  (r.contents view req.dst).take n <+: r.contents view req.id

/-- No refusal moves `nextindex_` below `0`; an entry is put behind a log that with it is a
prefix of the sender's, and does not promise more commits than the log then has; a commit
index is taken over only where the logs agree. -/
def logsAgree (view : Int → Bytes → Bytes → γ) (r : Replicas N) : Guard N where
  reject i f := 0 < r.nextindex i f
  put i req entry := r.contents view i ++ [entry.seen view] <+: r.contents view req.id ∧
    toSizeT entry.commited ≤ (r.log i).index + 1
  commit req := (r.log req.dst).commited < min (r.log req.dst).index (toSizeT req.commitedIndex) →
    AgreeUpTo view r req (min (r.log req.dst).index (toSizeT req.commitedIndex))
  stamp _ _ := True

/-! ### The invariant -/

/-- What every pod takes for committed is held by a majority, and what was applied was
committed. -/
structure Agreed (view : Int → Bytes → Bytes → γ) (r : Replicas N) : Prop where
  transport : Transport view (Shared view r) r
  commited_le : ∀ i, (r.log i).commited ≤ (r.log i).index
  last_le : ∀ i, (r.log i).lastAppend ≤ (r.log i).commited
  held : ∀ i, HeldByMajority (r.contents view) ((r.contents view i).take (r.log i).commited)
  applied : ∀ i, r.applied i = (r.log i).entries.take (r.log i).lastAppend

theorem Agreed.held_isPrefix (h : Agreed view r) {i : Fin N} {p : List γ}
    (hp : p <+: r.contents view i) (hlen : p.length ≤ (r.log i).commited) :
    HeldByMajority (r.contents view) p :=
  (h.held i).of_isPrefix (List.prefix_take_iff.mpr ⟨hp, hlen⟩)

theorem Agreed.held_counted (h : Agreed view r) {i : Fin N} {n : Nat}
    (hn : Counted (Shared view r) r i n) : HeldByMajority (r.contents view)
      ((r.contents view i).take (max (r.log i).commited (min (r.log i).index n))) := by
  rcases hn with hle | ⟨S, hS, hi, hg⟩
  · have hmax : max (r.log i).commited (min (r.log i).index n) = (r.log i).commited := by omega
    rw [hmax]
    exact h.held i
  · by_cases hle : n ≤ (r.log i).commited
    · have hmax : max (r.log i).commited (min (r.log i).index n) = (r.log i).commited := by omega
      rw [hmax]
      exact h.held i
    · have hmax : max (r.log i).commited (min (r.log i).index n) ≤ n := by omega
      refine HeldByMajority.of_isPrefix (l := (r.contents view i).take n) ⟨S, hS, ?_⟩
        (List.take_prefix_take_left hmax)
      intro g hgS
      by_cases hgi : g = i
      · rw [hgi]
        exact List.take_prefix _ _
      · obtain ⟨p, hp, h1, h2⟩ := hg g hgS hgi
        rw [← hp, ← List.prefix_iff_eq_take.mp h1]
        exact h2

/-- The log of one pod is replaced: what has to be shown of the new one. -/
theorem Agreed.setLog (h : Agreed view r) (ht : Transport view (Shared view r') r')
    (hg : ∀ j, (r.log j).Grows (r'.log j)) {i : Fin N} {l : RaftLog}
    (hlog : r'.log = (r.setLog i l).log) (hother : ∀ j, j ≠ i → r'.applied j = r.applied j)
    (hcom : l.commited ≤ l.index) (hlast : l.lastAppend ≤ l.commited)
    (hheld : HeldByMajority (r.contents view)
      ((l.entries.map (Entry.seen view)).take l.commited))
    (happ : r'.applied i = l.entries.take l.lastAppend) : Agreed view r' := by
  have hmono : ∀ p, HeldByMajority (r.contents view) p → HeldByMajority (r'.contents view) p :=
    fun p hp => hp.mono fun j => contents_isPrefix (hg j)
  have hi : r'.log i = l := by rw [hlog, setLog_log, if_pos rfl]
  have hne : ∀ j, j ≠ i → r'.log j = r.log j := fun j hj => by rw [hlog, setLog_log, if_neg hj]
  refine ⟨ht, fun j => ?_, fun j => ?_, fun j => ?_, fun j => ?_⟩ <;> by_cases hj : j = i
  · rw [hj, hi]
    exact hcom
  · rw [hne j hj]
    exact h.commited_le j
  · rw [hj, hi]
    exact hlast
  · rw [hne j hj]
    exact h.last_le j
  · rw [hj, contents, hi]
    exact hmono _ hheld
  · rw [contents, hne j hj]
    exact hmono _ (h.held j)
  · rw [hj, hi]
    exact happ
  · rw [hne j hj, hother j hj]
    exact h.applied j

theorem Agreed.append (h : Agreed view r) (ht : Transport view (Shared view r') r')
    (hg : ∀ j, (r.log j).Grows (r'.log j)) {i : Fin N} {l : RaftLog} {entry : Entry}
    (hlog : r'.log = (r.setLog i l).log) (happ : r'.applied = r.applied)
    (hent : l.entries = (r.log i).entries ++ [entry]) (hla : l.lastAppend = (r.log i).lastAppend)
    (hle : (r.log i).commited ≤ l.commited)
    (hcom : l.commited = (r.log i).commited ∨ l.commited ≤ (r.log i).index + 1 ∧
      HeldByMajority (r.contents view) ((l.entries.map (Entry.seen view)).take l.commited)) :
    Agreed view r' := by
  have hlen := (h.transport.shape i).length_entries
  have hshape : l.Shape := by
    have := (hg i).shape
    rw [hlog, setLog_log, if_pos rfl] at this
    exact this
  have hidx : l.index = (r.log i).index + 1 := by
    rw [← hshape.length_entries, hent, List.length_append, hlen, List.length_singleton]
  have hle' := h.commited_le i
  have hll := h.last_le i
  refine h.setLog ht hg hlog (fun j _ => by rw [happ]) (by omega) (by omega) ?_ ?_
  · rcases hcom with hcom | ⟨-, hheld⟩
    · rw [hent, hcom, List.map_append, List.take_append_of_le_length]
      · exact h.held i
      · rw [List.length_map, hlen]
        exact hle'
    · exact hheld
  · rw [happ, hent, hla, List.take_append_of_le_length (by omega)]
    exact h.applied i

theorem Agreed.updateCommit (h : Agreed view r) (ht : Transport view (Shared view r') r')
    (hg : ∀ j, (r.log j).Grows (r'.log j)) {i : Fin N} {n : Nat}
    (hlog : r'.log = (r.setLog i ((r.log i).updateCommit n)).log) (happ : r'.applied = r.applied)
    (hheld : HeldByMajority (r.contents view)
      ((r.contents view i).take (max (r.log i).commited (min (r.log i).index n)))) :
    Agreed view r' := by
  have hle := h.commited_le i
  have hll := h.last_le i
  refine h.setLog ht hg hlog (fun j _ => by rw [happ]) ?_ ?_ hheld (by rw [happ]; exact h.applied i)
  · simp only [RaftLog.updateCommit]
    omega
  · simp only [RaftLog.updateCommit]
    omega

/-- **The moves keep the logs in agreement.** -/
theorem Agreed.move {pod : Fin N → Pod N} (h : Agreed view r)
    (hm : Move (logsAgree view r) pod r r') : Agreed view r' := by
  have he := h.transport.effect hm
  have hg := he.grows h.transport
  have ht : Transport view (Shared view r') r' := by
    refine (h.transport.mono fun i f n hs => hs.mono hg).move (fun i f m n hmn hs => hs.down hmn) hm
      (fun i f hrej => hrej) ?_
    intro i call req entry k hput hth hs hdst he hidx hk hsync hlog
    have hmem := List.mem_of_getElem? hs
    obtain ⟨hlen, hpre⟩ := h.transport.take_of_put hmem he hk hput.1 hg hlog
    exact ⟨_, hlen, hpre, List.take_prefix _ _⟩
  cases he with
  | quiet hlog happ hcom =>
    have hc : r'.contents view = r.contents view := by
      funext j
      rw [contents, hlog, contents]
    refine ⟨ht, ?_, ?_, ?_, ?_⟩ <;> intro j
    · rw [hlog]
      exact h.commited_le j
    · rw [hlog]
      exact h.last_le j
    · rw [hc, hlog]
      exact h.held j
    · rw [hlog, happ]
      exact h.applied j
  | innerPut i entry l hz hl hlog happ hcom =>
    have hlt : toSizeT entry.commited < RingBufferQueue.ringBufferSize := by
      rw [hz]
      decide
    obtain ⟨-, hent, hmax, hla⟩ := (h.transport.shape i).putEntry_some hlt hl
    have hcm : l.commited = (r.log i).commited := by
      rw [hmax, hz]
      exact Nat.max_eq_left (Nat.zero_le _)
    exact h.append ht hg hlog happ hent hla hcm.ge (Or.inl hcm)
  | commit i n hn hlog happ hcom => exact h.updateCommit ht hg hlog happ (h.held_counted hn)
  | take req hs hgu hlog happ hcom =>
    refine h.updateCommit ht hg hlog happ ?_
    have hle := (h.transport.sent req hs).commit
    by_cases hlt : (r.log req.dst).commited < min (r.log req.dst).index (toSizeT req.commitedIndex)
    · rw [Nat.max_eq_right hlt.le]
      refine h.held_isPrefix (hgu hlt) ?_
      rw [List.length_take]
      omega
    · rw [Nat.max_eq_left (Nat.le_of_not_lt hlt)]
      exact h.held req.dst
  | putEntry i req entry hs he hgu hlog happ hcom =>
    obtain ⟨hent, hcm, hla⟩ := h.transport.putEntry_of_isPrefix hs he hgu.1
    have hstamp := ((h.transport.sent req hs).entry entry he).1
    refine h.append ht hg hlog happ hent hla (by omega) ?_
    by_cases hlt : (r.log i).commited < toSizeT entry.commited
    · have hmax :
          (((r.log i).putEntry entry).getD (r.log i)).commited = toSizeT entry.commited := by
        omega
      refine Or.inr ⟨by rw [hmax]; exact hgu.2, ?_⟩
      rw [hmax, hent, List.map_append]
      refine h.held_isPrefix ((List.take_prefix _ _).trans hgu.1) ?_
      rw [List.length_take]
      omega
    · exact Or.inl (by omega)
  | apply i l entry ha hlog happ hcom =>
    obtain ⟨-, hent, hcm, hla, hlt, hget⟩ := (h.transport.shape i).apply ha
    have hle := h.commited_le i
    have hidx : l.index = (r.log i).index := by
      have := (hg i).shape
      rw [hlog, setLog_log, if_pos rfl] at this
      rw [← this.length_entries, hent, (h.transport.shape i).length_entries]
    refine h.setLog ht hg hlog (fun j hj => by rw [happ, Function.update_of_ne hj]) (by omega)
      (by omega) ?_ ?_
    · rw [hent, hcm]
      exact h.held i
    · rw [happ, Function.update_self, hent, hla, List.take_add_one, hget (by omega), h.applied i]
      rfl

theorem agreed_init : Agreed view (init N) := by
  refine ⟨transport_init, fun _ => le_refl _, fun _ => le_refl _, ?_, fun _ => rfl⟩
  intro i
  refine ⟨Finset.univ, ?_, fun p _ => List.nil_prefix⟩
  have hpos : 0 < N := i.pos
  rw [Majority, Finset.card_univ, Fintype.card_fin]
  omega

end Replicas

/-! ### Runs -/

namespace Cluster

open Replicas

/-- Key and value of an entry. -/
def keyValue : Int → Bytes → Bytes → Bytes × Bytes := fun _ key value => (key, value)

/-- The step does not move `nextindex_` below `0`, puts entries only behind a log that
agrees with the sender's and with no more commits than the log has, and takes over a
commit index only where the logs agree. -/
def LogsAgreeOk (s : Cluster N) (a : Action N) : Prop :=
  (∀ x ∈ a.rejected, 0 < s.rep.nextindex x.1 x.2) ∧
  (∀ i ∈ a.putter, ∀ x ∈ s.rep.putReq i,
    s.rep.contents keyValue i ++ [x.2.seen keyValue] <+: s.rep.contents keyValue x.1.id ∧
      toSizeT x.2.commited ≤ (s.rep.log i).index + 1) ∧
  ∀ req ∈ s.commitReq a,
    (s.rep.log req.dst).commited < min (s.rep.log req.dst).index (toSizeT req.commitedIndex) →
      (s.rep.contents keyValue req.dst).take
        (min (s.rep.log req.dst).index (toSizeT req.commitedIndex)) <+:
          s.rep.contents keyValue req.id

instance (s : Cluster N) (a : Action N) : Decidable (s.LogsAgreeOk a) :=
  inferInstanceAs (Decidable (_ ∧ _ ∧ _))

theorem LogsAgreeOk.guarded {s : Cluster N} {a : Action N} (h : s.LogsAgreeOk a) :
    s.Guarded (logsAgree keyValue s.rep) a := ⟨h.1, h.2.1, h.2.2, fun _ _ => trivial⟩

/-- The invariant of the logs. -/
structure LogInv (s : Cluster N) : Prop where
  plain : s.Plain
  agreed : Agreed keyValue s.rep

theorem logInv_init : (init N).LogInv := ⟨plain_init, agreed_init⟩

theorem LogInv.step {s t : Cluster N} {a : Action N} (h : s.LogInv) (hok : s.LogsAgreeOk a)
    (hstep : s.step a = some t) : t.LogInv := by
  refine ⟨h.plain.step hstep, ?_⟩
  rcases rep_move_of_step h.plain.entries h.plain.noSelf hok.guarded hstep with he | hm
  · rw [he]
    exact h.agreed
  · exact h.agreed.move hm

theorem LogInv.applied_isPrefix {s : Cluster N} (h : s.LogInv) (i : Fin N) :
    (s.rep.applied i).map (Entry.seen keyValue) <+:
      (s.rep.contents keyValue i).take (s.rep.log i).commited := by
  rw [h.agreed.applied i, List.map_take]
  exact List.take_prefix_take_left (h.agreed.last_le i)

/-- **Apply threads agree.**  In a run whose steps meet `LogsAgreeOk`, what two pods have
applied at an index has the same key and value. -/
theorem applied_agree {as : List (Action N)} {s : Cluster N}
    (hok : StepsOk step LogsAgreeOk (init N) as) (hr : run step (init N) as = some s)
    {i j : Fin N} {k : Nat} {e e' : Entry} (hi : (s.rep.applied i)[k]? = some e)
    (hj : (s.rep.applied j)[k]? = some e') : e.key = e'.key ∧ e.value = e'.value := by
  have hinv : s.LogInv := run_invariant logInv_init (fun _ _ _ h ha hs => h.step ha hs) hr hok
  have hmap : ∀ p x, (s.rep.applied p)[k]? = some x →
      ((s.rep.contents keyValue p).take (s.rep.log p).commited)[k]? = some (x.key, x.value) := by
    intro p x hx
    refine getElem?_of_isPrefix (hinv.applied_isPrefix p) ?_
    rw [List.getElem?_map, hx]
    rfl
  have hpair : (e.key, e.value) = (e'.key, e'.value) := by
    rcases (hinv.agreed.held i).prefix_total (hinv.agreed.held j) with hp | hp
    · exact Option.some.inj ((getElem?_of_isPrefix hp (hmap i e hi)).symm.trans (hmap j e' hj))
    · exact Option.some.inj ((hmap i e hi).symm.trans (getElem?_of_isPrefix hp (hmap j e' hj)))
  exact ⟨congrArg Prod.fst hpair, congrArg Prod.snd hpair⟩

/-- Pod `i` is elected in term 1 with the votes of pods `j` and `k`, and starts their threads. -/
def firstElection (i j k : Fin 3) : List (Action 3) := List.flatten
  [[.elect (.timeOut i), .elect (.requestVote i)], Action.ask i, Action.test 0 j,
    [.elect (.storeTerm j), .elect (.voteStopped j), .elect (.voteAnswered i 0)], Action.ask i,
    Action.test 1 k,
    [.elect (.storeTerm k), .elect (.voteStopped k), .elect (.voteAnswered i 0),
      .elect (.countTickets i), .promote i, .promote i, .promote i]]

/-- A client puts an entry into the log of pod `i`. -/
def firstPut (i : Fin 3) : List (Action 3) :=
  [.replicate (.put i 0 [1] [10]), .replicate (.putTerm i 0), .replicate (.innerPut i 0)]

/-- Of three pods, pod `0` becomes leader of term 1 with the votes of the others, and a
client puts an entry into its log. -/
def firstLeader : List (Action 3) := firstElection 0 1 2 ++ firstPut 0

/-- Pod `0` sends its entry to pod `1` and commits it. -/
def firstCommit : List (Action 3) :=
  [.replicate (.syncCheck 0 1), .replicate (.syncSend 0 1), .solveAppend 0,
    .replicate (.updateRaftLog 1), .replicate (.putEntry 1), .replicate (.syncAnswered 0 1 0),
    .replicate (.syncCount 0 1), .replicate (.syncCommit 0 1)]

/-- A heartbeat tells pod `1`, and both apply the entry. -/
def firstApply : List (Action 3) :=
  [.elect (.startBeat 0), .elect (.readTerm 0), .sendHeartBeat 0, .solveAppend 1,
    .replicate (.apply 0), .replicate (.apply 1)]

theorem applied_agree_first :
    ∃ s e e', run step (init 3) (firstLeader ++ firstCommit ++ firstApply) = some s ∧
      (s.rep.applied 0)[0]? = some e ∧ (s.rep.applied 1)[0]? = some e' ∧
      e.key = e'.key ∧ e.value = e'.value := by
  obtain ⟨s, hs⟩ : ∃ s, run step (init 3) (firstLeader ++ firstCommit ++ firstApply) = some s :=
    Option.isSome_iff_exists.mp (by decide)
  have hmap : (run step (init 3) (firstLeader ++ firstCommit ++ firstApply)).map
      (fun s => (s.rep.applied 0, s.rep.applied 1)) =
        some ([⟨1, 1, [1], [10], 0, 0⟩], [⟨1, 1, [1], [10], 0, 0⟩]) := by decide
  rw [hs] at hmap
  simp only [Option.map_some, Option.some.injEq, Prod.mk.injEq] at hmap
  have he : (s.rep.applied 0)[0]? = some ⟨1, 1, [1], [10], 0, 0⟩ := by rw [hmap.1]; rfl
  have he' : (s.rep.applied 1)[0]? = some ⟨1, 1, [1], [10], 0, 0⟩ := by rw [hmap.2]; rfl
  exact ⟨s, _, _, hs, he, he', applied_agree (by decide) hs he he'⟩

/-- Before pod `l` has replicated its entry, pod `i` becomes leader of term 2 with the vote
of pod `f` and commits another entry with it.  A heartbeat then carries the commit index to
pod `l`, which steps down. -/
def secondLeader (l i f : Fin 3) : List (Action 3) := List.flatten
  [[.elect (.timeOut i), .elect (.requestVote i)], Action.ask i, [.elect (.voteFailed i)],
    Action.ask i, Action.test 3 f,
    [.elect (.storeTerm f), .elect (.voteStopped f), .elect (.voteAnswered i 0),
      .elect (.countTickets i), .promote i, .promote i, .promote i,
      .replicate (.put i 0 [2] [20]), .replicate (.putTerm i 0), .replicate (.innerPut i 0),
      .replicate (.syncCheck i f), .replicate (.syncSend i f), .solveAppend 0,
      .replicate (.updateRaftLog f), .replicate (.putEntry f), .replicate (.syncAnswered i f 0),
      .replicate (.syncCount i f), .replicate (.syncCommit i f), .elect (.startBeat i),
      .elect (.readTerm i), .sendHeartBeat i, .solveAppend 1, .elect (.storeTerm l), .join l,
      .join l, .appendStopped l, .replicate (.apply l), .replicate (.apply i)]]

/-- **Two pods apply different entries at index 1**: the heartbeat makes pod `0` apply the
entry it never replicated. -/
theorem heartbeat_commits_foreign_entry :
    ∃ s e e', run step (init 3) (firstLeader ++ secondLeader 0 1 2) = some s ∧
      (s.rep.applied 0)[0]? = some e ∧ (s.rep.applied 1)[0]? = some e' ∧
      e.key = [1] ∧ e'.key = [2] := by
  obtain ⟨s, hs⟩ : ∃ s, run step (init 3) (firstLeader ++ secondLeader 0 1 2) = some s :=
    Option.isSome_iff_exists.mp (by decide)
  have hmap : (run step (init 3) (firstLeader ++ secondLeader 0 1 2)).map
      (fun s => (s.rep.applied 0, s.rep.applied 1)) =
        some ([⟨1, 1, [1], [10], 0, 0⟩], [⟨2, 1, [2], [20], 0, 0⟩]) := by decide
  rw [hs] at hmap
  simp only [Option.map_some, Option.some.injEq, Prod.mk.injEq] at hmap
  exact ⟨s, _, _, hs, by rw [hmap.1]; rfl, by rw [hmap.2]; rfl, rfl, rfl⟩

end Cluster

end Mokv.Raft
