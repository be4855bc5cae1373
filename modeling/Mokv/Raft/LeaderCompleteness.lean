import Mokv.Raft.ElectionSafety
import Mokv.Raft.StateMachineSafety

/-!
# Leader completeness

What a leader commits is held by a majority, and a later leader is elected by a majority.
A pod in both holds the committed entries and voted for the later leader, so it is enough
that no vote goes to a pod whose log lacks something the voter holds, and that no pod
takes entries from a leader older than a vote it has given.

The code checks neither.  `Vote` compares logs only within a term, and then by length;
`SolveAppend` accepts entries of any leader, since requests with entries carry no term.
In `committed_entry_lost` a pod with an empty log is elected after an entry was
committed.  Where the steps meet `CompletenessOk`, every later leader has the committed
entries (`leader_completeness`).

The proof gives `Transport` a stronger meaning: follower `f` holds entries of leader `i`
*safely*, which is that every later candidate with the vote of `f` has them too (`Safe`).
-/

namespace Mokv.Raft

open Lib

variable {N : Nat}

/-! ### Threads run at leaders only -/

namespace Elections

theorem setPod_pod (e : Elections N) (i j : Fin N) (p : Pod N) :
    (e.setPod i p).pod j = if j = i then p else e.pod j := Function.update_apply ..

theorem Move.leader {G : Guard N} {e e' : Elections N} (hm : Move G e e') {i : Fin N}
    (hl : (e.pod i).status = .leader) :
    (e'.pod i).status = .leader ∨ ∃ cause call, (e.pod i).stopping = some ⟨[], cause, call⟩ := by
  cases hm with
  | timeOut j hw hnl =>
    refine Or.inl ?_
    rw [setPod_pod]
    split
    · rename_i hij
      exact absurd (hij ▸ hl) hnl
    · exact hl
  | voteStopped j call req hst =>
    by_cases hij : i = j
    · exact Or.inr ⟨_, _, hij ▸ hst⟩
    · exact Or.inl (by simp only [setPod_pod, if_neg hij]; exact hl)
  | adopted j leaderId call hst =>
    by_cases hij : i = j
    · exact Or.inr ⟨_, _, hij ▸ hst⟩
    · exact Or.inl (by simp only [setPod_pod, if_neg hij]; exact hl)
  | win j =>
    refine Or.inl ?_
    simp only [setPod_pod]
    split
    · rfl
    · exact hl
  | vote call req =>
    refine Or.inl ?_
    simp only [setPod_pod]
    split
    · rename_i hij
      exact hij ▸ hl
    · exact hl
  | quiet j | requestVote j | fill j | prepare j | call j | answer j | fail j | pass j | refuse j
  | grant j | newer j | take j | store j | join j =>
    refine Or.inl ?_
    simp only [setPod_pod]
    split
    · rename_i hij
      exact hij ▸ hl
    · exact hl

/-- The threads that a handler has still to join: as before, one less, or all of them. -/
theorem Move.stopping {G : Guard N} {e e' : Elections N} (hm : Move G e e')
    (hpr : ∀ i h, (e.pod i).holder = some h → ∀ rest, (e.pod i).thread ≠ .promoting rest)
    {i : Fin N} {st : Stopping N} (hst : (e'.pod i).stopping = some st) :
    (∃ st', (e.pod i).stopping = some st' ∧
      (st'.rest = st.rest ∨ ∃ f, st'.rest = f :: st.rest ∧ G.off i f)) ∨
    ((e.pod i).status = .leader → st.rest = others i) ∧
      ∀ rest, (e.pod i).thread ≠ .promoting rest := by
  -- where the handler of the pod, if any, joined threads before
  have hsame : ∀ {j : Fin N} {p : Pod N}, ((e.setPod j p).pod i).stopping = some st →
      p.stopping = (e.pod j).stopping → (e.pod i).stopping = some st := by
    intro j p hst hp
    rw [setPod_pod] at hst
    split at hst
    · rename_i hij
      rw [hij, ← hp]
      exact hst
    · exact hst
  -- where it does not join threads after the step
  have hnone : ∀ {j : Fin N} {p : Pod N}, ((e.setPod j p).pod i).stopping = some st →
      p.stopping = none → (e.pod i).stopping = some st := by
    intro j p hst hp
    rw [setPod_pod] at hst
    split at hst
    · rw [hp] at hst
      cases hst
    · exact hst
  cases hm with
  | join j f rest cause call hst' hoff =>
    rw [setPod_pod] at hst
    split at hst
    · rename_i hij
      subst hij
      obtain rfl := Option.some.inj hst
      exact Or.inl ⟨_, hst', Or.inr ⟨f, rfl, hoff⟩⟩
    · exact Or.inl ⟨st, hst, Or.inl rfl⟩
  | store j cause call term voted rest hh hrest =>
    rw [setPod_pod] at hst
    split at hst
    · rename_i hij
      subst hij
      obtain rfl := Option.some.inj hst
      exact Or.inr ⟨hrest, hpr i _ hh⟩
    · exact Or.inl ⟨st, hst, Or.inl rfl⟩
  | vote call req => exact Or.inl ⟨st, hnone hst rfl, Or.inl rfl⟩
  | pass j | refuse j | grant j | newer j | take j | voteStopped j | adopted j =>
    exact Or.inl ⟨st, hnone hst rfl, Or.inl rfl⟩
  | timeOut j | win j | quiet j | requestVote j | fill j | prepare j | call j | answer j
  | fail j => exact Or.inl ⟨st, hsame hst rfl, Or.inl rfl⟩

end Elections

namespace Replicas

theorem takeCommit_sync (r : Replicas N) (req : AppendReq N) (call : Nat) :
    (r.takeCommit req call).sync = r.sync := by
  rw [takeCommit]
  split <;> rfl

theorem Move.sync_off {G : Guard N} {pod : Fin N → Pod N} {r r' : Replicas N}
    (hm : Move G pod r r') {i f : Fin N} (h : r.sync i f = .off)
    (hp : ∀ rest, (pod i).thread ≠ .promoting (f :: rest)) : r'.sync i f = .off := by
  have hset : ∀ (q : Replicas N) (j g : Fin N) (t : SyncThread N), q.sync = r.sync →
      r.sync j g ≠ .off ∨ t = .off → (q.setSync j g t).sync i f = .off := by
    intro q j g t hq ht
    rw [setSync_sync]
    split
    · rename_i hij
      obtain ⟨rfl, rfl⟩ := hij
      exact ht.resolve_left fun hne => hne h
    · rw [hq]
      exact h
  cases hm with
  | start j g hth hne hpr =>
    obtain ⟨rest, hpr⟩ := hpr
    rw [setSync_sync]
    split
    · rename_i hij
      obtain ⟨rfl, rfl⟩ := hij
      exact absurd hpr (hp rest)
    · exact h
  | join j g => exact hset r j g _ rfl (Or.inr rfl)
  | check j g hth | leave j g hth | fail j g call hth | count j g g' rest sum hth
  | pass j g sum hth => exact hset r j g _ rfl (Or.inl (by rw [hth]; nofun))
  | send j g mainEntry hth => exact hset r j g _ rfl (Or.inl (by rw [hth]; nofun))
  | reject j g call code hth | accept j g call hth =>
    exact hset (r.setNextindex j g _) j g _ rfl (Or.inl (by rw [hth]; nofun))
  | commit j g sum hth =>
    exact hset (r.leaderCommit _ j _) j g _ rfl (Or.inl (by rw [hth]; nofun))
  | takeCommit req call inbox =>
    rw [takeCommit_sync]
    exact h
  | _ => exact h

end Replicas

namespace Cluster

/-- Threads run at leaders only, and a handler that steps down has joined those it is done
with. -/
structure Live (s : Cluster N) : Prop where
  leader : ∀ i f, s.rep.sync i f ≠ .off → (s.el.pod i).status = .leader
  stopped : ∀ i st, (s.el.pod i).stopping = some st →
    ∀ f, f ≠ i → f ∉ st.rest → s.rep.sync i f = .off

theorem live_init : (init N).Live := ⟨fun _ _ h => absurd rfl h, nofun⟩

theorem Live.step_of_promoting {s t : Cluster N} {a : Action N} (h : s.Live) (hplain : s.Plain)
    (hpr : ∀ i rest, (s.el.pod i).thread = .promoting rest →
      (s.el.pod i).status = .leader ∧ (s.el.pod i).holder = none)
    (hself : ∀ i, s.rep.sync i i = .off) (hstep : s.step a = some t) : t.Live := by
  have hoff : ∀ i f, s.rep.sync i f = .off →
      (∀ rest, (s.el.pod i).thread ≠ .promoting (f :: rest)) → t.rep.sync i f = .off := by
    intro i f hi hp
    rcases rep_move_of_step hplain.entries hplain.noSelf (guarded_none s a) hstep with he | hm
    · rw [he]
      exact hi
    · exact hm.sync_off hi hp
  -- while a handler steps down, nothing is started
  have hstop : ∀ i st f, (s.el.pod i).stopping = some st → s.rep.sync i f = .off →
      t.rep.sync i f = .off := by
    intro i st f hst hi
    refine hoff i f hi ?_
    intro rest hth
    have hnone := (hpr i _ hth).2
    rw [Pod.holder_of_stopping hst] at hnone
    cases hnone
  have hleader : ∀ i f, t.rep.sync i f ≠ .off → (s.el.pod i).status = .leader := by
    intro i f hne
    by_contra hl
    have hs : s.rep.sync i f = .off := by
      by_contra hs
      exact hl (h.leader i f hs)
    exact hne (hoff i f hs fun rest hth => hl (hpr i _ hth).1)
  have hg : Elects ⟨False, False, fun _ => True, fun i f => t.rep.sync i f = .off⟩ s a t :=
    ⟨False.elim, False.elim, fun _ _ => trivial, fun _ _ hi => hi⟩
  rcases move_of_step hplain.entries hg hstep with he | hm
  · refine ⟨fun i f hne => by rw [he]; exact hleader i f hne, ?_⟩
    intro i st hst f hne hnot
    rw [he] at hst
    exact hstop i st f hst (h.stopped i st hst f hne hnot)
  · refine ⟨?_, ?_⟩
    · intro i f hne
      rcases hm.leader (hleader i f hne) with hl | ⟨cause, call, hst⟩
      · exact hl
      · refine absurd (hstop i _ f hst ?_) hne
        by_cases hfi : f = i
        · rw [hfi]
          exact hself i
        · exact h.stopped i _ hst f hfi List.not_mem_nil
    · intro i st hst f hne hnot
      have hheld : ∀ i h, (s.el.pod i).holder = some h →
          ∀ rest, (s.el.pod i).thread ≠ .promoting rest := by
        intro i h hh rest hth
        have hnone := (hpr i rest hth).2
        rw [hh] at hnone
        cases hnone
      rcases hm.stopping hheld hst with ⟨st', hst', hrest⟩ | ⟨hall, hth⟩
      · rcases hrest with heq | ⟨f', heq, hf'⟩
        · exact hstop i st' f hst' (h.stopped i st' hst' f hne (by rw [heq]; exact hnot))
        · by_cases hff : f = f'
          · rw [hff]
            exact hf'
          · refine hstop i st' f hst' (h.stopped i st' hst' f hne ?_)
            rw [heq, List.mem_cons, not_or]
            exact ⟨hff, hnot⟩
      · refine hoff i f ?_ fun rest => hth _
        by_contra hs
        rw [hall (h.leader i f hs)] at hnot
        exact hnot (mem_others.mpr hne)

theorem Live.step {s t : Cluster N} {a : Action N} (h : s.Live) (hplain : s.Plain)
    (ht : s.el.Tallied) (hself : ∀ i, s.rep.sync i i = .off) (hstep : s.step a = some t) :
    t.Live :=
  h.step_of_promoting hplain (fun i => (ht.pod i).promoting) hself hstep

end Cluster

/-! ### Votes and terms of leaders -/

namespace Elections

theorem Move.grants {G : Guard N} {e e' : Elections N} (hm : Move G e e') (ht : e.Tallied)
    {v c : Fin N} {T : Int} (hx : (v, c, T) ∈ e'.grants) :
    (v, c, T) ∈ e.grants ∨ ∃ req, G.vote req ∧ req.dst = v ∧ req.id = c := by
  cases hm with
  | grant i call index req hh hs hterm hv hnot =>
    rcases List.mem_cons.mp hx with hx | hx
    · obtain ⟨rfl, rfl, -⟩ := Prod.mk.injEq .. ▸ hx
      obtain ⟨req', hs', hdst⟩ := (ht.pod v).holder _ hh
      obtain rfl : req = req' := Option.some.inj (hs.symm.trans hs')
      exact Or.inr ⟨req, hv, hdst, rfl⟩
    · exact Or.inl hx
  | voteStopped i call req hst hs hv =>
    rcases List.mem_cons.mp hx with hx | hx
    · obtain ⟨rfl, rfl, -⟩ := Prod.mk.injEq .. ▸ hx
      obtain ⟨req', hs', hdst, -⟩ := (ht.pod v).stop hst
      obtain rfl : req = req' := Option.some.inj (hs.symm.trans hs')
      exact Or.inr ⟨req, hv, hdst, rfl⟩
    · exact Or.inl hx
  | _ => exact Or.inl hx

theorem Move.won_le {G : Guard N} {e e' : Elections N} (hm : Move G e e') (ht : e.Tallied)
    (i : Fin N) : (e.pod i).won ≤ (e'.pod i).won := by
  cases hm with
  | win j n hth hh hc hn =>
    simp only [setPod_pod]
    split
    · rename_i hij
      subst hij
      exact (ht.pod i).won_le
    · exact le_refl _
  | vote call req =>
    simp only [setPod_pod]
    split
    · rename_i hij
      rw [hij]
    · exact le_refl _
  | timeOut j | quiet j | requestVote j | fill j | prepare j | call j | answer j | fail j | pass j
  | refuse j | grant j | newer j | take j | store j | voteStopped j | join j | adopted j =>
    simp only [setPod_pod]
    split
    · rename_i hij
      rw [hij]
    · exact le_refl _

end Elections

/-! ### Safe entries -/

namespace Cluster

open Replicas

/-- Term, key and value of an entry. -/
def content : Int → Bytes → Bytes → Int × Bytes × Bytes := fun term key value => (term, key, value)

/-- Pod `f` holds the entries `p`, and whoever has its vote of a term after `T` has them
too. -/
def Safe (s : Cluster N) (f : Fin N) (T : Int) (p : List (Int × Bytes × Bytes)) : Prop :=
  p <+: s.rep.contents content f ∧
    ∀ c T', (f, c, T') ∈ s.el.grants → T < T' → p <+: s.rep.contents content c

theorem Safe.mono_term {s : Cluster N} {f : Fin N} {T T' : Int} {p : List (Int × Bytes × Bytes)}
    (h : s.Safe f T p) (hT : T ≤ T') : s.Safe f T' p :=
  ⟨h.1, fun c U hc hU => h.2 c U hc (lt_of_le_of_lt hT hU)⟩

theorem Safe.of_isPrefix {s : Cluster N} {f : Fin N} {T : Int} {p q : List (Int × Bytes × Bytes)}
    (h : s.Safe f T p) (hq : q <+: p) : s.Safe f T q :=
  ⟨hq.trans h.1, fun c U hc hU => hq.trans (h.2 c U hc hU)⟩

/-- A step from `s` to `t` after which logs have grown and every new vote went to a pod
that has what the voter has. -/
structure Later (s t : Cluster N) : Prop where
  grows : ∀ i, (s.rep.log i).Grows (t.rep.log i)
  grants : ∀ v c T, (v, c, T) ∈ t.el.grants →
    (v, c, T) ∈ s.el.grants ∨ s.rep.contents content v <+: s.rep.contents content c
  won : ∀ i, (s.el.pod i).won ≤ (t.el.pod i).won

/-- **What is safe stays safe.** -/
theorem Safe.later {s t : Cluster N} (hst : Later s t) {f : Fin N} {T : Int}
    {p : List (Int × Bytes × Bytes)} (h : s.Safe f T p) : t.Safe f T p := by
  refine ⟨h.1.trans (contents_isPrefix (hst.grows f)), ?_⟩
  intro c T' hc hT
  rcases hst.grants f c T' hc with hold | hnew
  · exact (h.2 c T' hold hT).trans (contents_isPrefix (hst.grows c))
  · exact (h.1.trans hnew).trans (contents_isPrefix (hst.grows c))

/-- Follower `f` and leader `i` both hold the leader's first `n` entries safely, from the
term of its election on. -/
def Stored (s : Cluster N) (i f : Fin N) (n : Nat) : Prop :=
  ∃ p, p.length = n ∧ p <+: s.rep.contents content i ∧ s.Safe f (s.el.pod i).won p ∧
    s.Safe i (s.el.pod i).won p

theorem Stored.down {s : Cluster N} {i f : Fin N} {m n : Nat} (hmn : m ≤ n)
    (h : s.Stored i f n) : s.Stored i f m := by
  obtain ⟨p, hp, h1, h2, h3⟩ := h
  have hpre := List.take_prefix m p
  refine ⟨p.take m, ?_, hpre.trans h1, h2.of_isPrefix hpre, h3.of_isPrefix hpre⟩
  rw [List.length_take]
  omega

theorem Stored.later {s t : Cluster N} (hst : Later s t) {i f : Fin N} {n : Nat}
    (h : s.Stored i f n) : t.Stored i f n := by
  obtain ⟨p, hp, h1, h2, h3⟩ := h
  exact ⟨p, hp, h1.trans (contents_isPrefix (hst.grows i)),
    (h2.later hst).mono_term (hst.won i), (h3.later hst).mono_term (hst.won i)⟩

/-! ### What has to hold of the steps -/

/-- Terms fit; no refusal moves `nextindex_` below `0`; a vote is given only to a pod whose
log has all that the voter's has; an entry is put only behind a log that with it is a prefix
of the sender's, and only if the sender was elected in the receiver's term or later. -/
def CompletenessOk (s : Cluster N) (a : Action N) : Prop :=
  s.TermsFit a ∧ (∀ x ∈ a.rejected, 0 < s.rep.nextindex x.1 x.2) ∧
  (∀ req ∈ s.grantReq a, s.rep.contents content req.dst <+: s.rep.contents content req.id) ∧
  ∀ i ∈ a.putter, ∀ x ∈ s.rep.putReq i,
    s.rep.contents content i ++ [x.2.seen content] <+: s.rep.contents content x.1.id ∧
      (s.el.pod i).term ≤ (s.el.pod x.1.id).won

instance (s : Cluster N) (a : Action N) : Decidable (s.CompletenessOk a) :=
  inferInstanceAs (Decidable (_ ∧ _ ∧ _ ∧ _))

/-- What is known of the steps of elections. -/
def votesExtend (s : Cluster N) : Elections.Guard N :=
  ⟨True, False, fun req => s.rep.contents content req.dst <+: s.rep.contents content req.id,
    fun _ _ => True⟩

/-- What is known of the steps of replication. -/
def entriesFit (s t : Cluster N) : Guard N where
  reject i f := 0 < s.rep.nextindex i f
  put i req entry :=
    s.rep.contents content i ++ [entry.seen content] <+: s.rep.contents content req.id ∧
      (s.el.pod i).term ≤ (s.el.pod req.id).won ∧ t.el = s.el
  commit _ := True
  stamp _ _ := True

theorem el_of_putter {s t : Cluster N} {a : Action N} {i : Fin N} (hi : i ∈ a.putter)
    (hstep : s.step a = some t) : t.el = s.el := by
  cases a with
  | replicate a =>
    obtain ⟨r, -, rfl⟩ := Option.map_eq_some_iff.mp hstep
    rfl
  | _ => cases hi

theorem CompletenessOk.guarded {s t : Cluster N} {a : Action N} (h : s.CompletenessOk a)
    (hstep : s.step a = some t) : s.Guarded (entriesFit s t) a := by
  refine ⟨h.2.1, ?_, fun _ _ => trivial, fun _ _ => trivial⟩
  intro i hi x hx
  obtain ⟨h1, h2⟩ := h.2.2.2 i hi x hx
  exact ⟨h1, h2, el_of_putter hi hstep⟩

/-! ### The invariant -/

/-- What leaders committed is held safely by majorities. -/
structure CompleteInv (s : Cluster N) : Prop where
  plain : s.Plain
  tallied : s.el.Tallied
  live : s.Live
  transport : Transport content s.Stored s.rep
  commits : ∀ x ∈ s.rep.commits, ∃ S : Finset (Fin N), Majority S ∧
    ∀ g ∈ S, s.Safe g x.1 (x.2.map (Entry.seen content))

theorem completeInv_init : (init N).CompleteInv :=
  ⟨plain_init, Elections.tallied_init, live_init, transport_init, nofun⟩

theorem CompleteInv.stored_of_put {s t : Cluster N} (h : s.CompleteInv) (hst : Later s t)
    {i : Fin N} {call k : Nat} {req : AppendReq N} {entry : Entry}
    (hput : (entriesFit s t).put i req entry) (hs : req ∈ s.rep.calls.sent)
    (he : req.entrys = [entry]) (hk : k ≤ (s.rep.log i).index)
    (hsync : s.rep.sync req.id i = .awaiting call)
    (hlog : t.rep.log =
      (s.rep.setLog i (((s.rep.log i).putEntry entry).getD (s.rep.log i))).log) :
    t.Stored req.id i (k + 1) := by
  obtain ⟨hp, hterm, hel⟩ := hput
  obtain ⟨hlen, hpre⟩ := h.transport.take_of_put hs he hk hp hst.grows hlog
  have hl := h.live.leader req.id i (by simp [hsync])
  refine ⟨(t.rep.contents content i).take (k + 1), hlen, hpre, ⟨List.take_prefix _ _, ?_⟩, hpre, ?_⟩
  · -- the receiver has not voted in a later term
    intro c T hc hT
    rw [hel] at hc hT
    have := (h.tallied.pod i).grant c T hc
    omega
  · -- nor has the sender, which is still leader
    intro c T hc hT
    rw [hel] at hc hT
    have := ((h.tallied.pod req.id).leader hl).2.2 c T hc
    omega

theorem CompleteInv.safe_counted {s : Cluster N} (h : s.CompleteInv) {i : Fin N} {n : Nat}
    (hn : Counted s.Stored s.rep i n) (hlt : (s.rep.log i).commited < n) :
    ∃ S : Finset (Fin N), Majority S ∧
      ∀ g ∈ S, s.Safe g (s.el.pod i).won ((s.rep.contents content i).take n) := by
  rcases hn with hle | ⟨S, hS, hi, hg⟩
  · omega
  have htake : ∀ g, s.Stored i g n → s.Safe g (s.el.pod i).won ((s.rep.contents content i).take n) ∧
      s.Safe i (s.el.pod i).won ((s.rep.contents content i).take n) := by
    rintro g ⟨p, hp, h1, h2⟩
    rw [← hp, ← List.prefix_iff_eq_take.mp h1]
    exact h2
  refine ⟨S, hS, ?_⟩
  intro g hgS
  by_cases hgi : g = i
  · rw [hgi]
    by_cases hex : ∃ f ∈ S, f ≠ i
    · obtain ⟨f, hf, hfi⟩ := hex
      exact (htake f (hg f hf hfi)).2
    · -- a cluster of one pod
      refine ⟨List.take_prefix _ _, fun c T hc hT => absurd ?_ ((h.tallied.pod i).grant c T hc).2.2⟩
      have hsub : S ⊆ {i} := fun f hf => by
        rw [Finset.mem_singleton]
        by_contra hfi
        exact hex ⟨f, hf, hfi⟩
      have hcard := Finset.card_le_card hsub
      rw [Finset.card_singleton] at hcard
      rw [Majority, Fintype.card_fin] at hS
      have hc := c.isLt
      have hi := i.isLt
      exact Fin.ext (by omega)
  · exact (htake g (hg g hgS hgi)).1

theorem CompleteInv.step {s t : Cluster N} {a : Action N} (h : s.CompleteInv)
    (hok : s.CompletenessOk a) (hstep : s.step a = some t) : t.CompleteInv := by
  have hguard := hok.guarded hstep
  have hel := move_of_step h.plain.entries
    (⟨fun _ => hok.1, False.elim, hok.2.2.1, fun _ _ _ => trivial⟩ : Elects s.votesExtend s a t)
    hstep
  have hrep := rep_move_of_step h.plain.entries h.plain.noSelf hguard hstep
  have hst : Later s t := by
    refine ⟨?_, ?_, ?_⟩
    · rcases hrep with he | hm
      · rw [he]
        exact fun i => (h.transport.shape i).refl
      · exact (h.transport.effect hm).grows h.transport
    · intro v c T hx
      rcases hel with he | hm
      · rw [he] at hx
        exact Or.inl hx
      · rcases hm.grants h.tallied hx with hx | ⟨req, hv, rfl, rfl⟩
        · exact Or.inl hx
        · exact Or.inr hv
    · intro i
      rcases hel with he | hm
      · rw [he]
      · exact hm.won_le h.tallied i
  have hmono : Transport content t.Stored s.rep := h.transport.mono fun i f n hs => hs.later hst
  have hold : ∀ x ∈ s.rep.commits, ∃ S : Finset (Fin N), Majority S ∧
      ∀ g ∈ S, t.Safe g x.1 (x.2.map (Entry.seen content)) := fun x hx => by
    obtain ⟨S, hS, hg⟩ := h.commits x hx
    exact ⟨S, hS, fun g hgS => (hg g hgS).later hst⟩
  refine ⟨h.plain.step hstep, ?_, h.live.step h.plain h.tallied h.transport.self hstep, ?_, ?_⟩
  · rcases hel with he | hm
    · rw [he]
      exact h.tallied
    · exact h.tallied.move trivial hm
  · rcases hrep with he | hm
    · rw [he]
      exact hmono
    · refine hmono.move (fun i f m n hmn hs => hs.down hmn) hm (fun i f hrej => hrej) ?_
      intro i call req entry k hput hth hs hdst he hidx hk hsync hlog
      exact h.stored_of_put hst hput (List.mem_of_getElem? hs) he hk hsync hlog
  · rcases hrep with he | hm
    · rw [he]
      exact hold
    · cases h.transport.effect hm with
      | quiet hlog happ hcom => rw [hcom]; exact hold
      | innerPut i entry l hz hl hlog happ hcom => rw [hcom]; exact hold
      | take req hs hgu hlog happ hcom => rw [hcom]; exact hold
      | putEntry i req entry hs he hgu hlog happ hcom => rw [hcom]; exact hold
      | apply i l entry ha hlog happ hcom => rw [hcom]; exact hold
      | commit i n hn hlog happ hcom =>
        rw [hcom, leaderCommit]
        intro x hx
        simp only at hx
        split at hx
        · rename_i hlt
          rcases List.mem_cons.mp hx with rfl | hx
          · simp only [RaftLog.updateCommit] at hlt ⊢
            obtain ⟨S, hS, hg⟩ := h.safe_counted hn (by omega)
            refine ⟨S, hS, fun g hgS => ((hg g hgS).of_isPrefix ?_).later hst⟩
            rw [List.map_take]
            exact List.take_prefix_take_left (by omega)
          · exact hold x hx
        · exact hold x hx

/-- **Later leaders have what was committed.**  In a run whose steps meet `CompletenessOk`,
an entry that the leader of term `T` committed at an index is at that index in the log of
every pod that won a later term. -/
theorem leader_completeness {as : List (Action N)} {s : Cluster N}
    (hok : StepsOk step CompletenessOk (init N) as) (hr : run step (init N) as = some s)
    {T T' : Int} {l : List Entry} {c : Fin N} (hl : (T, l) ∈ s.rep.commits)
    (hc : (c, T') ∈ s.el.wins) (hT : T < T') {k : Nat} {e : Entry} (hk : l[k]? = some e) :
    ∃ e', (s.rep.log c).entries[k]? = some e' ∧
      e'.term = e.term ∧ e'.key = e.key ∧ e'.value = e.value := by
  have hinv : s.CompleteInv :=
    run_invariant completeInv_init (fun _ _ _ h ha hs => h.step ha hs) hr hok
  obtain ⟨S, hS, hsafe⟩ := hinv.commits (T, l) hl
  obtain ⟨S', hS', hvotes⟩ := hinv.tallied.win c T' hc
  obtain ⟨v, hv, hv'⟩ := hS.inter hS'
  have hpre : l.map (Entry.seen content) <+: s.rep.contents content c := by
    rcases hvotes v hv' with rfl | hgrant
    · exact (hsafe v hv).1
    · exact (hsafe v hv).2 c T' hgrant hT
  have hget := getElem?_of_isPrefix hpre (k := k) (x := e.seen content)
    (by rw [List.getElem?_map, hk]; rfl)
  rw [contents, List.getElem?_map, Option.map_eq_some_iff] at hget
  obtain ⟨e', he', heq⟩ := hget
  simp only [Entry.seen, content, Prod.mk.injEq] at heq
  exact ⟨e', he', heq⟩

/-- Pod `i`, which knows of term 1, becomes leader of term 2 with the vote of pod `v`, the
second of the others. -/
def nextLeader (i v : Fin 3) : List (Action 3) := List.flatten
  [[.elect (.timeOut i), .elect (.requestVote i)], Action.ask i, [.elect (.voteFailed i)],
    Action.ask i, Action.test 3 v,
    [.elect (.storeTerm v), .elect (.voteStopped v), .elect (.voteAnswered i 0),
      .elect (.countTickets i)]]

set_option maxRecDepth 1000 in
theorem leader_completeness_nextLeader :
    ∃ s, run step (init 3) (firstLeader ++ firstCommit ++ nextLeader 1 2) = some s ∧
      s.el.wins = [(1, 2), (0, 1)] ∧ ∃ e', (s.rep.log 1).entries[0]? = some e' ∧
        e'.term = 1 ∧ e'.key = [1] ∧ e'.value = [10] := by
  obtain ⟨s, hs⟩ : ∃ s, run step (init 3) (firstLeader ++ firstCommit ++ nextLeader 1 2) = some s :=
    Option.isSome_iff_exists.mp (by decide)
  have hmap : (run step (init 3) (firstLeader ++ firstCommit ++ nextLeader 1 2)).map
      (fun s => (s.el.wins, s.rep.commits)) =
        some ([(1, 2), (0, 1)], [(1, [⟨1, 1, [1], [10], 0, 0⟩])]) := by decide
  rw [hs] at hmap
  simp only [Option.map_some, Option.some.injEq, Prod.mk.injEq] at hmap
  have hentry : ([⟨1, 1, [1], [10], 0, 0⟩] : List Entry)[0]? = some ⟨1, 1, [1], [10], 0, 0⟩ := rfl
  refine ⟨s, hs, hmap.1, ?_⟩
  exact leader_completeness (by decide) hs (by rw [hmap.2]; exact List.mem_cons_self ..)
    (by rw [hmap.1]; exact List.mem_cons_self ..) (by decide) hentry

/-- **A committed entry is lost**: pod `2`, whose log is empty, gets the vote of pod `1`,
which holds the committed entry, and leads term 2 without it. -/
theorem committed_entry_lost :
    ∃ s e, run step (init 3) (firstLeader ++ firstCommit ++ nextLeader 2 1) = some s ∧
      (1, [e]) ∈ s.rep.commits ∧ (2, 2) ∈ s.el.wins ∧ (s.el.pod 2).status = .leader ∧
      (s.rep.log 2).entries[0]? = none := by
  obtain ⟨s, hs⟩ : ∃ s, run step (init 3) (firstLeader ++ firstCommit ++ nextLeader 2 1) = some s :=
    Option.isSome_iff_exists.mp (by decide)
  have hmap : (run step (init 3) (firstLeader ++ firstCommit ++ nextLeader 2 1)).map
      (fun s => (s.el.wins, s.rep.commits, (s.el.pod 2).status, (s.rep.log 2).entries)) =
        some ([(2, 2), (0, 1)], [(1, [⟨1, 1, [1], [10], 0, 0⟩])], .leader, []) := by decide
  rw [hs] at hmap
  simp only [Option.map_some, Option.some.injEq, Prod.mk.injEq] at hmap
  obtain ⟨h1, h2, h3, h4⟩ := hmap
  exact ⟨s, _, hs, by rw [h2]; exact List.mem_cons_self .., by rw [h1]; exact List.mem_cons_self ..,
    h3, by rw [h4]; rfl⟩

end Cluster

end Mokv.Raft
