import Mokv.Raft.LeaderCompleteness

/-!
# Log matching

Two logs with an entry of the same term at an index should agree up to that index.  Every
entry has a root: the pod that won its term and put it into its own log.  So it is enough
that each log, up to each of its entries, is a prefix of the root's log (`Rooted`), and
that a term has one winner.

An `Append` that puts an entry keeps this if the entry before it has the same term at the
sender and at the receiver.  The code compares the index only: a leader that is elected
again starts each follower at its own commit index, so a follower with a stale entry below
gets the next one behind it (`entry_behind_stale_entry`).  Where the steps meet
`MatchingOk`, logs match (`log_matching`).
-/

namespace Mokv.Raft

open Lib

variable {N : Nat}

namespace Replicas

/-- The term of the entry before position `k`. -/
def prevTerm (r : Replicas N) (i : Fin N) (k : Nat) : Option Int :=
  (((r.log i).entries.take k).getLast?).map Entry.term

theorem Move.termed {G : Guard N} {pod : Fin N → Pod N} {r r' : Replicas N}
    (hm : Move G pod r r') {i : Fin N} {k : Nat} {key value : Bytes} {term : Int}
    (h : r'.puts i k = .termed key value term) :
    r.puts i k = .termed key value term ∨ G.stamp i term := by
  have hset : ∀ (i' : Fin N) (k' : Nat) (t : PutThread N), (r.setPut i' k' t).puts i k =
      .termed key value term → r.puts i k = .termed key value term ∨
        i = i' ∧ t = .termed key value term := by
    intro i' k' t ht
    rw [setPut_puts] at ht
    split at ht
    · rename_i hik
      exact Or.inr ⟨hik.1, ht⟩
    · exact Or.inl ht
  cases hm with
  | setPut i' k' t ht hg =>
    rcases hset i' k' t h with hold | ⟨rfl, hnew⟩
    · exact Or.inl hold
    · exact Or.inr (hg key value term hnew)
  | innerPut i' k' key' value' term' l n hl hth =>
    exact Or.inl ((hset i' k' _ h).resolve_right nofun)
  | poll i' k' n => exact Or.inl ((hset i' k' _ h).resolve_right nofun)
  | pollCount i' f k' n rest sum hth => exact Or.inl ((hset i' k' _ h).resolve_right nofun)
  | pollCommit i' k' n sum hth hsum => exact Or.inl ((hset i' k' _ h).resolve_right nofun)
  | takeCommit req call inbox hs hg =>
    rw [Replicas.takeCommit] at h
    split at h
    · exact Or.inl h
    · exact Or.inl h
  | _ => exact Or.inl h

end Replicas

namespace Elections

theorem Move.wins {G : Guard N} {e e' : Elections N} (hm : Move G e e') (ht : e.Tallied) :
    (∀ x ∈ e.wins, x ∈ e'.wins) ∧ ∀ x ∈ e'.wins, x ∈ e.wins ∨ x.2 < 2 ^ 31 := by
  cases hm with
  | win i n hth hh hc hn =>
    refine ⟨fun x hx => List.mem_cons_of_mem _ hx, ?_⟩
    intro x hx
    rcases List.mem_cons.mp hx with rfl | hx
    · have hcamp := (ht.pod i).campaign hc (Pod.stopping_of_holder hh)
      rw [hth] at hcamp
      exact Or.inr hcamp.2.1
    · exact Or.inl hx
  | _ => exact ⟨fun x hx => hx, fun x hx => Or.inl hx⟩

end Elections

namespace Cluster

open Replicas

/-! ### Roots -/

/-- Every entry of every log is, with all that is before it, in the log of a pod that won
its term. -/
def Rooted (s : Cluster N) : Prop :=
  ∀ (j : Fin N) (k : Nat) (e : Entry), (s.rep.log j).entries[k]? = some e →
    ∃ c, (c, e.term) ∈ s.el.wins ∧
      (s.rep.contents content j).take (k + 1) <+: s.rep.contents content c

theorem rooted_init : (init N).Rooted := by
  intro j k e he
  cases he

theorem Rooted.later {s t : Cluster N} (h : s.Rooted)
    (hg : ∀ j, (s.rep.log j).Grows (t.rep.log j)) (hw : ∀ x ∈ s.el.wins, x ∈ t.el.wins)
    (hnew : ∀ (j : Fin N) (k : Nat) (e : Entry), (t.rep.log j).entries[k]? = some e →
      (s.rep.log j).entries[k]? = none → ∃ c, (c, e.term) ∈ t.el.wins ∧
        (t.rep.contents content j).take (k + 1) <+: t.rep.contents content c) : t.Rooted := by
  intro j k e he
  cases hold : (s.rep.log j).entries[k]? with
  | none => exact hnew j k e he hold
  | some e' =>
    obtain rfl : e' = e :=
      Option.some.inj ((getElem?_of_isPrefix (hg j).entries hold).symm.trans he)
    obtain ⟨c, hc, hpre⟩ := h j k e' hold
    refine ⟨c, hw _ hc, ?_⟩
    have hlt : k < (s.rep.contents content j).length := by
      rw [contents, List.length_map]
      exact (List.getElem?_eq_some_iff.mp hold).1
    obtain ⟨u, hu⟩ : s.rep.contents content j <+: _ := contents_isPrefix (hg j)
    rw [← hu, List.take_append_of_le_length hlt]
    exact hpre.trans (contents_isPrefix (hg c))

theorem Rooted.append {s t : Cluster N} (h : s.Rooted)
    (hg : ∀ j, (s.rep.log j).Grows (t.rep.log j)) (hw : ∀ x ∈ s.el.wins, x ∈ t.el.wins)
    {i c : Fin N} {l : RaftLog} {entry : Entry} (hlog : t.rep.log = (s.rep.setLog i l).log)
    (hent : l.entries = (s.rep.log i).entries ++ [entry]) (hc : (c, entry.term) ∈ t.el.wins)
    (hpre : t.rep.contents content i <+: t.rep.contents content c) : t.Rooted := by
  refine h.later hg hw ?_
  intro j k e he hnone
  rw [hlog, setLog_log] at he
  split at he
  · rename_i hj
    subst hj
    rw [hent, List.getElem?_append_right (List.getElem?_eq_none_iff.mp hnone)] at he
    obtain rfl := List.mem_singleton.mp (List.mem_of_getElem? he)
    exact ⟨c, hc, (List.take_prefix _ _).trans hpre⟩
  · rw [hnone] at he
    cases he

theorem Rooted.same {s t : Cluster N} (h : s.Rooted)
    (hg : ∀ j, (s.rep.log j).Grows (t.rep.log j)) (hw : ∀ x ∈ s.el.wins, x ∈ t.el.wins)
    (hent : ∀ j, (t.rep.log j).entries = (s.rep.log j).entries) : t.Rooted := by
  refine h.later hg hw ?_
  intro j k e he hnone
  rw [hent, hnone] at he
  cases he

/-- **Rooted logs match**, when a term has one winner. -/
theorem Rooted.take_eq {s : Cluster N} (h : s.Rooted)
    (hone : ∀ c c' T, (c, T) ∈ s.el.wins → (c', T) ∈ s.el.wins → c = c') {i j : Fin N} {k : Nat}
    {e e' : Entry} (hi : (s.rep.log i).entries[k]? = some e)
    (hj : (s.rep.log j).entries[k]? = some e') (hterm : e.term = e'.term) :
    (s.rep.contents content i).take (k + 1) = (s.rep.contents content j).take (k + 1) := by
  obtain ⟨c, hc, hpre⟩ := h i k e hi
  obtain ⟨c', hc', hpre'⟩ := h j k e' hj
  obtain rfl : c = c' := hone c c' e.term hc (hterm ▸ hc')
  have hlen : ∀ (m : Fin N) (x : Entry), (s.rep.log m).entries[k]? = some x →
      ((s.rep.contents content m).take (k + 1)).length = k + 1 := by
    intro m x hx
    have hlt := (List.getElem?_eq_some_iff.mp hx).1
    rw [List.length_take, contents, List.length_map]
    omega
  rw [List.prefix_iff_eq_take.mp hpre, List.prefix_iff_eq_take.mp hpre', hlen i e hi, hlen j e' hj]

/-! ### What has to hold of the steps -/

/-- Terms fit, and no candidate or leader gives away a vote of its own term; no refusal
moves `nextindex_` below `0`; an entry is put only where its index is still the next one and
the entry before has the same term as at the sender; `InnerPut` reads the term of a pod that
won it. -/
def MatchingOk (s : Cluster N) (a : Action N) : Prop :=
  s.ElectionOk a ∧ (∀ x ∈ a.rejected, 0 < s.rep.nextindex x.1 x.2) ∧
  (∀ i ∈ a.putter, ∀ x ∈ s.rep.putReq i, ¬ Mismatch (s.rep.log i) x.2 ∧
    s.rep.prevTerm i (s.rep.log i).index = s.rep.prevTerm x.1.id (s.rep.log i).index) ∧
  ∀ i ∈ a.stamper, (i, (s.el.pod i).term) ∈ s.el.wins

instance (s : Cluster N) (a : Action N) : Decidable (s.MatchingOk a) :=
  inferInstanceAs (Decidable (_ ∧ _ ∧ _ ∧ _))

/-- What is known of the steps of replication. -/
def termsAgree (s : Cluster N) : Guard N where
  reject i f := 0 < s.rep.nextindex i f
  put i req entry := ¬ Mismatch (s.rep.log i) entry ∧
    s.rep.prevTerm i (s.rep.log i).index = s.rep.prevTerm req.id (s.rep.log i).index
  commit _ := True
  stamp i term := (i, term) ∈ s.el.wins

theorem MatchingOk.guarded {s : Cluster N} {a : Action N} (h : s.MatchingOk a) :
    s.Guarded s.termsAgree a := ⟨h.2.1, h.2.2.1, fun _ _ => trivial, h.2.2.2⟩

/-! ### The invariant -/

/-- Every entry has a root, and every term that a put has read is one the pod won. -/
structure MatchInv (s : Cluster N) : Prop where
  election : s.ElectionInv
  transport : Transport content (fun _ _ _ => True) s.rep
  fits : ∀ x ∈ s.el.wins, x.2 < 2 ^ 31
  stamped : ∀ (i : Fin N) (k : Nat) key value term, s.rep.puts i k = .termed key value term →
    (i, term) ∈ s.el.wins
  rooted : s.Rooted

theorem matchInv_init : (init N).MatchInv :=
  ⟨electionInv_init, transport_init, nofun, nofun, rooted_init⟩

theorem MatchInv.unique {s : Cluster N} (h : s.MatchInv) (c c' : Fin N) (T : Int)
    (hc : (c, T) ∈ s.el.wins) (hc' : (c', T) ∈ s.el.wins) : c = c' :=
  h.election.once.unique_win h.election.tallied hc hc'

/-- A receiver whose last entry has the sender's term there holds what the sender has before
the entry. -/
theorem MatchInv.fits_behind {s : Cluster N} (h : s.MatchInv) {i : Fin N} {req : AppendReq N}
    {entry : Entry} (hs : req ∈ s.rep.calls.sent) (he : req.entrys = [entry])
    (hm : ¬ Mismatch (s.rep.log i) entry)
    (hprev : s.rep.prevTerm i (s.rep.log i).index = s.rep.prevTerm req.id (s.rep.log i).index) :
    (s.rep.contents content req.id)[(s.rep.log i).index]? = some (entry.seen content) ∧
      s.rep.contents content i ++ [entry.seen content] <+: s.rep.contents content req.id := by
  obtain ⟨-, k, hk, hget⟩ := (h.transport.sent req hs).entry entry he
  have hlen : (s.rep.contents content i).length = _ := length_contents (h.transport.shape i)
  have hlt := (List.getElem?_eq_some_iff.mp hget).1
  rw [length_contents (h.transport.shape req.id)] at hlt
  have hsize := RingBufferQueue.ringBufferSize_eq
  have hb := (h.transport.shape req.id).index_lt
  have hb' := (h.transport.shape i).index_lt
  obtain rfl : k = (s.rep.log i).index := by
    rw [Mismatch, not_not, hk, ← Nat.cast_succ, toSizeT_natCast (by omega),
      Nat.mod_eq_of_lt (by omega)] at hm
    omega
  refine ⟨hget, ?_⟩
  have htake : s.rep.contents content i =
      (s.rep.contents content req.id).take (s.rep.log i).index := by
    cases hn : (s.rep.log i).index with
    | zero =>
      rw [hn, List.length_eq_zero_iff] at hlen
      rw [hlen, List.take_zero]
    | succ n =>
      -- both logs have an entry at `n`, and `prevTerm` compares their terms
      have hi : n < (s.rep.log i).entries.length := by
        rw [(h.transport.shape i).length_entries]
        omega
      have hj : n < (s.rep.log req.id).entries.length := by
        rw [(h.transport.shape req.id).length_entries]
        omega
      have hi' := List.getElem?_eq_getElem hi
      have hj' := List.getElem?_eq_getElem hj
      rw [hn, prevTerm, prevTerm, List.take_add_one, hi', List.take_add_one, hj'] at hprev
      simp only [Option.toList_some, List.getLast?_append_of_ne_nil _ (List.cons_ne_nil _ _),
        List.getLast?_singleton, Option.map_some, Option.some.injEq] at hprev
      rw [← h.rooted.take_eq h.unique hi' hj' hprev, List.take_of_length_le]
      omega
  have happ : s.rep.contents content i ++ [entry.seen content] =
      (s.rep.contents content req.id).take ((s.rep.log i).index + 1) := by
    rw [List.take_add_one, hget, ← htake]
    rfl
  rw [happ]
  exact List.take_prefix _ _

theorem MatchInv.rooted_step {s t : Cluster N} (h : s.MatchInv)
    (hw : ∀ x ∈ s.el.wins, x ∈ t.el.wins)
    (he : Effect (fun _ _ _ => True) s.termsAgree s.el.pod s.rep t.rep) : t.Rooted := by
  have hg := he.grows h.transport
  have hsame : ∀ (i : Fin N) (l : RaftLog), l.entries = (s.rep.log i).entries →
      t.rep.log = (s.rep.setLog i l).log → t.Rooted := by
    intro i l hl hlog
    refine h.rooted.same hg hw ?_
    intro j
    rw [hlog, setLog_log]
    split
    · rename_i hj
      rw [hl, hj]
    · rfl
  cases he with
  | quiet hlog happ hcom =>
    refine h.rooted.same hg hw ?_
    intro j
    rw [hlog]
  | innerPut i entry l hz hl hlog happ hcom hth =>
    obtain ⟨k, key, value, term, hth, hterm⟩ := hth
    have hwin := h.stamped i k key value term hth
    have h1 := ((h.election.once.pod i).won term hwin).1
    have h2 : term < 2 ^ 31 := h.fits _ hwin
    have hlt : toSizeT entry.commited < RingBufferQueue.ringBufferSize := by
      rw [hz]
      decide
    have hent := ((h.transport.shape i).putEntry_some hlt hl).2.1
    refine h.rooted.append hg hw hlog hent (c := i) ?_ (List.prefix_refl _)
    rw [hterm, toInt32_of_nonneg (by omega) h2]
    exact hw _ hwin
  | commit i n hn hlog happ hcom => exact hsame i ((s.rep.log i).updateCommit n) rfl hlog
  | take req hs hgu hlog happ hcom =>
    exact hsame req.dst ((s.rep.log req.dst).updateCommit _) rfl hlog
  | putEntry i req entry hs he hgu hlog happ hcom =>
    obtain ⟨hget, hpre⟩ := h.fits_behind hs he hgu.1 hgu.2
    have hent := (h.transport.putEntry_of_isPrefix hs he hpre).1
    rw [contents, List.getElem?_map, Option.map_eq_some_iff] at hget
    obtain ⟨e, hget, hseen⟩ := hget
    obtain ⟨c, hc, hroot⟩ := h.rooted req.id _ e hget
    obtain ⟨hterm, -⟩ : e.term = entry.term ∧ _ := Prod.mk.inj hseen
    refine h.rooted.append hg hw hlog hent (c := c) (hterm ▸ hw _ hc) ?_
    have hnew : t.rep.contents content i =
        s.rep.contents content i ++ [entry.seen content] := by
      rw [contents, hlog, setLog_log, if_pos rfl, hent, List.map_append]
      rfl
    rw [hnew]
    refine (List.IsPrefix.trans ?_ hroot).trans (contents_isPrefix (hg c))
    refine List.prefix_take_iff.mpr ⟨hpre, ?_⟩
    rw [List.length_append, length_contents (h.transport.shape i), List.length_singleton]
  | apply i l entry ha hlog happ hcom =>
    exact hsame i l ((h.transport.shape i).apply ha).2.1 hlog

theorem MatchInv.step {s t : Cluster N} {a : Action N} (h : s.MatchInv) (hok : s.MatchingOk a)
    (hstep : s.step a = some t) : t.MatchInv := by
  have helect := h.election.step hok.1 hstep
  have hwins : (∀ x ∈ s.el.wins, x ∈ t.el.wins) ∧
      ∀ x ∈ t.el.wins, x ∈ s.el.wins ∨ x.2 < 2 ^ 31 := by
    rcases move_of_step h.election.plain.entries (elects_none s a t) hstep with he | hm
    · rw [he]
      exact ⟨fun x hx => hx, fun x hx => Or.inl hx⟩
    · exact hm.wins h.election.tallied
  have hfits : ∀ x ∈ t.el.wins, x.2 < 2 ^ 31 := by
    intro x hx
    rcases hwins.2 x hx with hx | hlt
    · exact h.fits x hx
    · exact hlt
  rcases rep_move_of_step h.election.plain.entries h.election.plain.noSelf hok.guarded hstep
    with he | hm
  · refine ⟨helect, by rw [he]; exact h.transport, hfits, ?_, ?_⟩
    · intro i k key value term ht
      rw [he] at ht
      exact hwins.1 _ (h.stamped i k key value term ht)
    · refine h.rooted.same ?_ hwins.1 ?_
      · intro j
        rw [he]
        exact (h.transport.shape j).refl
      · intro j
        rw [he]
  · refine ⟨helect, ?_, hfits, ?_, h.rooted_step hwins.1 (h.transport.effect hm)⟩
    · exact h.transport.move (fun _ _ _ _ _ _ => trivial) hm (fun _ _ hrej => hrej)
        (fun _ _ _ _ _ _ _ _ _ _ _ _ _ _ => trivial)
    · intro i k key value term ht
      rcases hm.termed ht with hold | hstamp
      · exact hwins.1 _ (h.stamped i k key value term hold)
      · exact hwins.1 _ hstamp

/-- The leader `i` puts a second entry and sends it to pod `f`. -/
def twoEntries (i f : Fin 3) : List (Action 3) :=
  [.replicate (.put i 1 [2] [20]), .replicate (.putTerm i 1), .replicate (.innerPut i 1),
    .replicate (.syncCheck i f), .replicate (.syncSend i f), .solveAppend 1,
    .replicate (.updateRaftLog f), .replicate (.putEntry f)]

/-- Pod `i`, now leader of term 2, commits an entry with pod `f` and puts another one. -/
def secondTerm (i f : Fin 3) : List (Action 3) :=
  [.promote i, .promote i, .promote i,
    .replicate (.put i 0 [2] [20]), .replicate (.putTerm i 0), .replicate (.innerPut i 0),
    .replicate (.syncCheck i f), .replicate (.syncSend i f), .solveAppend 0,
    .replicate (.updateRaftLog f), .replicate (.putEntry f), .replicate (.syncAnswered i f 0),
    .replicate (.syncCount i f), .replicate (.syncCommit i f),
    .replicate (.put i 1 [3] [30]), .replicate (.putTerm i 1), .replicate (.innerPut i 1)]

/-- A candidacy of pod `c` makes pod `i` step down, and pod `i` is elected again in term 4.
It starts pod `f` at its commit index. -/
def reelection (i f c : Fin 3) : List (Action 3) := List.flatten
  [[.elect (.timeOut c), .elect (.requestVote c)], Action.ask c, [.elect (.voteFailed c)],
    Action.ask c, Action.test 5 i,
    [.elect (.storeTerm i), .join i, .join i, .elect (.voteStopped i), .elect (.voteFailed c),
      .elect (.timeOut i), .elect (.requestVote i)], Action.ask i, [.elect (.voteFailed i)],
    Action.ask i, Action.test 7 c,
    [.elect (.storeTerm c), .elect (.voteStopped c), .elect (.voteAnswered i 0),
      .elect (.countTickets i), .promote i, .promote i, .promote i, .replicate (.syncCheck i f),
      .replicate (.syncSend i f), .solveAppend 1, .replicate (.updateRaftLog f),
      .replicate (.putEntry f)]]

end Cluster

end Mokv.Raft
