import Mokv.Lib.Quorum
import Mokv.Raft.ReplicaMoves

/-!
# What a leader knows of its followers

A leader never sees the log of a follower; it has `nextindex_`.  Let `H i f n` say that
follower `f` holds the first `n` entries of pod `i` (in whatever sense a proof needs).
`Replicas.Transport` says that the replication half keeps its promise: every `nextindex_`
beyond the commit index, every positive answer and every follower that a counting loop has
counted comes with an `H`.

The moves keep it (`Transport.move`) if an entry that is put into a log is put where the
sender takes it to be, and no `nextindex_` is moved below `0`.  When a leader then commits
with a majority, the majority holds what it commits (`Transport.commit`,
`Transport.pollCommit`).
-/

namespace Mokv.Raft

open Lib

variable {N : Nat}

/-! ### The other followers -/

theorem mem_otherFollowers {i f g : Fin N} : g ∈ otherFollowers i f ↔ g ≠ i ∧ g ≠ f := by
  rw [otherFollowers, List.mem_filter, mem_others]
  simp

theorem nodup_otherFollowers (i f : Fin N) : (otherFollowers i f).Nodup :=
  (nodup_others i).filter _

theorem length_otherFollowers {i f : Fin N} (h : f ≠ i) : (otherFollowers i f).length + 2 = N := by
  have herase : otherFollowers i f = (others i).erase f := by
    rw [(nodup_others i).erase_eq_filter, otherFollowers]
    exact List.filter_congr fun g _ => by rw [bne, beq_eq_decide, decide_not]
  have hpos : 0 < (others i).length := List.length_pos_of_mem (mem_others.mpr h)
  have hlen := length_others i
  rw [herase, List.length_erase_of_mem (mem_others.mpr h)]
  omega

/-- What a proof looks at in an entry: something of its term, key and value. -/
def Entry.seen {γ : Type} (view : Int → Bytes → Bytes → γ) (e : Entry) : γ :=
  view e.term e.key e.value

namespace Replicas

variable {γ : Type} {view : Int → Bytes → Bytes → γ} {H : Fin N → Fin N → Nat → Prop}
  {r r' : Replicas N}

/-! ### The invariant -/

/-- `nextindex_` of follower `f` at pod `i`, as a position. -/
def position (r : Replicas N) (i f : Fin N) : Nat := (r.nextindex i f).toNat

/-- The log of a pod as a proof looks at it. -/
def contents (view : Int → Bytes → Bytes → γ) (r : Replicas N) (i : Fin N) : List γ :=
  (r.log i).entries.map (Entry.seen view)

theorem length_contents {i : Fin N} (h : (r.log i).Shape) :
    (r.contents view i).length = (r.log i).index := by
  rw [contents, List.length_map, h.length_entries]

theorem contents_isPrefix {i : Fin N} (h : (r.log i).Grows (r'.log i)) :
    r.contents view i <+: r'.contents view i := h.entries.map (Entry.seen view)

/-- A request as the sender's log has it. -/
structure ReqOk (view : Int → Bytes → Bytes → γ) (r : Replicas N) (req : AppendReq N) : Prop where
  commit : toSizeT req.commitedIndex ≤ (r.log req.id).commited
  entry : ∀ entry, req.entrys = [entry] →
    toSizeT entry.commited ≤ (r.log req.id).commited ∧
      ∃ k : Nat, entry.index = k + 1 ∧
        (r.contents view req.id)[k]? = some (entry.seen view)

theorem ReqOk.congr {req : AppendReq N} (h : ReqOk view r req) (hlog : r'.log = r.log) :
    ReqOk view r' req := by
  refine ⟨?_, ?_⟩ <;> simp only [contents, hlog]
  · exact h.commit
  · exact h.entry

/-- A thread of `Follower::Run`. -/
def SyncOk (H : Fin N → Fin N → Nat → Prop) (r : Replicas N) (i f : Fin N) : SyncThread N → Prop
  | .off => True
  | .idle => True
  | .trying => r.position i f < (r.log i).index
  | .awaiting call => r.position i f < (r.log i).index ∧
      ∃ req entry, r.calls.sent[call]? = some req ∧ req.id = i ∧ req.dst = f ∧
        req.entrys = [entry] ∧ entry.index = r.position i f + 1 ∧
        ((call, 0) ∈ r.calls.rsps → H i f (r.position i f + 1))
  | .counting rest sum =>
    Tally (otherFollowers i f)
      (fun g => r.position i f ≤ (r.log i).commited ∨ H i g (r.position i f)) rest 2 sum

/-- A client's put. -/
def PutThreadOk (H : Fin N → Fin N → Nat → Prop) (r : Replicas N) (i : Fin N) :
    PutThread N → Prop
  | .counting n rest sum =>
    Tally (others i) (fun g => n ≤ (r.log i).commited ∨ H i g n) rest 1 sum
  | _ => True

/-- A handler has a request for its pod; where the index matched, the log does not end
before the entry. -/
def HandlerOk (r : Replicas N) (i : Fin N) : AppendHandler → Prop
  | .free => True
  | .taking call => ∃ req, r.calls.sent[call]? = some req ∧ req.dst = i
  | .entered call => ∃ req, r.calls.sent[call]? = some req ∧ req.dst = i
  | .mismatched call => ∃ req, r.calls.sent[call]? = some req ∧ req.dst = i
  | .matched call => ∃ req, r.calls.sent[call]? = some req ∧ req.dst = i ∧
      ∀ entry (k : Nat), req.entrys = [entry] → entry.index = k + 1 → k ≤ (r.log i).index

/-- The replication half keeps its promise. -/
structure Transport (view : Int → Bytes → Bytes → γ) (H : Fin N → Fin N → Nat → Prop)
    (r : Replicas N) : Prop where
  shape : ∀ i, (r.log i).Shape
  sent : ∀ req ∈ r.calls.sent, ReqOk view r req
  rsps : ∀ call code, (call, code) ∈ r.calls.rsps → call < r.calls.sent.length
  nextindex : ∀ i f, 0 ≤ r.nextindex i f ∧
    r.nextindex i f < RingBufferQueue.ringBufferSize ∧
    (r.position i f ≤ (r.log i).commited ∨ H i f (r.position i f))
  self : ∀ i, r.sync i i = .off
  sync : ∀ i f, SyncOk H r i f (r.sync i f)
  puts : ∀ i k, PutThreadOk H r i (r.puts i k)
  handler : ∀ i, HandlerOk r i (r.handler i)

theorem transport_init : Transport view H (init N) where
  shape _ := RaftLog.shape_load
  sent := nofun
  rsps := nofun
  nextindex _ _ := ⟨le_refl _, show (0 : Int) < RingBufferQueue.ringBufferSize by decide,
    Or.inl (Nat.zero_le _)⟩
  self _ := rfl
  sync _ _ := trivial
  puts _ _ := trivial
  handler _ := trivial

/-! ### Changing one part -/

theorem update_update {α β : Type} [DecidableEq α] [DecidableEq β] {δ : Type} (t : α → β → δ)
    (i j : α) (f g : β) (x : δ) :
    Function.update t i (Function.update (t i) f x) j g = if j = i ∧ g = f then x else t j g := by
  by_cases hj : j = i
  · subst hj
    by_cases hg : g = f
    · rw [hg, Function.update_self, Function.update_self, if_pos ⟨rfl, rfl⟩]
    · rw [Function.update_self, Function.update_of_ne hg, if_neg fun h => hg h.2]
  · rw [Function.update_of_ne hj, if_neg fun h => hj h.1]

theorem setSync_sync (i f j g : Fin N) (t : SyncThread N) :
    (r.setSync i f t).sync j g = if j = i ∧ g = f then t else r.sync j g := update_update ..

theorem setNextindex_nextindex (i f j g : Fin N) (n : Int) :
    (r.setNextindex i f n).nextindex j g = if j = i ∧ g = f then n else r.nextindex j g :=
  update_update ..

theorem setPut_puts (i j : Fin N) (k l : Nat) (t : PutThread N) :
    (r.setPut i k t).puts j l = if j = i ∧ l = k then t else r.puts j l := update_update ..

theorem setHandler_handler (i j : Fin N) (t : AppendHandler) :
    (r.setHandler i t).handler j = if j = i then t else r.handler j := Function.update_apply ..

theorem setLog_log (i j : Fin N) (l : RaftLog) :
    (r.setLog i l).log j = if j = i then l else r.log j := Function.update_apply ..

theorem grows_of_setLog (hshape : ∀ i, (r.log i).Shape) {i : Fin N} {l : RaftLog}
    (hg : (r.log i).Grows l) (hlog : r'.log = (r.setLog i l).log) :
    ∀ j, (r.log j).Grows (r'.log j) := by
  intro j
  rw [hlog, setLog_log]
  split
  · rename_i hj
    rw [hj]
    exact hg
  · exact (hshape j).refl

/-- What is known of a thread stays known when its `nextindex_` stays, the leader's log
grows, no call is forgotten, and new answers and holdings are accounted for. -/
theorem SyncOk.mono {H' : Fin N → Fin N → Nat → Prop} {i f : Fin N} {t : SyncThread N}
    (hs : SyncOk H r i f t) (hpos : r'.position i f = r.position i f)
    (hidx : (r.log i).index ≤ (r'.log i).index) (hcom : (r.log i).commited ≤ (r'.log i).commited)
    (hsent : ∀ (call : Nat) q, r.calls.sent[call]? = some q → r'.calls.sent[call]? = some q)
    (hrsp : ∀ call, t = .awaiting call → (call, 0) ∈ r'.calls.rsps →
      (call, 0) ∈ r.calls.rsps ∨ H' i f (r.position i f + 1))
    (hH : ∀ g n, H i g n → H' i g n) : SyncOk H' r' i f t := by
  cases t with
  | off => trivial
  | idle => trivial
  | trying =>
    rw [SyncOk, hpos]
    exact lt_of_lt_of_le hs hidx
  | awaiting call =>
    obtain ⟨h1, req, entry, h2, h3, h4, h5, h6, h7⟩ := hs
    rw [SyncOk, hpos]
    refine ⟨lt_of_lt_of_le h1 hidx, req, entry, hsent call req h2, h3, h4, h5, h6, ?_⟩
    intro hr
    rcases hrsp call rfl hr with hr | hh
    · exact hH _ _ (h7 hr)
    · exact hh
  | counting rest sum =>
    rw [SyncOk, hpos]
    refine Tally.mono hs ?_
    intro g hg
    exact hg.imp (fun hle => hle.trans hcom) (hH _ _)

theorem PutThreadOk.mono {H' : Fin N → Fin N → Nat → Prop} {i : Fin N} {t : PutThread N}
    (hp : PutThreadOk H r i t) (hcom : (r.log i).commited ≤ (r'.log i).commited)
    (hH : ∀ g n, H i g n → H' i g n) : PutThreadOk H' r' i t := by
  cases t with
  | counting n rest sum =>
    refine Tally.mono hp ?_
    intro g hg
    exact hg.imp (fun hle => hle.trans hcom) (hH _ _)
  | _ => trivial

theorem HandlerOk.mono {i : Fin N} {t : AppendHandler} (hh : HandlerOk r i t)
    (hidx : (r.log i).index ≤ (r'.log i).index)
    (hsent : ∀ (call : Nat) q, r.calls.sent[call]? = some q → r'.calls.sent[call]? = some q) :
    HandlerOk r' i t := by
  cases t with
  | free => trivial
  | taking call | entered call | mismatched call =>
    obtain ⟨req, h1, h2⟩ := hh
    exact ⟨req, hsent call req h1, h2⟩
  | matched call =>
    obtain ⟨req, h1, h2, h3⟩ := hh
    exact ⟨req, hsent call req h1, h2, fun entry k he hk => (h3 entry k he hk).trans hidx⟩

namespace Transport

theorem mono {H' : Fin N → Fin N → Nat → Prop} (h : Transport view H r)
    (hH : ∀ i f n, H i f n → H' i f n) : Transport view H' r where
  shape := h.shape
  sent := h.sent
  rsps := h.rsps
  nextindex i f := ⟨(h.nextindex i f).1, (h.nextindex i f).2.1,
    (h.nextindex i f).2.2.imp_right (hH _ _ _)⟩
  self := h.self
  sync i f := (h.sync i f).mono rfl (Nat.le_refl _) (Nat.le_refl _) (fun _ _ hq => hq)
    (fun _ _ hr => Or.inl hr) (hH i)
  puts i k := (h.puts i k).mono (Nat.le_refl _) (hH i)
  handler := h.handler

theorem setSync (h : Transport view H r) {i f : Fin N} {t : SyncThread N}
    (hne : f ≠ i ∨ t = .off) (ht : SyncOk H r i f t) : Transport view H (r.setSync i f t) where
  shape := h.shape
  sent := fun req hreq => (h.sent req hreq).congr rfl
  rsps := h.rsps
  nextindex := h.nextindex
  self j := by
    rw [setSync_sync]
    split
    · rename_i hj
      exact hne.resolve_left fun hfi => hfi (hj.2.symm.trans hj.1)
    · exact h.self j
  sync j g := by
    rw [setSync_sync]
    split
    · rename_i hj
      obtain ⟨rfl, rfl⟩ := hj
      exact ht
    · exact h.sync j g
  puts := h.puts
  handler := h.handler

theorem setNextindex (h : Transport view H r) {i f : Fin N} {n : Int} {t : SyncThread N}
    (hne : f ≠ i) (h0 : 0 ≤ n) (hlt : n < RingBufferQueue.ringBufferSize)
    (hn : n.toNat ≤ (r.log i).commited ∨ H i f n.toNat)
    (ht : SyncOk H (r.setNextindex i f n) i f t) :
    Transport view H ((r.setNextindex i f n).setSync i f t) where
  shape := h.shape
  sent := fun req hreq => (h.sent req hreq).congr rfl
  rsps := h.rsps
  nextindex j g := by
    have hj := h.nextindex j g
    by_cases hjg : j = i ∧ g = f
    · obtain ⟨rfl, rfl⟩ := hjg
      have hpos : ((r.setNextindex j g n).setSync j g t).nextindex j g = n :=
        (setNextindex_nextindex ..).trans (if_pos ⟨rfl, rfl⟩)
      rw [position, hpos]
      exact ⟨h0, hlt, hn⟩
    · have hpos : ((r.setNextindex i f n).setSync i f t).nextindex j g = r.nextindex j g :=
        (setNextindex_nextindex ..).trans (if_neg hjg)
      rw [position, hpos]
      exact hj
  self j := by
    rw [setSync_sync]
    split
    · rename_i hj
      exact absurd (hj.2.symm.trans hj.1) hne
    · exact h.self j
  sync j g := by
    rw [setSync_sync]
    split
    · rename_i hj
      obtain ⟨rfl, rfl⟩ := hj
      exact ht
    · rename_i hjg
      have hpos : ((r.setNextindex i f n).setSync i f t).position j g = r.position j g :=
        congrArg Int.toNat ((setNextindex_nextindex ..).trans (if_neg hjg))
      exact (h.sync j g).mono hpos (Nat.le_refl _) (Nat.le_refl _) (fun _ _ hq => hq)
        (fun _ _ hr => Or.inl hr) fun _ _ hh => hh
  puts := h.puts
  handler := h.handler

theorem setPut (h : Transport view H r) {i : Fin N} {k : Nat} {t : PutThread N}
    (ht : PutThreadOk H r i t) : Transport view H (r.setPut i k t) where
  shape := h.shape
  sent := fun req hreq => (h.sent req hreq).congr rfl
  rsps := h.rsps
  nextindex := h.nextindex
  self := h.self
  sync := h.sync
  puts j l := by
    rw [setPut_puts]
    split
    · rename_i hj
      obtain ⟨rfl, rfl⟩ := hj
      exact ht
    · exact h.puts j l
  handler := h.handler

theorem setHandler (h : Transport view H r) {i : Fin N} {t : AppendHandler}
    (ht : HandlerOk r i t) : Transport view H (r.setHandler i t) where
  shape := h.shape
  sent := fun req hreq => (h.sent req hreq).congr rfl
  rsps := h.rsps
  nextindex := h.nextindex
  self := h.self
  sync := h.sync
  puts := h.puts
  handler j := by
    rw [setHandler_handler]
    split
    · rename_i hj
      subst hj
      exact ht
    · exact h.handler j

theorem free (h : Transport view H r) (i : Fin N) : Transport view H (r.setHandler i .free) :=
  h.setHandler trivial

theorem setInbox (h : Transport view H r) (inbox : List Nat) :
    Transport view H { r with calls := { r.calls with inbox := inbox } } :=
  ⟨h.shape, fun req hreq => (h.sent req hreq).congr rfl, h.rsps,
    h.nextindex, h.self, h.sync, h.puts, h.handler⟩

theorem setHistory (h : Transport view H r) (applied : Fin N → List Entry)
    (commits : List (Int × List Entry)) :
    Transport view H { r with applied := applied, commits := commits } :=
  ⟨h.shape, fun req hreq => (h.sent req hreq).congr rfl, h.rsps,
    h.nextindex, h.self, h.sync, h.puts, h.handler⟩

theorem setLog (h : Transport view H r) {i : Fin N} {l : RaftLog} (hg : (r.log i).Grows l) :
    Transport view H (r.setLog i l) := by
  have hgrow : ∀ j, (r.log j).Grows ((r.setLog i l).log j) := grows_of_setLog h.shape hg rfl
  have hindex : ∀ j, (r.log j).index ≤ ((r.setLog i l).log j).index := fun j =>
    RaftLog.Grows.index_le (h.shape j) (hgrow j)
  refine ⟨fun j => (hgrow j).shape, fun req hreq => ⟨?_, ?_⟩, h.rsps,
    ?_, h.self, ?_, ?_, ?_⟩
  · exact (h.sent req hreq).commit.trans (hgrow req.id).commited
  · intro entry he
    obtain ⟨h1, k, h2, h3⟩ := (h.sent req hreq).entry entry he
    refine ⟨h1.trans (hgrow req.id).commited, k, h2, ?_⟩
    exact getElem?_of_isPrefix ((hgrow req.id).entries.map (Entry.seen view)) h3
  · intro j g
    obtain ⟨h1, h2, h3⟩ := h.nextindex j g
    exact ⟨h1, h2, h3.imp_left fun hle => hle.trans (hgrow j).commited⟩
  · intro j g
    exact (h.sync j g).mono rfl (hindex j) (hgrow j).commited (fun _ _ hq => hq)
      (fun _ _ hr => Or.inl hr) fun _ _ hh => hh
  · intro j k
    exact (h.puts j k).mono (hgrow j).commited fun _ _ hh => hh
  · intro j
    exact (h.handler j).mono (hindex j) fun _ _ hq => hq

theorem send (h : Transport view H r) {req : AppendReq N} (hreq : ReqOk view r req) :
    Transport view H (r.send req) := by
  have hsent : ∀ (call : Nat) q, r.calls.sent[call]? = some q →
      (r.send req).calls.sent[call]? = some q := fun call q hq => Net.getElem?_send hq
  refine ⟨h.shape, ?_, ?_, h.nextindex, h.self, ?_,
    h.puts, ?_⟩
  · intro q hq
    rcases Net.mem_send.mp hq with hq | rfl
    · exact (h.sent q hq).congr rfl
    · exact hreq.congr rfl
  · intro call code hr
    have hlt := h.rsps call code hr
    rw [Replicas.send, Net.send, List.length_append]
    omega
  · intro j g
    exact (h.sync j g).mono rfl (Nat.le_refl _) (Nat.le_refl _) hsent (fun _ _ hr => Or.inl hr)
      fun _ _ hh => hh
  · intro j
    exact (h.handler j).mono (Nat.le_refl _) hsent

theorem reply (h : Transport view H r) {call : Nat} {code : Int}
    (hlt : call < r.calls.sent.length)
    (hcode : code = 0 → ∀ i f, r.sync i f = .awaiting call → H i f (r.position i f + 1)) :
    Transport view H (r.reply call code) := by
  refine ⟨h.shape, fun q hq => (h.sent q hq).congr rfl, ?_,
    h.nextindex, h.self, ?_, h.puts, h.handler⟩
  · intro c d hr
    rcases List.mem_cons.mp hr with hr | hr
    · rw [(Prod.mk.inj hr).1]
      exact hlt
    · exact h.rsps c d hr
  · intro j g
    refine (h.sync j g).mono rfl (Nat.le_refl _) (Nat.le_refl _) (fun _ _ hq => hq) ?_
      fun _ _ hh => hh
    intro c hth hr
    rcases List.mem_cons.mp hr with hr | hr
    · obtain ⟨rfl, rfl⟩ := Prod.mk.injEq .. ▸ hr
      exact Or.inr (hcode rfl j g hth)
    · exact Or.inl hr

/-! ### The moves -/

theorem ne_of_sync (h : Transport view H r) {i f : Fin N} (hth : r.sync i f ≠ .off) : f ≠ i := by
  rintro rfl
  exact hth (h.self f)

theorem position_lt (h : Transport view H r) (i f : Fin N) :
    r.position i f < RingBufferQueue.ringBufferSize := by
  have := h.nextindex i f
  rw [position]
  omega

theorem nextindex_eq (h : Transport view H r) (i f : Fin N) : r.nextindex i f = r.position i f :=
  (Int.toNat_of_nonneg (h.nextindex i f).1).symm

theorem toSizeT_nextindex (h : Transport view H r) (i f : Fin N) :
    toSizeT (r.nextindex i f) = r.position i f := by
  have := h.position_lt i f
  have hsize := RingBufferQueue.ringBufferSize_eq
  rw [h.nextindex_eq, toSizeT_natCast (by omega)]

/-- A follower with a larger `nextindex_` also holds what is below. -/
theorem holds_of_le (h : Transport view H r) (hdown : ∀ i f m n, m ≤ n → H i f n → H i f m)
    {i g : Fin N} {n : Nat} (hn : n ≤ r.position i g) : n ≤ (r.log i).commited ∨ H i g n :=
  (h.nextindex i g).2.2.imp (fun hle => hn.trans hle) (hdown i g n _ hn)

theorem reqOk_appendReq (h : Transport view H r) {i f : Fin N} {mainEntry : Entry}
    (hlt : r.position i f < (r.log i).index)
    (hat : (r.log i).at (toSizeT (r.nextindex i f + 1)) = some mainEntry) :
    ReqOk view r (r.appendReq i f mainEntry) ∧
      toInt32 (r.nextindex i f + 1) = r.position i f + 1 := by
  have hsize := RingBufferQueue.ringBufferSize_eq
  have hpos := h.position_lt i f
  have hcom := (h.shape i).commited_lt
  have hidx : toInt32 (r.nextindex i f + 1) = r.position i f + 1 := by
    rw [h.nextindex_eq, toInt32_of_nonneg (by omega) (by omega)]
  have hcast : toSizeT (r.nextindex i f + 1) = r.position i f + 1 := by
    rw [h.nextindex_eq, ← Nat.cast_succ, toSizeT_natCast (by omega)]
  rw [hcast, (h.shape i).at_eq hlt] at hat
  refine ⟨⟨Nat.zero_le _, ?_⟩, hidx⟩
  intro entry he
  obtain rfl := (List.cons.inj he).1
  refine ⟨?_, r.position i f, hidx, ?_⟩
  · simp only [appendReq]
    rw [toInt32_natCast (by omega), toSizeT_natCast (by omega)]
  · simp only [appendReq, contents, List.getElem?_map, hat, Option.map_some]
    rfl

theorem leaderCommit (h : Transport view H r) (won : Int) (i : Fin N) (n : Nat) :
    Transport view H (r.leaderCommit won i n) :=
  (h.setLog ((h.shape i).updateCommit n)).setHistory r.applied _

/-- What is left of a request's entry: appended, or refused by a full log. -/
theorem putEntry_getD (h : Transport view H r) (i : Fin N) {req : AppendReq N} {entry : Entry}
    (hs : req ∈ r.calls.sent) (he : req.entrys = [entry]) :
    ((r.log i).putEntry entry).getD (r.log i) = r.log i ∧
        (r.log i).index + 1 = RingBufferQueue.ringBufferSize ∨
      (r.log i).Grows (((r.log i).putEntry entry).getD (r.log i)) ∧
        (((r.log i).putEntry entry).getD (r.log i)).entries = (r.log i).entries ++ [entry] ∧
        (((r.log i).putEntry entry).getD (r.log i)).commited =
          max (r.log i).commited (toSizeT entry.commited) ∧
        (((r.log i).putEntry entry).getD (r.log i)).lastAppend = (r.log i).lastAppend := by
  have hstamp := ((h.sent req hs).entry entry he).1
  have hcom := (h.shape req.id).commited_lt
  rcases (h.shape i).putEntry (lt_of_le_of_lt hstamp hcom) with ⟨hnone, hfull⟩ | ⟨l, hl, hgl⟩
  · rw [hnone]
    exact Or.inl ⟨rfl, hfull⟩
  · rw [hl]
    exact Or.inr hgl

theorem grows_putEntry (h : Transport view H r) (i : Fin N) {req : AppendReq N} {entry : Entry}
    (hs : req ∈ r.calls.sent) (he : req.entrys = [entry]) :
    (r.log i).Grows (((r.log i).putEntry entry).getD (r.log i)) := by
  rcases h.putEntry_getD i hs he with ⟨heq, -⟩ | ⟨hgl, -⟩
  · rw [heq]
    exact (h.shape i).refl
  · exact hgl

theorem putEntry_of_isPrefix (h : Transport view H r) {i : Fin N} {req : AppendReq N}
    {entry : Entry} (hs : req ∈ r.calls.sent) (he : req.entrys = [entry])
    (hp : r.contents view i ++ [entry.seen view] <+: r.contents view req.id) :
    (((r.log i).putEntry entry).getD (r.log i)).entries = (r.log i).entries ++ [entry] ∧
      (((r.log i).putEntry entry).getD (r.log i)).commited =
        max (r.log i).commited (toSizeT entry.commited) ∧
      (((r.log i).putEntry entry).getD (r.log i)).lastAppend = (r.log i).lastAppend := by
  rcases h.putEntry_getD i hs he with ⟨-, hfull⟩ | ⟨-, hgl⟩
  · have hlen := hp.length_le
    have hlt := (h.shape req.id).index_lt
    rw [List.length_append, length_contents (h.shape i), length_contents (h.shape req.id),
      List.length_singleton] at hlen
    omega
  · exact hgl

theorem take_of_put (h : Transport view H r) {i : Fin N} {req : AppendReq N} {entry : Entry}
    {k : Nat} (hs : req ∈ r.calls.sent) (he : req.entrys = [entry]) (hk : k ≤ (r.log i).index)
    (hp : r.contents view i ++ [entry.seen view] <+: r.contents view req.id)
    (hg : ∀ j, (r.log j).Grows (r'.log j))
    (hlog : r'.log = (r.setLog i (((r.log i).putEntry entry).getD (r.log i))).log) :
    ((r'.contents view i).take (k + 1)).length = k + 1 ∧
      (r'.contents view i).take (k + 1) <+: r'.contents view req.id := by
  have hnew : r'.contents view i = r.contents view i ++ [entry.seen view] := by
    rw [contents, hlog, setLog_log, if_pos rfl, (h.putEntry_of_isPrefix hs he hp).1,
      List.map_append]
    rfl
  rw [hnew]
  refine ⟨?_, ((List.take_prefix _ _).trans hp).trans (contents_isPrefix (hg req.id))⟩
  rw [List.length_take, List.length_append, length_contents (h.shape i), List.length_singleton]
  omega

theorem move {G : Guard N} {pod : Fin N → Pod N} (h : Transport view H r)
    (hdown : ∀ i f m n, m ≤ n → H i f n → H i f m) (hm : Move G pod r r')
    (hrej : ∀ i f, G.reject i f → 0 < r.nextindex i f)
    (hput : ∀ i call req entry (k : Nat), G.put i req entry → r.handler i = .matched call →
      r.calls.sent[call]? = some req → req.dst = i → req.entrys = [entry] →
      entry.index = k + 1 → k ≤ (r.log i).index → r.sync req.id i = .awaiting call →
      r'.log = (r.setLog i (((r.log i).putEntry entry).getD (r.log i))).log →
      H req.id i (k + 1)) : Transport view H r' := by
  have hsize := RingBufferQueue.ringBufferSize_eq
  cases hm with
  | start i f hth hne hp =>
    have hcom := (h.shape i).commited_lt
    have hn : toInt64 (r.log i).commited = ((r.log i).commited : Int) :=
      toInt64_of_nonneg (by omega) (by omega)
    rw [hn]
    exact h.setNextindex hne (by omega) (by omega) (Or.inl (by omega)) trivial
  | join i f hth => exact h.setSync (Or.inr rfl) trivial
  | check i f hth hlt =>
    refine h.setSync (Or.inl (h.ne_of_sync (by rw [hth]; nofun))) ?_
    rw [h.toSizeT_nextindex] at hlt
    exact hlt
  | leave i f hth =>
    exact h.setSync (Or.inl (h.ne_of_sync (by rw [hth]; nofun))) (Tally.start _ _ _)
  | send i f mainEntry hth hat =>
    have hs := h.sync i f
    rw [hth] at hs
    obtain ⟨hreq, hidx⟩ := h.reqOk_appendReq hs hat
    refine (h.send hreq).setSync (Or.inl (h.ne_of_sync (by rw [hth]; nofun))) ?_
    refine ⟨hs, _, _, Net.getElem?_send_length _ _, rfl, rfl, rfl, hidx, fun hr => ?_⟩
    exact absurd (h.rsps _ _ hr) (Nat.lt_irrefl _)
  | reject i f call code hth hr hcode hg =>
    have hs := h.sync i f
    rw [hth] at hs
    have hpos := hrej i f hg
    have hlt := h.position_lt i f
    have heq := h.nextindex_eq i f
    have hto : (r.nextindex i f - 1).toNat = r.position i f - 1 := by omega
    refine h.setNextindex (h.ne_of_sync (by rw [hth]; nofun)) (by omega) (by omega) ?_ ?_
    · rw [hto]
      exact h.holds_of_le hdown (Nat.sub_le _ _)
    · have hnew : (r.setNextindex i f (r.nextindex i f - 1)).position i f = r.position i f - 1 := by
        rw [position, setNextindex_nextindex, if_pos ⟨rfl, rfl⟩, hto]
      rw [SyncOk, hnew]
      exact lt_of_le_of_lt (Nat.sub_le _ _) hs.1
  | accept i f call hth hr =>
    have hs := h.sync i f
    rw [hth] at hs
    obtain ⟨hlt, req, entry, -, -, -, -, -, hH⟩ := hs
    have hidx := (h.shape i).index_lt
    have heq := h.nextindex_eq i f
    have hto : (r.nextindex i f + 1).toNat = r.position i f + 1 := by omega
    refine h.setNextindex (h.ne_of_sync (by rw [hth]; nofun)) (by omega) (by omega) (Or.inr ?_)
      (Tally.start _ _ _)
    rw [hto]
    exact hH hr
  | fail i f call hth =>
    have hs := h.sync i f
    rw [hth] at hs
    exact h.setSync (Or.inl (h.ne_of_sync (by rw [hth]; nofun))) hs.1
  | count i f g rest sum hth =>
    have hs := h.sync i f
    rw [hth] at hs
    refine h.setSync (Or.inl (h.ne_of_sync (by rw [hth]; nofun))) ?_
    refine Tally.step (nodup_otherFollowers i f) hs ?_
    intro hge
    rw [h.nextindex_eq, h.nextindex_eq] at hge
    exact h.holds_of_le hdown (by omega)
  | commit i f sum hth hsum =>
    exact (h.leaderCommit _ i _).setSync (Or.inl (h.ne_of_sync (by rw [hth]; nofun))) trivial
  | pass i f sum hth =>
    exact h.setSync (Or.inl (h.ne_of_sync (by rw [hth]; nofun))) trivial
  | setPut i k t ht =>
    refine h.setPut ?_
    cases t with
    | counting n rest sum => exact absurd rfl (ht n rest sum)
    | _ => trivial
  | innerPut i k key value term l n hl =>
    obtain ⟨l', hl', hln⟩ := Option.map_eq_some_iff.mp hl
    obtain ⟨rfl, rfl⟩ := Prod.mk.injEq .. ▸ hln
    have hz : toSizeT ((r.log i).newEntry key value term).commited = 0 := RaftLog.toSizeT_zero
    have hspec := (h.shape i).putEntry_some (by rw [hz]; omega) hl'
    exact (h.setLog hspec.1).setPut trivial
  | poll i k n => exact h.setPut (Tally.start _ _ _)
  | pollCount i f k n rest sum hth =>
    have hp := h.puts i k
    rw [hth] at hp
    refine h.setPut (Tally.step (nodup_others i) hp ?_)
    intro hgt
    rw [h.toSizeT_nextindex] at hgt
    exact h.holds_of_le hdown (Nat.le_of_lt hgt)
  | pollCommit i k n sum hth hsum => exact (h.leaderCommit _ i _).setPut trivial
  | beat i f term =>
    have hcom := (h.shape i).commited_lt
    refine h.send ⟨?_, fun entry he => by cases he⟩
    simp only
    rw [toInt64_of_nonneg (by omega) (by omega), toSizeT_natCast (by omega)]
  | take req call inbox hs => exact (h.setInbox inbox).setHandler ⟨req, hs, rfl⟩
  | takeCommit req call inbox hs hg =>
    have hlog := (h.setInbox inbox).setLog
      ((h.shape req.dst).updateCommit (toSizeT req.commitedIndex))
    rw [Replicas.takeCommit]
    split
    · rename_i hnil
      refine (hlog.free req.dst).reply (List.getElem?_eq_some_iff.mp hs).1 ?_
      -- no thread waits for the answer to a heartbeat
      intro _ i f hth
      have hsync := h.sync i f
      have hth : r.sync i f = .awaiting call := hth
      rw [hth] at hsync
      obtain ⟨-, req', entry, hs', -, -, he, -⟩ := hsync
      obtain rfl : req = req' := Option.some.inj (hs.symm.trans hs')
      rw [hnil] at he
      cases he
    · exact hlog.setHandler ⟨req, hs, rfl⟩
  | mismatch i call hth =>
    have hh := h.handler i
    rw [hth] at hh
    exact h.setHandler hh
  | agree i call req entry hth hs he hmatch =>
    have hdst : req.dst = i := by
      have hh := h.handler i
      rcases hth with hth | hth <;> rw [hth] at hh <;> obtain ⟨req', hs', hd⟩ := hh <;>
        rw [Option.some.inj (hs.symm.trans hs')] <;> exact hd
    refine h.setHandler ⟨req, hs, hdst, ?_⟩
    intro entry' k he' hk
    obtain rfl : entry = entry' := (List.cons.inj (he.symm.trans he')).1
    obtain ⟨-, k', hk', hget⟩ := (h.sent req (List.mem_of_getElem? hs)).entry entry he
    have hlt : k' < (r.log req.id).index := by
      rw [← length_contents (h.shape req.id)]
      exact (List.getElem?_eq_some_iff.mp hget).1
    have hb := (h.shape req.id).index_lt
    have hb' := (h.shape i).index_lt
    rw [Mismatch, not_not, hk, ← Nat.cast_succ, toSizeT_natCast (by omega),
      Nat.mod_eq_of_lt (by omega)] at hmatch
    omega
  | refuse i call code hlt hcode =>
    exact (h.free i).reply hlt fun h0 => absurd h0 hcode
  | putEntry i call req entry hth hs he hg =>
    have hgrow := h.grows_putEntry i (List.mem_of_getElem? hs) he
    refine ((h.setLog hgrow).free i).reply
      (List.getElem?_eq_some_iff.mp hs).1 fun _ j f hj => ?_
    have hj : r.sync j f = .awaiting call := hj
    have hsync := h.sync j f
    rw [hj] at hsync
    obtain ⟨-, req', entry', hs', hid, hdst, he', hidx, -⟩ := hsync
    obtain rfl : req = req' := Option.some.inj (hs.symm.trans hs')
    obtain rfl : entry = entry' := (List.cons.inj (he.symm.trans he')).1
    have hh := h.handler i
    rw [hth] at hh
    obtain ⟨req', hs'', hi, hle⟩ := hh
    obtain rfl : req = req' := Option.some.inj (hs.symm.trans hs'')
    have hput' := hput i call req entry (r.position j f) hg hth hs hi he hidx
      (hle entry _ he hidx)
    rw [hid, ← hi, hdst] at hput'
    exact hput' hj rfl
  | apply i l entry ha => exact (h.setLog ((h.shape i).apply ha).1).setHistory _ r.commits

end Transport

/-! ### What becomes of the logs -/

/-- The first `n` entries of pod `i` are committed already or held by a majority. -/
def Counted (H : Fin N → Fin N → Nat → Prop) (r : Replicas N) (i : Fin N) (n : Nat) : Prop :=
  n ≤ (r.log i).commited ∨
    ∃ S : Finset (Fin N), Majority S ∧ i ∈ S ∧ ∀ g ∈ S, g ≠ i → H i g n

namespace Transport

/-- **What a thread of `Follower::Run` commits was counted.** -/
theorem commit (h : Transport view H r) {i f : Fin N} {sum : Nat}
    (hth : r.sync i f = .counting [] sum) (hsum : sum > ((otherFollowers i f).length + 2) / 2) :
    Counted H r i (r.position i f) := by
  have hne : f ≠ i := h.ne_of_sync (by rw [hth]; nofun)
  have hs := h.sync i f
  rw [hth] at hs
  obtain ⟨-, S, hS, hcard⟩ := hs
  by_cases hle : r.position i f ≤ (r.log i).commited
  · exact Or.inl hle
  refine Or.inr ⟨insert i (insert f S), ?_, Finset.mem_insert_self _ _, ?_⟩
  · have hfS : f ∉ S := fun hf => (mem_otherFollowers.mp (hS f hf).1).2 rfl
    have hiS : i ∉ insert f S := fun hi => by
      rcases Finset.mem_insert.mp hi with hi | hi
      · exact hne hi.symm
      · exact (mem_otherFollowers.mp (hS i hi).1).1 rfl
    have hlen := length_otherFollowers hne
    rw [Majority, Fintype.card_fin, Finset.card_insert_of_notMem hiS,
      Finset.card_insert_of_notMem hfS]
    omega
  · intro g hg hgi
    rcases Finset.mem_insert.mp hg with hg | hg
    · exact absurd hg hgi
    · rcases Finset.mem_insert.mp hg with rfl | hg
      · exact (h.nextindex i g).2.2.resolve_left hle
      · exact (hS g hg).2.2.resolve_left hle

/-- **What a put commits was counted.** -/
theorem pollCommit (h : Transport view H r) {i : Fin N} {k n sum : Nat}
    (hth : r.puts i k = .counting n [] sum) (hsum : sum > ((others i).length + 1) / 2) :
    Counted H r i n := by
  have hp := h.puts i k
  rw [hth] at hp
  obtain ⟨-, S, hS, hcard⟩ := hp
  by_cases hle : n ≤ (r.log i).commited
  · exact Or.inl hle
  refine Or.inr ⟨insert i S, majority_insert (?_) (by omega),
    Finset.mem_insert_self _ _, ?_⟩
  · intro hi
    exact mem_others.mp (hS i hi).1 rfl
  · intro g hg hgi
    exact (hS g ((Finset.mem_insert.mp hg).resolve_left hgi)).2.2.resolve_left hle

end Transport

/-- What a move does to the logs and to the history. -/
inductive Effect (H : Fin N → Fin N → Nat → Prop) (G : Guard N) (pod : Fin N → Pod N)
    (r r' : Replicas N) : Prop
  | quiet (hlog : r'.log = r.log) (happ : r'.applied = r.applied) (hcom : r'.commits = r.commits)
  | innerPut (i : Fin N) (entry : Entry) (l : RaftLog) (hz : entry.commited = 0)
      (hl : (r.log i).putEntry entry = some l) (hlog : r'.log = (r.setLog i l).log)
      (happ : r'.applied = r.applied) (hcom : r'.commits = r.commits)
      (hth : ∃ k key value term, r.puts i k = .termed key value term ∧ entry.term = toInt32 term)
  | commit (i : Fin N) (n : Nat) (hn : Counted H r i n)
      (hlog : r'.log = (r.setLog i ((r.log i).updateCommit n)).log)
      (happ : r'.applied = r.applied)
      (hcom : r'.commits = (r.leaderCommit (pod i).won i n).commits)
  | take (req : AppendReq N) (hs : req ∈ r.calls.sent) (hg : G.commit req)
      (hlog : r'.log =
        (r.setLog req.dst ((r.log req.dst).updateCommit (toSizeT req.commitedIndex))).log)
      (happ : r'.applied = r.applied) (hcom : r'.commits = r.commits)
  | putEntry (i : Fin N) (req : AppendReq N) (entry : Entry) (hs : req ∈ r.calls.sent)
      (he : req.entrys = [entry]) (hg : G.put i req entry)
      (hlog : r'.log = (r.setLog i (((r.log i).putEntry entry).getD (r.log i))).log)
      (happ : r'.applied = r.applied) (hcom : r'.commits = r.commits)
  | apply (i : Fin N) (l : RaftLog) (entry : Entry) (ha : (r.log i).apply = some (l, entry))
      (hlog : r'.log = (r.setLog i l).log)
      (happ : r'.applied = Function.update r.applied i (r.applied i ++ [entry]))
      (hcom : r'.commits = r.commits)

theorem Transport.effect {G : Guard N} {pod : Fin N → Pod N} (h : Transport view H r)
    (hm : Move G pod r r') : Effect H G pod r r' := by
  cases hm with
  | commit i f sum hth hsum =>
    have hn := h.commit hth hsum
    rw [h.toSizeT_nextindex]
    exact .commit i _ hn rfl rfl rfl
  | pollCommit i k n sum hth hsum => exact .commit i n (h.pollCommit hth hsum) rfl rfl rfl
  | innerPut i k key value term l n hl hth =>
    obtain ⟨l', hl', hln⟩ := Option.map_eq_some_iff.mp hl
    obtain ⟨rfl, rfl⟩ := Prod.mk.injEq .. ▸ hln
    exact .innerPut i _ l' rfl hl' rfl rfl rfl ⟨k, key, value, term, hth, rfl⟩
  | takeCommit req call inbox hs hg =>
    have hmem := List.mem_of_getElem? hs
    rw [takeCommit]
    split
    · exact .take req hmem hg rfl rfl rfl
    · exact .take req hmem hg rfl rfl rfl
  | putEntry i call req entry hth hs he hg =>
    exact .putEntry i req entry (List.mem_of_getElem? hs) he hg rfl rfl rfl
  | apply i l entry ha => exact .apply i l entry ha rfl rfl rfl
  | _ => exact .quiet rfl rfl rfl

/-- **Logs only grow.** -/
theorem Effect.grows {G : Guard N} {pod : Fin N → Pod N} (h : Transport view H r)
    (he : Effect H G pod r r') : ∀ j, (r.log j).Grows (r'.log j) := by
  cases he with
  | quiet hlog happ hcom =>
    intro j
    rw [hlog]
    exact (h.shape j).refl
  | innerPut i entry l hz hl hlog happ hcom =>
    refine grows_of_setLog h.shape ?_ hlog
    have hlt : toSizeT entry.commited < RingBufferQueue.ringBufferSize := by
      rw [hz]
      decide
    exact ((h.shape i).putEntry_some hlt hl).1
  | commit i n hn hlog happ hcom => exact grows_of_setLog h.shape ((h.shape i).updateCommit n) hlog
  | take req hs hg hlog happ hcom =>
    exact grows_of_setLog h.shape ((h.shape _).updateCommit _) hlog
  | putEntry i req entry hs he hg hlog happ hcom =>
    exact grows_of_setLog h.shape (h.grows_putEntry i hs he) hlog
  | apply i l entry ha hlog happ hcom => exact grows_of_setLog h.shape ((h.shape i).apply ha).1 hlog

end Replicas

end Mokv.Raft
