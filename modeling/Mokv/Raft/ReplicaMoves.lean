import Mokv.Raft.ElectionMoves

/-!
# The moves of replication

`Replicas.Move` lists what a step of the cluster can do to its replication half, guards
included, and `Cluster.rep_move_of_step` takes the step functions apart once.

`Reset` is not in the list.  `UpdateRaftLog` calls it when the commit index of the request
is above the follower's, and requests with entries carry the commit index `0`
(`Replicas.EntriesPlain`).  So logs only grow.
-/

namespace Mokv.Raft

open Lib

variable {N : Nat}

namespace Replicas

/-- What is known of the steps of a run beyond the code's own checks: of an `Append` that
is answered with a refusal, of an entry that is put into a log, of a request whose commit
index is taken over, and of the term that a put reads. -/
structure Guard (N : Nat) where
  reject : Fin N → Fin N → Prop
  put : Fin N → AppendReq N → Entry → Prop
  commit : AppendReq N → Prop
  stamp : Fin N → Int → Prop

/-- Nothing is known. -/
def Guard.none (N : Nat) : Guard N :=
  ⟨fun _ _ => True, fun _ _ _ => True, fun _ => True, fun _ _ => True⟩

/-- The changes of the replication half. -/
inductive Move (G : Guard N) (pod : Fin N → Pod N) (r : Replicas N) : Replicas N → Prop
  | start (i f : Fin N) (hth : r.sync i f = .off) (hne : f ≠ i)
      (hp : ∃ rest, (pod i).thread = .promoting (f :: rest)) :
      Move G pod r ((r.setNextindex i f (toInt64 (r.log i).commited)).setSync i f .idle)
  | join (i f : Fin N) (hth : r.sync i f = .idle ∨ r.sync i f = .off) :
      Move G pod r (r.setSync i f .off)
  | check (i f : Fin N) (hth : r.sync i f = .idle)
      (hlt : toSizeT (r.nextindex i f) < (r.log i).index) : Move G pod r (r.setSync i f .trying)
  | leave (i f : Fin N) (hth : r.sync i f = .trying) :
      Move G pod r (r.setSync i f (.counting (otherFollowers i f) 2))
  | send (i f : Fin N) (mainEntry : Entry) (hth : r.sync i f = .trying)
      (hat : (r.log i).at (toSizeT (r.nextindex i f + 1)) = some mainEntry) :
      Move G pod r ((r.setSync i f (.awaiting r.calls.sent.length)).send
        (r.appendReq i f mainEntry))
  | reject (i f : Fin N) (call : Nat) (code : Int) (hth : r.sync i f = .awaiting call)
      (hr : (call, code) ∈ r.calls.rsps) (hcode : code ≠ 0) (hg : G.reject i f) :
      Move G pod r ((r.setNextindex i f (r.nextindex i f - 1)).setSync i f .trying)
  | accept (i f : Fin N) (call : Nat) (hth : r.sync i f = .awaiting call)
      (hr : (call, 0) ∈ r.calls.rsps) :
      Move G pod r ((r.setNextindex i f (r.nextindex i f + 1)).setSync i f
        (.counting (otherFollowers i f) 2))
  | fail (i f : Fin N) (call : Nat) (hth : r.sync i f = .awaiting call) :
      Move G pod r (r.setSync i f .trying)
  | count (i f g : Fin N) (rest : List (Fin N)) (sum : Nat)
      (hth : r.sync i f = .counting (g :: rest) sum) :
      Move G pod r (r.setSync i f
        (.counting rest (if r.nextindex i g ≥ r.nextindex i f then sum + 1 else sum)))
  | commit (i f : Fin N) (sum : Nat) (hth : r.sync i f = .counting [] sum)
      (hsum : sum > ((otherFollowers i f).length + 2) / 2) :
      Move G pod r ((r.leaderCommit (pod i).won i (toSizeT (r.nextindex i f))).setSync i f .idle)
  | pass (i f : Fin N) (sum : Nat) (hth : r.sync i f = .counting [] sum) :
      Move G pod r (r.setSync i f .idle)
  | setPut (i : Fin N) (k : Nat) (t : PutThread N) (ht : ∀ n rest sum, t ≠ .counting n rest sum)
      (hg : ∀ key value term, t = .termed key value term → G.stamp i term) :
      Move G pod r (r.setPut i k t)
  | innerPut (i : Fin N) (k : Nat) (key value : Bytes) (term : Int) (l : RaftLog) (n : Nat)
      (hl : (r.log i).put key value term = some (l, n))
      (hth : r.puts i k = .termed key value term) :
      Move G pod r ((r.setLog i l).setPut i k (.polling n))
  | poll (i : Fin N) (k n : Nat) : Move G pod r (r.setPut i k (.counting n (others i) 1))
  | pollCount (i f : Fin N) (k n : Nat) (rest : List (Fin N)) (sum : Nat)
      (hth : r.puts i k = .counting n (f :: rest) sum) :
      Move G pod r (r.setPut i k (.counting n rest
        (if toSizeT (r.nextindex i f) > n then sum + 1 else sum)))
  | pollCommit (i : Fin N) (k n sum : Nat) (hth : r.puts i k = .counting n [] sum)
      (hsum : sum > ((others i).length + 1) / 2) :
      Move G pod r ((r.leaderCommit (pod i).won i n).setPut i k (.done true))
  | beat (i f : Fin N) (term : Int) :
      Move G pod r (r.send ⟨i, f, term, toInt64 (r.log i).commited, []⟩)
  | take (req : AppendReq N) (call : Nat) (inbox : List Nat)
      (hs : r.calls.sent[call]? = some req) :
      Move G pod r (({ r with calls := { r.calls with inbox := inbox } } : Replicas N).setHandler
        req.dst (.taking call))
  | takeCommit (req : AppendReq N) (call : Nat) (inbox : List Nat)
      (hs : r.calls.sent[call]? = some req) (hg : G.commit req) :
      Move G pod r
        (({ r with calls := { r.calls with inbox := inbox } } : Replicas N).takeCommit req call)
  | mismatch (i : Fin N) (call : Nat) (hth : r.handler i = .entered call) :
      Move G pod r (r.setHandler i (.mismatched call))
  | agree (i : Fin N) (call : Nat) (req : AppendReq N) (entry : Entry)
      (hth : r.handler i = .entered call ∨ r.handler i = .mismatched call)
      (hs : r.calls.sent[call]? = some req) (he : req.entrys = [entry])
      (hm : ¬ Mismatch (r.log i) entry) : Move G pod r (r.setHandler i (.matched call))
  | refuse (i : Fin N) (call : Nat) (code : Int) (hlt : call < r.calls.sent.length)
      (hcode : code ≠ 0) :
      Move G pod r ((r.setHandler i .free).reply call code)
  | putEntry (i : Fin N) (call : Nat) (req : AppendReq N) (entry : Entry)
      (hth : r.handler i = .matched call) (hs : r.calls.sent[call]? = some req)
      (he : req.entrys = [entry]) (hg : G.put i req entry) :
      Move G pod r (((r.setLog i (((r.log i).putEntry entry).getD (r.log i))).setHandler i
        .free).reply call 0)
  | apply (i : Fin N) (l : RaftLog) (entry : Entry) (ha : (r.log i).apply = some (l, entry)) :
      Move G pod r { r.setLog i l with
        applied := Function.update r.applied i (r.applied i ++ [entry]) }

theorem setLog_self (r : Replicas N) (i : Fin N) : r.setLog i (r.log i) = r := by
  rw [setLog, Function.update_eq_self]

theorem resetLog_zero (l : RaftLog) : resetLog l (toSizeT 0) = l := by
  rw [resetLog, if_neg]
  rintro ⟨-, h⟩
  exact absurd h (Nat.not_lt_zero _)

/-- The request and entry that pod `i` is about to put into its log. -/
def putReq (r : Replicas N) (i : Fin N) : Option (AppendReq N × Entry) :=
  match r.handler i with
  | .matched call =>
    match r.calls.sent[call]? with
    | none => none
    | some req =>
      match req.entrys with
      | [entry] => some (req, entry)
      | _ => none
  | _ => none

theorem move_of_sync {G : Guard N} {pod : Fin N → Pod N} {r r' : Replicas N} {i f : Fin N} :
    (r.syncCheck i f = some r' → Move G pod r r') ∧
      (r.syncStop pod i f = some r' → Move G pod r r') ∧
    (r.syncSend i f = some r' → Move G pod r r') ∧ (r.syncFailed i f = some r' → Move G pod r r') ∧
    (r.syncCount i f = some r' → Move G pod r r') ∧
    (r.syncCommit pod i f = some r' → Move G pod r r') := by
  refine ⟨?_, ?_, ?_, ?_, ?_, ?_⟩
  · intro h
    rw [syncCheck] at h
    split at h
    · rename_i hth
      split at h
      · rename_i hlt
        obtain rfl := Option.some.inj h
        exact .check i f hth hlt
      · cases h
    · cases h
  · intro h
    rw [syncStop] at h
    split at h
    · rename_i hth
      split at h
      · obtain rfl := Option.some.inj h
        exact .leave i f hth
      · cases h
    · cases h
  · intro h
    rw [syncSend] at h
    split at h
    · rename_i hth
      split at h
      · cases h
      · rename_i mainEntry hat
        obtain rfl := Option.some.inj h
        exact .send i f mainEntry hth hat
    · cases h
  · intro h
    rw [syncFailed] at h
    split at h
    · rename_i call hth
      obtain rfl := Option.some.inj h
      exact .fail i f call hth
    · cases h
  · intro h
    rw [syncCount] at h
    split at h
    · rename_i g rest sum hth
      obtain rfl := Option.some.inj h
      exact .count i f g rest sum hth
    · cases h
  · intro h
    rw [syncCommit] at h
    split at h
    · rename_i sum hth
      obtain rfl := Option.some.inj h
      split
      · rename_i hsum
        exact .commit i f sum hth hsum
      · exact .pass i f sum hth
    · cases h

theorem move_of_syncAnswered {G : Guard N} {pod : Fin N → Pod N} {r r' : Replicas N} {i f : Fin N}
    {code : Int} (hg : code ≠ 0 → G.reject i f) (h : r.syncAnswered i f code = some r') :
    Move G pod r r' := by
  rw [syncAnswered] at h
  split at h
  · rename_i call hth
    split at h
    · rename_i hr
      split at h
      · rename_i hcode
        obtain rfl := Option.some.inj h
        exact .reject i f call code hth hr hcode (hg hcode)
      · rename_i hcode
        obtain rfl := Option.some.inj h
        obtain rfl : code = 0 := not_not.mp hcode
        exact .accept i f call hth hr
    · cases h
  · cases h

theorem move_of_put {G : Guard N} {pod : Fin N → Pod N} {r r' : Replicas N} {i : Fin N} {k : Nat} :
    (∀ key value, r.put pod i k key value = some r' → Move G pod r r') ∧
    (G.stamp i (pod i).term → r.putTerm pod i k = some r' → Move G pod r r') ∧
    (r.innerPut i k = some r' → Move G pod r r') ∧
    (r.poll i k = some r' → Move G pod r r') ∧ (r.pollCount i k = some r' → Move G pod r r') ∧
    (r.pollCommit pod i k = some r' → Move G pod r r') := by
  refine ⟨?_, ?_, ?_, ?_, ?_, ?_⟩
  · intro key value h
    rw [put] at h
    split at h
    · split at h
      · obtain rfl := Option.some.inj h
        exact .setPut i k _ nofun nofun
      · cases h
    · cases h
  · intro hg h
    rw [putTerm] at h
    split at h
    · obtain rfl := Option.some.inj h
      refine .setPut i k _ nofun ?_
      intro key value term ht
      obtain ⟨rfl, rfl, rfl⟩ := PutThread.termed.inj ht
      exact hg
    · cases h
  · intro h
    rw [innerPut] at h
    split at h
    · rename_i key value term hth
      split at h
      · obtain rfl := Option.some.inj h
        exact .setPut i k _ nofun nofun
      · rename_i l n hl
        obtain rfl := Option.some.inj h
        exact .innerPut i k key value term l n hl hth
    · cases h
  · intro h
    rw [poll] at h
    split at h
    · rename_i n hth
      obtain rfl := Option.some.inj h
      exact .poll i k n
    · cases h
  · intro h
    rw [pollCount] at h
    split at h
    · rename_i n f rest sum hth
      obtain rfl := Option.some.inj h
      exact .pollCount i f k n rest sum hth
    · cases h
  · intro h
    rw [pollCommit] at h
    split at h
    · rename_i n sum hth
      obtain rfl := Option.some.inj h
      split
      · rename_i hsum
        exact .pollCommit i k n sum hth hsum
      · exact .setPut i k _ nofun nofun
    · cases h

theorem move_of_updateRaftLog {G : Guard N} {pod : Fin N → Pod N} {r r' : Replicas N} {i : Fin N}
    (h : r.updateRaftLog i = some r') : Move G pod r r' := by
  rw [updateRaftLog] at h
  split at h
  · rename_i call hth
    split at h
    · cases h
    · rename_i req hs
      split at h
      · rename_i entry he
        obtain rfl := Option.some.inj h
        split
        · exact .mismatch i call hth
        · rename_i hm
          exact .agree i call req entry (Or.inl hth) hs he hm
      · obtain rfl := Option.some.inj h
        exact .refuse i call (-3) (List.getElem?_eq_some_iff.mp hs).1 (by decide)
  · cases h

theorem move_of_resetRaftLog {G : Guard N} {pod : Fin N → Pod N} {r r' : Replicas N} {i : Fin N}
    (hplain : r.EntriesPlain) (h : r.resetRaftLog i = some r') : Move G pod r r' := by
  rw [resetRaftLog] at h
  split at h
  · rename_i call hth
    split at h
    · cases h
    · rename_i req hs
      split at h
      · rename_i entry he
        have hne : req.entrys ≠ [] := by rw [he]; exact List.cons_ne_nil _ _
        have hz : req.commitedIndex = 0 := (hplain req (List.mem_of_getElem? hs) hne).2
        simp only [hz, resetLog_zero, setLog_self] at h
        obtain rfl := Option.some.inj h
        split
        · exact .refuse i call (-2) (List.getElem?_eq_some_iff.mp hs).1 (by decide)
        · rename_i hm
          exact .agree i call req entry (Or.inr hth) hs he hm
      · cases h
  · cases h

theorem move_of_putEntry {G : Guard N} {pod : Fin N → Pod N} {r r' : Replicas N} {i : Fin N}
    (hg : ∀ x ∈ r.putReq i, G.put i x.1 x.2) (h : r.putEntry i = some r') : Move G pod r r' := by
  rw [putEntry] at h
  split at h
  · rename_i call hth
    split at h
    · cases h
    · rename_i req hs
      split at h
      · rename_i entry he
        obtain rfl := Option.some.inj h
        refine .putEntry i call req entry hth hs he (hg (req, entry) ?_)
        simp only [putReq, hth, hs, he, Option.mem_def]
      · cases h
  · cases h

theorem move_of_apply {G : Guard N} {pod : Fin N → Pod N} {r r' : Replicas N} {i : Fin N}
    (h : r.apply i = some r') : Move G pod r r' := by
  rw [apply] at h
  split at h
  · cases h
  · rename_i l entry ha
    obtain rfl := Option.some.inj h
    exact .apply i l entry ha

end Replicas

/-- The sender and receiver of an `Append` whose refusal is read in a step. -/
def Action.rejected : Action N → Option (Fin N × Fin N)
  | .replicate (.syncAnswered i f code) => if code ≠ 0 then some (i, f) else none
  | _ => none

/-- The pod that puts an entry of an `Append` into its log in a step. -/
def Action.putter : Action N → Option (Fin N)
  | .replicate (.putEntry i) => some i
  | _ => none

/-- The pod at which a put reads the term in a step. -/
def Action.stamper : Action N → Option (Fin N)
  | .replicate (.putTerm i _) => some i
  | _ => none

/-- The request whose commit index is taken over in a step. -/
def Cluster.commitReq (s : Cluster N) : Action N → Option (AppendReq N)
  | .solveAppend call =>
    match s.rep.calls.arriving call with
    | none => none
    | some req =>
      if TakesOver (s.el.pod req.dst) (s.rep.log req.dst).index req then none else some req
  | .appendStopped i =>
    match (s.el.pod i).stopping with
    | some ⟨[], .solveAppend, call⟩ => s.rep.calls.sent[call]?
    | _ => none
  | _ => none

/-- The step meets a guard. -/
structure Cluster.Guarded (G : Replicas.Guard N) (s : Cluster N) (a : Action N) : Prop where
  reject : ∀ x ∈ a.rejected, G.reject x.1 x.2
  put : ∀ i ∈ a.putter, ∀ x ∈ s.rep.putReq i, G.put i x.1 x.2
  commit : ∀ req ∈ s.commitReq a, G.commit req
  stamp : ∀ i ∈ a.stamper, G.stamp i (s.el.pod i).term

theorem Cluster.guarded_none (s : Cluster N) (a : Action N) :
    s.Guarded (Replicas.Guard.none N) a :=
  ⟨fun _ _ => trivial, fun _ _ _ _ => trivial, fun _ _ => trivial, fun _ _ => trivial⟩

open Replicas in
/-- **The replication half changes as listed.** -/
theorem Cluster.rep_move_of_step {G : Guard N} {s t : Cluster N} {a : Action N}
    (hplain : s.rep.EntriesPlain) (hself : s.el.NoSelf) (hg : s.Guarded G a)
    (h : s.step a = some t) : t.rep = s.rep ∨ Move G s.el.pod s.rep t.rep := by
  cases a with
  | elect a =>
    obtain ⟨e, -, rfl⟩ := Option.map_eq_some_iff.mp h
    exact Or.inl rfl
  | replicate a =>
    obtain ⟨r, hr, rfl⟩ := Option.map_eq_some_iff.mp h
    refine Or.inr ?_
    cases a with
    | syncCheck i f => exact move_of_sync.1 hr
    | syncStop i f => exact move_of_sync.2.1 hr
    | syncSend i f => exact move_of_sync.2.2.1 hr
    | syncAnswered i f code =>
      exact move_of_syncAnswered (fun hcode => hg.reject (i, f) (if_pos hcode)) hr
    | syncFailed i f => exact move_of_sync.2.2.2.1 hr
    | syncCount i f => exact move_of_sync.2.2.2.2.1 hr
    | syncCommit i f => exact move_of_sync.2.2.2.2.2 hr
    | put i k key value => exact move_of_put.1 key value hr
    | putTerm i k => exact move_of_put.2.1 (hg.stamp i rfl) hr
    | innerPut i k => exact move_of_put.2.2.1 hr
    | poll i k => exact move_of_put.2.2.2.1 hr
    | pollCount i k => exact move_of_put.2.2.2.2.1 hr
    | pollCommit i k => exact move_of_put.2.2.2.2.2 hr
    | updateRaftLog i => exact move_of_updateRaftLog hr
    | resetRaftLog i => exact move_of_resetRaftLog hplain hr
    | putEntry i => exact move_of_putEntry (hg.put i rfl) hr
    | apply i => exact move_of_apply hr
  | promote i =>
    simp only [step, promote] at h
    split at h
    · rename_i f rest hth
      split at h
      · rename_i hoff
        obtain rfl := Option.some.inj h
        exact Or.inr (.start i f hoff (hself i _ hth f (List.mem_cons_self ..)) ⟨rest, hth⟩)
      · cases h
    · obtain rfl := Option.some.inj h
      exact Or.inl rfl
    · cases h
  | sendHeartBeat i =>
    simp only [step, sendHeartBeat] at h
    split at h
    · rename_i f rest term hth
      obtain rfl := Option.some.inj h
      exact Or.inr (.beat i f term)
    · cases h
  | join i =>
    simp only [step, join] at h
    split at h
    · rename_i f rest cause call hst
      split at h
      · rename_i hth
        obtain rfl := Option.some.inj h
        exact Or.inr (.join i f hth)
      · cases h
    · cases h
  | solveAppend call =>
    simp only [step, solveAppend] at h
    split at h
    · cases h
    · rename_i req harr
      have hs := Net.getElem?_of_arriving harr
      split at h
      · cases h
      · split at h
        · obtain rfl := Option.some.inj h
          exact Or.inr (.take req call _ hs)
        · obtain rfl := Option.some.inj h
          rename_i htake
          refine Or.inr (.takeCommit req call _ hs (hg.commit req ?_))
          simp only [commitReq, harr, if_neg htake, Option.mem_def]
  | appendStopped i =>
    simp only [step, appendStopped] at h
    split at h
    · rename_i call hst
      split at h
      · cases h
      · rename_i req hs
        obtain rfl := Option.some.inj h
        refine Or.inr (.takeCommit req call s.rep.calls.inbox hs (hg.commit req ?_))
        simp only [commitReq, hst, hs, Option.mem_def]
    · cases h

/-! ### Entries stay plain -/

namespace Replicas

theorem entriesPlain_init : (init N).EntriesPlain := fun _ h => by cases h

theorem takeCommit_sent (r : Replicas N) (req : AppendReq N) (call : Nat) :
    (r.takeCommit req call).calls.sent = r.calls.sent := by
  rw [takeCommit]
  split <;> rfl

theorem Move.sent {G : Guard N} {pod : Fin N → Pod N} {r r' : Replicas N} (h : Move G pod r r') :
    r'.calls.sent = r.calls.sent ∨
      (∃ i f mainEntry, r'.calls.sent = r.calls.sent ++ [r.appendReq i f mainEntry]) ∨
      ∃ i f term,
        r'.calls.sent = r.calls.sent ++ [⟨i, f, term, toInt64 (r.log i).commited, []⟩] := by
  cases h with
  | send i f mainEntry => exact Or.inr (Or.inl ⟨i, f, mainEntry, rfl⟩)
  | beat i f term => exact Or.inr (Or.inr ⟨i, f, term, rfl⟩)
  | takeCommit req call inbox => exact Or.inl (takeCommit_sent _ req call)
  | _ => exact Or.inl rfl

theorem EntriesPlain.move {G : Guard N} {pod : Fin N → Pod N} {r r' : Replicas N}
    (h : r.EntriesPlain) (hm : Move G pod r r') : r'.EntriesPlain := by
  intro req hreq hne
  rcases hm.sent with hs | ⟨i, f, mainEntry, hs⟩ | ⟨i, f, term, hs⟩
  · rw [hs] at hreq
    exact h req hreq hne
  · rw [hs] at hreq
    rcases List.mem_append.mp hreq with hreq | hreq
    · exact h req hreq hne
    · obtain rfl := List.mem_singleton.mp hreq
      exact ⟨rfl, rfl⟩
  · rw [hs] at hreq
    rcases List.mem_append.mp hreq with hreq | hreq
    · exact h req hreq hne
    · obtain rfl := List.mem_singleton.mp hreq
      exact absurd rfl hne

end Replicas

/-- What holds in every state, whatever the schedule. -/
structure Cluster.Plain (s : Cluster N) : Prop where
  entries : s.rep.EntriesPlain
  noSelf : s.el.NoSelf

theorem Cluster.plain_init : (Cluster.init N).Plain :=
  ⟨Replicas.entriesPlain_init, Elections.noSelf_init⟩

theorem Cluster.Plain.step {s t : Cluster N} {a : Action N} (h : s.Plain)
    (hstep : s.step a = some t) : t.Plain := by
  constructor
  · rcases rep_move_of_step h.entries h.noSelf (guarded_none s a) hstep with he | hm
    · rw [he]
      exact h.entries
    · exact h.entries.move hm
  · rcases move_of_step h.entries (elects_none s a t) hstep with he | hm
    · rw [he]
      exact h.noSelf
    · exact h.noSelf.move hm

end Mokv.Raft
