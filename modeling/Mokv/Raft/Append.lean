import Mokv.Raft.Replication

/-!
# An append, from the follower's side

What `SolveAppend` and `UpdateRaftLog` do to the log of a follower when nothing comes in
between.  `Replicas.run_updateRaftLog` connects this with the steps of the handler.

`UpdateCommit` runs before `UpdateRaftLog` compares the same commit index, so the log is
never reset (`resetLog_updateCommit`); and `UpdateRaftLog` does not look at what `Put`
returns.  `zero_means_stored_iff`: the answer is right exactly when an entry with the next
index meets a log that takes it.
-/

namespace Mokv.Raft

open Lib Replicas

namespace RaftLog

/-- `UpdateRaftLog`, with its code. -/
def updateRaftLog (l : RaftLog) (entries : List Entry) (leaderCommit : Nat) : RaftLog × Int :=
  match entries with
  | [entry] =>
    if Mismatch l entry then
      let l := resetLog l leaderCommit
      if Mismatch l entry then (l, -2) else ((l.putEntry entry).getD l, 0)
    else ((l.putEntry entry).getD l, 0)
  | _ => (l, -3)

/-- `SolveAppend`, as far as the log is concerned. -/
def solveAppend (l : RaftLog) (commitedIndex : Int) (entrys : List Entry) : RaftLog × Int :=
  let l := l.updateCommit (toSizeT commitedIndex)
  if entrys = [] then (l, 0) else l.updateRaftLog entrys (toSizeT commitedIndex)

end RaftLog

/-! ### The steps of the handler -/

namespace Replicas

variable {N : Nat}

theorem setHandler_setHandler (r : Replicas N) (i : Fin N) (h h' : AppendHandler) :
    (r.setHandler i h).setHandler i h' = r.setHandler i h' := by
  simp [setHandler]

theorem setLog_setLog (r : Replicas N) (i : Fin N) (l l' : RaftLog) :
    (r.setLog i l).setLog i l' = r.setLog i l' := by
  simp [setLog]

section

variable (r : Replicas N) (pod : Fin N → Pod N) (i : Fin N) {call : Nat} {req : AppendReq N}
  {entry : Entry}

theorem step_updateRaftLog (hhandler : r.handler i = .entered call)
    (hsent : r.calls.sent[call]? = some req) (hentrys : req.entrys = [entry]) :
    r.step pod (.updateRaftLog i) =
      some (r.setHandler i
        (if Mismatch (r.log i) entry then .mismatched call else .matched call)) := by
  rw [step, Replicas.updateRaftLog, hhandler]
  simp only [hsent, hentrys]

theorem step_resetRaftLog (hsent : r.calls.sent[call]? = some req) (hentrys : req.entrys = [entry])
    {l : RaftLog} (hl : resetLog (r.log i) (toSizeT req.commitedIndex) = l) :
    (r.setHandler i (.mismatched call)).step pod (.resetRaftLog i) =
      some (if Mismatch l entry then ((r.setLog i l).setHandler i .free).reply call (-2)
        else (r.setLog i l).setHandler i (.matched call)) := by
  have hhandler : (r.setHandler i (.mismatched call)).handler i = .mismatched call := by
    simp [setHandler]
  have hsent' : (r.setHandler i (.mismatched call)).calls.sent[call]? = some req := hsent
  have hlog : ∀ h, ((r.setHandler i (.mismatched call)).setLog i l).setHandler i h =
      (r.setLog i l).setHandler i h := fun h =>
    setHandler_setHandler (r.setLog i l) i (.mismatched call) h
  rw [step, resetRaftLog, hhandler]
  simp only [hsent', hentrys]
  rw [show (r.setHandler i (.mismatched call)).log i = r.log i from rfl, hl, hlog, hlog]

theorem step_putEntry (hsent : r.calls.sent[call]? = some req) (hentrys : req.entrys = [entry]) :
    (r.setHandler i (.matched call)).step pod (.putEntry i) =
      some (((r.setLog i (((r.log i).putEntry entry).getD (r.log i))).setHandler i .free).reply
        call 0) := by
  have hhandler : (r.setHandler i (.matched call)).handler i = .matched call := by simp [setHandler]
  have hsent' : (r.setHandler i (.matched call)).calls.sent[call]? = some req := hsent
  rw [step, putEntry, hhandler]
  simp only [hsent', hentrys]
  rw [show (r.setHandler i (.matched call)).log i = r.log i from rfl]
  refine congrArg (fun x => some (reply x call 0)) ?_
  exact setHandler_setHandler (r.setLog i _) i (.matched call) .free

/-- **The steps of a handler, one after another, are `UpdateRaftLog`.** -/
theorem run_updateRaftLog (hhandler : r.handler i = .entered call)
    (hsent : r.calls.sent[call]? = some req) (hentrys : req.entrys = [entry]) :
    let result := (r.log i).updateRaftLog [entry] (toSizeT req.commitedIndex)
    ∃ as : List (ReplicaAct N),
      run (fun r a => r.step pod a) r as =
        some (((r.setLog i result.1).setHandler i .free).reply call result.2) := by
  have hupdate := r.step_updateRaftLog pod i hhandler hsent hentrys
  rw [RaftLog.updateRaftLog]
  by_cases hm : Mismatch (r.log i) entry
  · rw [if_pos hm] at hupdate ⊢
    have hreset := r.step_resetRaftLog pod i hsent hentrys rfl
    simp only
    generalize resetLog (r.log i) (toSizeT req.commitedIndex) = l at hreset ⊢
    by_cases hm' : Mismatch l entry
    · rw [if_pos hm'] at hreset ⊢
      refine ⟨[.updateRaftLog i, .resetRaftLog i], ?_⟩
      simp only [run_cons, hupdate, Option.bind_some, hreset, run_nil]
    · rw [if_neg hm'] at hreset ⊢
      have hput := (r.setLog i l).step_putEntry pod i hsent hentrys
      rw [show (r.setLog i l).log i = l by simp [setLog], setLog_setLog] at hput
      refine ⟨[.updateRaftLog i, .resetRaftLog i, .putEntry i], ?_⟩
      simp only [run_cons, hupdate, Option.bind_some, hreset, hput, run_nil]
  · rw [if_neg hm] at hupdate ⊢
    have hput := r.step_putEntry pod i hsent hentrys
    refine ⟨[.updateRaftLog i, .putEntry i], ?_⟩
    simp only [run_cons, hupdate, Option.bind_some, hput, run_nil]

end

end Replicas

/-! ### The answer -/

namespace RaftLog

/-- **The log is never reset**: after `UpdateCommit` its commit index is not below the leader's. -/
theorem resetLog_updateCommit (l : RaftLog) (leaderCommit : Nat) :
    resetLog (l.updateCommit leaderCommit) leaderCommit = l.updateCommit leaderCommit := by
  refine if_neg ?_
  rintro ⟨hlt, hgt⟩
  simp only [updateCommit] at hlt hgt
  omega

theorem solveAppend_one (l : RaftLog) (commitedIndex : Int) (entry : Entry) :
    l.solveAppend commitedIndex [entry] =
      let l' := l.updateCommit (toSizeT commitedIndex)
      if Mismatch l entry then (l', -2) else ((l'.putEntry entry).getD l', 0) := by
  have hmismatch : Mismatch (l.updateCommit (toSizeT commitedIndex)) entry ↔ Mismatch l entry :=
    Iff.rfl
  rw [solveAppend, if_neg (by simp), updateRaftLog, resetLog_updateCommit]
  simp only [hmismatch]
  split <;> rfl

/-- The answer to an append of one entry is right: after a zero the entry is the last of the log,
and otherwise nothing was appended. -/
def AnsweredRight (l : RaftLog) (commitedIndex : Int) (entry : Entry) : Prop :=
  let r := l.solveAppend commitedIndex [entry]
  (r.2 = 0 → r.1.at (toSizeT entry.index) = some entry ∧ r.1.index = toSizeT entry.index) ∧
    (r.2 ≠ 0 → r.1.entries = l.entries ∧ r.1.index = l.index)

theorem at_index {l : RaftLog} (h : l.queue.Ok) {entry : Entry} {es : List Entry}
    (hes : l.queue.toList = es ++ [entry]) (hindex : l.index < 2 ^ 64) :
    l.at l.index = some entry := by
  have hlen : l.queue.head = es.length + 1 := by
    rw [← h.size_eq, ← RingBufferQueue.length_toList, hes, List.length_append]
    rfl
  rw [at_eq_of_place h hindex (k := es.length) (by omega) (by rw [hlen]; omega), entries, hes]
  simp

/-- **A zero means stored** exactly when an entry with the next index meets a log that takes
it: one that is not stopping and has room in its ring. -/
theorem zero_means_stored_iff (l : RaftLog) (h : l.queue.Ok) (commitedIndex : Int) (entry : Entry) :
    l.AnsweredRight commitedIndex entry ↔
      (toSizeT entry.index = (l.index + 1) % 2 ^ 64 → l.accepts = true) := by
  rw [AnsweredRight, solveAppend_one]
  by_cases hm : Mismatch l entry
  · rw [if_pos hm]
    refine iff_of_true ⟨?_, fun _ => ⟨rfl, rfl⟩⟩ fun heq => absurd heq hm
    intro hzero
    have hcode : (-2 : Int) ≠ 0 := by decide
    exact absurd hzero hcode
  · have heq : toSizeT entry.index = (l.index + 1) % 2 ^ 64 := not_not.mp hm
    rw [if_neg hm]
    have hq : (l.updateCommit (toSizeT commitedIndex)).queue.Ok := h
    rcases putEntry_eq hq entry with ⟨ha, hp⟩ | ⟨ha, q, -, hqok, -, hlist, hp⟩
    · rw [hp]
      refine iff_of_false ?_ ?_
      · intro hright
        -- the index is the old one, and the entry has the next
        have hindex : l.index = toSizeT entry.index := (hright.1 rfl).2
        omega
      · intro hok
        have hno : l.accepts = false := ha
        rw [hok heq] at hno
        cases hno
    · rw [hp]
      refine iff_of_true ⟨fun _ => ?_, fun hne => absurd rfl hne⟩ fun _ => ha
      have hlt : (l.index + 1) % 2 ^ 64 < 2 ^ 64 := Nat.mod_lt _ (by decide)
      rw [heq]
      exact ⟨at_index (l := { l.updateCommit (toSizeT commitedIndex) with
        queue := q
        index := (l.index + 1) % 2 ^ 64
        commited := max (l.updateCommit (toSizeT commitedIndex)).commited
          (toSizeT entry.commited) })
          hqok hlist hlt, rfl⟩

/-- The first entry meets an empty log. -/
theorem zero_means_stored_iff_sample :
    ((load 0).AnsweredRight 0 ⟨1, 1, [1], [10], 0, 0⟩ ↔
        (toSizeT 1 = (0 + 1) % 2 ^ 64 → (load 0).accepts = true)) ∧
      ((load 0).solveAppend 0 [⟨1, 1, [1], [10], 0, 0⟩]).2 = 0 ∧ (load 0).accepts = true :=
  ⟨zero_means_stored_iff (load 0) (RingBufferQueue.ok_empty _) 0 ⟨1, 1, [1], [10], 0, 0⟩, by decide,
    by decide⟩

/-- A log whose ring is used up. -/
def fullLog : RaftLog := ⟨262143, 0, 0, 0, ⟨fun _ => Entry.empty, 262143, 0⟩, false⟩

/-- **A full ring answers zero** and drops the entry. -/
theorem full_ring_answers_zero :
    fullLog.queue.Ok ∧
      (fullLog.solveAppend 0 [⟨1, 262144, [1], [10], 0, 0⟩]).2 = 0 ∧
      (fullLog.solveAppend 0 [⟨1, 262144, [1], [10], 0, 0⟩]).1.index = 262143 ∧
      ¬ fullLog.AnsweredRight 0 ⟨1, 262144, [1], [10], 0, 0⟩ := by
  refine ⟨⟨rfl, by decide⟩, by decide, by decide, ?_⟩
  intro h
  exact absurd (h.1 (by decide)).2 (by decide)

end RaftLog

end Mokv.Raft
