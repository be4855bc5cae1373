import Mokv.Raft.StateMachineSafety

/-!
# The calls of `Put`

A call of `Pod::Put` on a leader carries a key and a value from the client into the log, and
returns success once the log is committed up to there.  `Carries` says how far it is, and
each step of the cluster keeps it (`Carries.step`).  Every entry of a log was made by such a
call (`Transport.mem_contents_of_move`).
-/

namespace Mokv.Raft

open Lib

variable {N : Nat}

/-- The step is one of a call of `Put`. -/
def ReplicaAct.ofPut : ReplicaAct N → Bool
  | .put _ _ _ _ => true
  | .putTerm _ _ => true
  | .innerPut _ _ => true
  | .poll _ _ => true
  | .pollCount _ _ => true
  | .pollCommit _ _ => true
  | _ => false

/-- The key that a client asks to put. -/
def Action.putKey : Action N → Option Bytes
  | .replicate (.put _ _ key _) => some key
  | _ => none

theorem Replicas.puts_of_step {r r' : Replicas N} {pod : Fin N → Pod N} {a : ReplicaAct N}
    (ha : a.ofPut = false) (h : r.step pod a = some r') : r'.puts = r.puts := by
  cases a with
  | syncCheck i f =>
    rw [step, syncCheck] at h
    grind [setSync]
  | syncStop i f =>
    rw [step, syncStop] at h
    grind [setSync]
  | syncSend i f =>
    rw [step, syncSend] at h
    grind [setSync, send]
  | syncAnswered i f code =>
    rw [step, syncAnswered] at h
    grind [setSync, setNextindex]
  | syncFailed i f =>
    rw [step, syncFailed] at h
    grind [setSync]
  | syncCount i f =>
    rw [step, syncCount] at h
    grind [setSync]
  | syncCommit i f =>
    rw [step, syncCommit] at h
    grind [setSync, leaderCommit, setLog]
  | updateRaftLog i =>
    rw [step, updateRaftLog] at h
    grind [setHandler, reply]
  | resetRaftLog i =>
    rw [step, resetRaftLog] at h
    grind [setHandler, reply, setLog]
  | putEntry i =>
    rw [step, putEntry] at h
    grind [setHandler, reply, setLog]
  | apply i =>
    rw [step, apply] at h
    grind [setLog]
  | _ => cases ha

theorem Cluster.puts_of_step {s t : Cluster N} {a : Action N}
    (ha : ∀ b, a = .replicate b → b.ofPut = false) (h : s.step a = some t) :
    t.rep.puts = s.rep.puts := by
  cases a with
  | elect a =>
    obtain ⟨e, -, rfl⟩ := Option.map_eq_some_iff.mp h
    rfl
  | replicate a =>
    obtain ⟨r, hr, rfl⟩ := Option.map_eq_some_iff.mp h
    exact Replicas.puts_of_step (ha a rfl) hr
  | promote i =>
    rw [step, promote] at h
    grind [Replicas.setSync, Replicas.setNextindex]
  | sendHeartBeat i =>
    rw [step, sendHeartBeat] at h
    grind [Replicas.send]
  | join i =>
    rw [step, join] at h
    grind [Replicas.setSync]
  | solveAppend call =>
    rw [step, solveAppend] at h
    grind [Replicas.setHandler, Replicas.takeCommit, Replicas.setLog, Replicas.reply]
  | appendStopped i =>
    rw [step, appendStopped] at h
    grind [Replicas.setHandler, Replicas.takeCommit, Replicas.setLog, Replicas.reply]

namespace Replicas

variable {γ : Type} {view : Int → Bytes → Bytes → γ} {H : Fin N → Fin N → Nat → Prop}
  {r r' : Replicas N}

theorem Effect.applied_isPrefix {G : Guard N} {pod : Fin N → Pod N} (h : Effect H G pod r r')
    (i : Fin N) : r.applied i <+: r'.applied i := by
  have hsame : r'.applied = r.applied → r.applied i <+: r'.applied i := by
    intro happ
    rw [happ]
  cases h with
  | quiet hlog happ hcom => exact hsame happ
  | innerPut j entry l hz hl hlog happ hcom => exact hsame happ
  | commit j n hn hlog happ hcom => exact hsame happ
  | take req hs hg hlog happ hcom => exact hsame happ
  | putEntry j req entry hs he hg hlog happ hcom => exact hsame happ
  | apply j l entry ha hlog happ hcom =>
    rw [happ, Function.update_apply]
    split
    · subst_vars
      exact List.prefix_append _ _
    · exact List.prefix_refl _

/-- An entry of a log was in some log before, or a call of `Put` has just made it. -/
theorem Transport.mem_contents_of_move {G : Guard N} {pod : Fin N → Pod N} (h : Transport view H r)
    (hm : Move G pod r r') {j : Fin N} {e : γ} (he : e ∈ r'.contents view j) :
    (∃ i, e ∈ r.contents view i) ∨ ∃ k key value term, r.puts j k = .termed key value term ∧
      e = view (toInt32 term) key value := by
  have hsame : ∀ {i l}, r'.log = (r.setLog i l).log → l.entries = (r.log i).entries →
      ∃ i, e ∈ r.contents view i := by
    intro i l hlog hent
    refine ⟨j, ?_⟩
    rw [contents, hlog, setLog_log] at he
    split at he
    · subst_vars
      rw [hent] at he
      exact he
    · exact he
  have hmore : ∀ {i l} {entry : Entry}, r'.log = (r.setLog i l).log →
      l.entries = (r.log i).entries ++ [entry] →
        (∃ i, e ∈ r.contents view i) ∨ j = i ∧ e = entry.seen view := by
    intro i l entry hlog hent
    rw [contents, hlog, setLog_log] at he
    split at he
    · subst_vars
      rw [hent, List.map_append] at he
      rcases List.mem_append.mp he with he | he
      · exact Or.inl ⟨_, he⟩
      · exact Or.inr ⟨rfl, List.mem_singleton.mp he⟩
    · exact Or.inl ⟨j, he⟩
  cases hm with
  | innerPut i k key value term l n hl hth =>
    obtain ⟨l', hl', hln⟩ := Option.map_eq_some_iff.mp hl
    obtain ⟨rfl, rfl⟩ := Prod.mk.injEq .. ▸ hln
    obtain ⟨-, hent, -, -⟩ := (h.shape i).putEntry_some
      (show toSizeT 0 < RingBufferQueue.ringBufferSize by decide) hl'
    rcases hmore rfl hent with hold | ⟨rfl, rfl⟩
    · exact Or.inl hold
    · exact Or.inr ⟨k, key, value, term, hth, rfl⟩
  | putEntry i call req entry hth hs hreq hg =>
    have hmem := List.mem_of_getElem? hs
    rcases h.putEntry_getD i hmem hreq with ⟨heq, -⟩ | ⟨-, hent, -, -⟩
    · exact Or.inl (hsame rfl (by rw [heq]))
    · rcases hmore rfl hent with hold | ⟨rfl, rfl⟩
      · exact Or.inl hold
      · obtain ⟨k, -, hget⟩ := ((h.sent req hmem).entry entry hreq).2
        exact Or.inl ⟨_, List.mem_of_getElem? hget⟩
  | commit i f sum hth hsum => exact Or.inl (hsame rfl rfl)
  | pollCommit i k n sum hth hsum => exact Or.inl (hsame rfl rfl)
  | takeCommit req call inbox hs hg =>
    refine Or.inl (hsame (i := req.dst)
      (l := (r.log req.dst).updateCommit (toSizeT req.commitedIndex)) ?_ rfl)
    rw [Replicas.takeCommit]
    split <;> rfl
  | apply i l entry ha => exact Or.inl (hsame rfl ((h.shape i).apply ha).2.1)
  | _ => exact Or.inl ⟨j, he⟩

end Replicas

namespace Cluster

open Replicas

/-- The client of call `k` on pod `i` asked to put `value` under `key`. -/
def Asked (as : List (Action N)) (i : Fin N) (k : Nat) (key value : Bytes) : Prop :=
  .replicate (.put i k key value) ∈ as

/-- The pair is in the log of pod `i` at `nowIdx`. -/
def InLog (r : Replicas N) (i : Fin N) (key value : Bytes) (nowIdx : Nat) : Prop :=
  ∃ m, nowIdx = m + 1 ∧ (r.contents keyValue i)[m]? = some (key, value)

/-- A call of `Put` on pod `i` is under way with the pair or has returned.  Once it polls, the
pair is in the log; if it has succeeded, the pair is committed. -/
def Carries (r : Replicas N) (i : Fin N) (key value : Bytes) : PutThread N → Prop
  | .free => False
  | .checked key' value' => key' = key ∧ value' = value
  | .termed key' value' _ => key' = key ∧ value' = value
  | .polling nowIdx => InLog r i key value nowIdx
  | .counting nowIdx _ _ => InLog r i key value nowIdx
  | .done ok => ok = true →
      ∃ m : Nat, ((r.contents keyValue i).take (r.log i).commited)[m]? = some (key, value)

/-- The logs only grow, and so do the lists of applied entries. -/
theorem LogInv.grows {s t : Cluster N} {a : Action N} (h : s.LogInv) (hok : s.LogsAgreeOk a)
    (hstep : s.step a = some t) :
    (∀ i, (s.rep.log i).Grows (t.rep.log i)) ∧ ∀ i, s.rep.applied i <+: t.rep.applied i := by
  rcases rep_move_of_step h.plain.entries h.plain.noSelf hok.guarded hstep with he | hm
  · rw [he]
    exact ⟨fun i => (h.agreed.transport.shape i).refl, fun i => List.prefix_refl _⟩
  · have heff := h.agreed.transport.effect hm
    exact ⟨heff.grows h.agreed.transport, heff.applied_isPrefix⟩

theorem take_contents_isPrefix {r r' : Replicas N} {i : Fin N} (hg : (r.log i).Grows (r'.log i)) :
    (r.contents keyValue i).take (r.log i).commited <+:
      (r'.contents keyValue i).take (r'.log i).commited :=
  List.prefix_take_iff.mpr ⟨(List.take_prefix _ _).trans (contents_isPrefix hg),
    (List.length_take_le _ _).trans hg.commited⟩

theorem Carries.mono {r r' : Replicas N} {i : Fin N} {key value : Bytes} {t : PutThread N}
    (h : Carries r i key value t) (hg : (r.log i).Grows (r'.log i)) :
    Carries r' i key value t := by
  have hin : ∀ {nowIdx}, InLog r i key value nowIdx → InLog r' i key value nowIdx := by
    rintro nowIdx ⟨m, hn, hget⟩
    exact ⟨m, hn, getElem?_of_isPrefix (contents_isPrefix hg) hget⟩
  cases t with
  | free => exact h
  | checked key' value' => exact h
  | termed key' value' term => exact h
  | polling nowIdx => exact hin h
  | counting nowIdx rest sum => exact hin h
  | done ok =>
    intro hok
    obtain ⟨m, hget⟩ := h hok
    exact ⟨m, getElem?_of_isPrefix (take_contents_isPrefix hg) hget⟩

theorem Carries.setPut {r r' : Replicas N} {i j : Fin N} {k l : Nat} {key value : Bytes}
    {t : PutThread N} (h : Carries r i key value (r.puts i k)) (hg : (r.log i).Grows (r'.log i))
    (hputs : r'.puts = (r.setPut j l t).puts)
    (ht : i = j → k = l → Carries r' i key value t) : Carries r' i key value (r'.puts i k) := by
  rw [hputs, setPut_puts]
  split
  · rename_i hij
    exact ht hij.1 hij.2
  · exact h.mono hg

/-- **A call of `Put` goes on with its pair.** -/
theorem Carries.step {s t : Cluster N} {a : Action N} (hshape : ∀ i, (s.rep.log i).Shape)
    (hg : ∀ i, (s.rep.log i).Grows (t.rep.log i)) (hstep : s.step a = some t) {i : Fin N} {k : Nat}
    {key value : Bytes} (h : Carries s.rep i key value (s.rep.puts i k)) :
    Carries t.rep i key value (t.rep.puts i k) := by
  by_cases ha : ∀ b, a = .replicate b → b.ofPut = false
  · rw [puts_of_step ha hstep]
    exact h.mono (hg i)
  · obtain ⟨b, rfl, hb⟩ : ∃ b, a = .replicate b ∧ b.ofPut = true := by
      simpa using ha
    obtain ⟨r, hr, rfl⟩ := Option.map_eq_some_iff.mp hstep
    -- what the call of the step carries, if it is this one
    have hown : ∀ {j : Fin N} {l : Nat} {u : PutThread N}, s.rep.puts j l = u → i = j → k = l →
        Carries s.rep i key value u := by
      rintro j l u hu rfl rfl
      exact hu ▸ h
    cases b with
    | put j l key' value' =>
      rw [Replicas.step, Replicas.put] at hr
      split at hr
      · rename_i hth
        split at hr
        · obtain rfl := Option.some.inj hr
          exact h.setPut (hg i) rfl fun hij hkl => (hown hth hij hkl).elim
        · cases hr
      · cases hr
    | putTerm j l =>
      rw [Replicas.step, putTerm] at hr
      split at hr
      · rename_i key' value' hth
        obtain rfl := Option.some.inj hr
        exact h.setPut (hg i) rfl fun hij hkl => hown hth hij hkl
      · cases hr
    | innerPut j l =>
      rw [Replicas.step, innerPut] at hr
      split at hr
      · rename_i key' value' term hth
        split at hr
        · obtain rfl := Option.some.inj hr
          exact h.setPut (hg i) rfl fun _ _ => by simp [Carries]
        · -- the entry is the one after those the log had
          rename_i l' n hl
          obtain rfl := Option.some.inj hr
          obtain ⟨l', hl', hln⟩ := Option.map_eq_some_iff.mp hl
          obtain ⟨rfl, rfl⟩ := Prod.mk.injEq .. ▸ hln
          refine h.setPut (hg i) rfl ?_
          rintro rfl rfl
          obtain ⟨rfl, rfl⟩ := hown hth rfl rfl
          obtain ⟨hgl, hent, -, -⟩ := (hshape i).putEntry_some
            (show toSizeT 0 < RingBufferQueue.ringBufferSize by decide) hl'
          have hlen := (hshape i).length_entries
          have hidx : l'.index = (s.rep.log i).index + 1 := by
            rw [← hgl.shape.length_entries, hent, List.length_append, hlen,
              List.length_singleton]
          have hlog : (s.rep.setLog i l').log i = l' := by
            rw [setLog_log, if_pos rfl]
          refine ⟨(s.rep.log i).index, hidx, ?_⟩
          rw [contents, Replicas.setPut, hlog, hent, List.map_append, List.getElem?_append_right]
          · rw [List.length_map, hlen, Nat.sub_self]
            rfl
          · rw [List.length_map, hlen]
      · cases hr
    | poll j l =>
      rw [Replicas.step, poll] at hr
      split at hr
      · rename_i n hth
        obtain rfl := Option.some.inj hr
        exact h.setPut (hg i) rfl fun hij hkl => (hown hth hij hkl).mono (hg i)
      · cases hr
    | pollCount j l =>
      rw [Replicas.step, pollCount] at hr
      split at hr
      · rename_i n f rest sum hth
        obtain rfl := Option.some.inj hr
        exact h.setPut (hg i) rfl fun hij hkl => (hown hth hij hkl).mono (hg i)
      · cases hr
    | pollCommit j l =>
      rw [Replicas.step, pollCommit] at hr
      split at hr
      · rename_i n sum hth
        by_cases hsum : sum > ((others j).length + 1) / 2
        · -- the log is committed up to the entry
          rw [if_pos hsum] at hr
          obtain rfl := Option.some.inj hr
          refine h.setPut (hg i) rfl ?_
          rintro rfl rfl -
          obtain ⟨m, rfl, hget⟩ := hown hth rfl rfl
          have hlog : (s.rep.leaderCommit (s.el.pod i).won i (m + 1)).log i =
              (s.rep.log i).updateCommit (m + 1) := by
            rw [leaderCommit, setLog_log, if_pos rfl]
          have hlt := (List.getElem?_eq_some_iff.mp hget).1
          rw [length_contents (hshape i)] at hlt
          refine ⟨m, ?_⟩
          rw [contents, Replicas.setPut, hlog, List.getElem?_take_of_lt]
          · exact hget
          · show m < max _ _
            omega
        · rw [if_neg hsum] at hr
          obtain rfl := Option.some.inj hr
          exact h.setPut (hg i) rfl fun hij hkl =>
            Carries.mono (t := .counting n [] sum) (hown hth hij hkl) (hg i)
      · cases hr
    | _ => cases hb

theorem begun_of_step {s t : Cluster N} {a : Action N} (hstep : s.step a = some t) {i : Fin N}
    {k : Nat} (h : s.rep.puts i k = .free) :
    t.rep.puts i k = .free ∨ ∃ key value, a = .replicate (.put i k key value) ∧
      t.rep.puts i k = .checked key value := by
  by_cases ha : ∀ b, a = .replicate b → b.ofPut = false
  · rw [puts_of_step ha hstep]
    exact Or.inl h
  · obtain ⟨b, rfl, hb⟩ : ∃ b, a = .replicate b ∧ b.ofPut = true := by
      simpa using ha
    obtain ⟨r, hr, rfl⟩ := Option.map_eq_some_iff.mp hstep
    have hother : ∀ {j l u v}, s.rep.puts j l = u → u ≠ .free →
        r.puts = (s.rep.setPut j l v).puts → r.puts i k = .free ∨
          ∃ key value, Action.replicate b = .replicate (.put i k key value) ∧
            r.puts i k = .checked key value := by
      intro j l u v hu hne hputs
      rw [hputs, setPut_puts, if_neg]
      · exact Or.inl h
      · rintro ⟨rfl, rfl⟩
        exact hne (hu.symm.trans h)
    cases b with
    | put j l key value =>
      rw [Replicas.step, Replicas.put] at hr
      split at hr
      · split at hr
        · obtain rfl := Option.some.inj hr
          rw [setPut_puts]
          split
          · rename_i hij
            obtain ⟨rfl, rfl⟩ := hij
            exact Or.inr ⟨key, value, rfl, rfl⟩
          · exact Or.inl h
        · cases hr
      · cases hr
    | putTerm j l =>
      rw [Replicas.step, putTerm] at hr
      split at hr
      · rename_i hth
        obtain rfl := Option.some.inj hr
        exact hother hth (by simp) rfl
      · cases hr
    | innerPut j l =>
      rw [Replicas.step, innerPut] at hr
      split at hr
      · rename_i hth
        split at hr
        · obtain rfl := Option.some.inj hr
          exact hother hth (by simp) rfl
        · obtain rfl := Option.some.inj hr
          exact hother hth (by simp) rfl
      · cases hr
    | poll j l =>
      rw [Replicas.step, poll] at hr
      split at hr
      · rename_i hth
        obtain rfl := Option.some.inj hr
        exact hother hth (by simp) rfl
      · cases hr
    | pollCount j l =>
      rw [Replicas.step, pollCount] at hr
      split at hr
      · rename_i hth
        obtain rfl := Option.some.inj hr
        exact hother hth (by simp) rfl
      · cases hr
    | pollCommit j l =>
      rw [Replicas.step, pollCommit] at hr
      split at hr
      · rename_i hth
        split at hr
        · obtain rfl := Option.some.inj hr
          exact hother hth (by simp) rfl
        · obtain rfl := Option.some.inj hr
          exact hother hth (by simp) rfl
      · cases hr
    | _ => cases hb

/-- The calls that have begun carry what their clients asked for. -/
def PutsBacked (as : List (Action N)) (r : Replicas N) : Prop :=
  ∀ i k, r.puts i k = .free ∨ ∃ key value, Asked as i k key value ∧
    Carries r i key value (r.puts i k)

/-- **Each step keeps the calls backed.** -/
theorem PutsBacked.step {as : List (Action N)} {s t : Cluster N} {a : Action N}
    (h : PutsBacked as s.rep) (hshape : ∀ i, (s.rep.log i).Shape)
    (hg : ∀ i, (s.rep.log i).Grows (t.rep.log i)) (hstep : s.step a = some t) :
    PutsBacked (as ++ [a]) t.rep := by
  intro i k
  rcases h i k with hfree | ⟨key, value, hask, hc⟩
  · rcases begun_of_step hstep hfree with hfree | ⟨key, value, rfl, hth⟩
    · exact Or.inl hfree
    · refine Or.inr ⟨key, value, List.mem_append_right as (List.mem_singleton_self _), ?_⟩
      rw [hth]
      exact ⟨rfl, rfl⟩
  · exact Or.inr ⟨key, value, List.mem_append_left [a] hask, hc.step hshape hg hstep⟩

end Cluster

end Mokv.Raft
