import Mokv.DB.Custody
import Mokv.Lib.Chain
import Mokv.Raft.Acknowledge
import Mokv.Raft.PutCalls

/-!
# The databases of the pods

The cluster with what it is for: each pod has a `DB`, and its apply thread puts into it the
entries it has taken, one by one.  `Pod::Get` reads that `DB`, on whichever pod the client
asks.

`history` is what the pods hold for committed, together.  As long as the logs agree, it
only grows, and the database of a pod is the history up to the entry that its apply thread
put last (`databases_follow_one_history`).  A put that is answered with success has its
place in the history, for good (`acknowledged_put_stays`).  A turn of a flush thread is one
step, and has to write over no file that it reads.
-/

namespace Mokv.Raft

open Lib

variable {N : Nat}

/-- The cluster with the databases; `stored` counts the entries that the apply thread of a pod
has put into its database. -/
structure Databases (N : Nat) where
  cluster : Cluster N
  db : Fin N → DB
  stored : Fin N → Nat

/-- Steps of the cluster and of the databases. -/
inductive Databases.Act (N : Nat) where
  | cluster (a : Action N)
  /-- `db_->Put` of the apply thread -/
  | store (i : Fin N)
  /-- a turn of the flush thread -/
  | flush (i : Fin N)
deriving DecidableEq

namespace Databases

variable {cfg : Fin N → DBConfig} {as bs : List (Act N)} {s t u : Databases N}

/-- Fresh pods with fresh databases. -/
def init (files : Fin N → LSM.Files) : Databases N :=
  ⟨Cluster.init N, fun i => DB.new (files i), fun _ => 0⟩

/-- The apply thread takes an entry once it has put the last one. -/
def ready (s : Databases N) : Action N → Bool
  | .replicate (.apply i) => s.stored i = (s.cluster.rep.applied i).length
  | _ => true

/-- One step.  `db_->Put` and a turn of the flush thread run as a whole. -/
def step (cfg : Fin N → DBConfig) (s : Databases N) : Act N → Option (Databases N)
  | .cluster a =>
    if s.ready a then (s.cluster.step a).map fun c => { s with cluster := c } else none
  | .store i =>
    match (s.cluster.rep.applied i)[s.stored i]? with
    | none => none
    | some entry => some { s with
        db := Function.update s.db i ((s.db i).put (cfg i) entry.key entry.value)
        stored := Function.update s.stored i (s.stored i + 1) }
  | .flush i =>
    ((s.db i).flush (cfg i)).map fun r => { s with db := Function.update s.db i r.1 }

/-- The logs agree, nobody puts the empty key (as the `PutTest` of a candidate does whose request
reaches a leader), and a flush has ids left and a cascade that stops after level 0. -/
def Ok (cfg : Fin N → DBConfig) (s : Databases N) : Act N → Prop
  | .cluster a => s.cluster.LogsAgreeOk a ∧ ∀ key ∈ a.putKey, key ≠ []
  | .store _ => True
  | .flush i => (s.db i).FlushOk (cfg i)

instance (cfg : Fin N → DBConfig) (s : Databases N) : DecidablePred (s.Ok cfg)
  | .cluster a => inferInstanceAs (Decidable (s.cluster.LogsAgreeOk a ∧ _))
  | .store _ => isTrue trivial
  | .flush i => inferInstanceAs (Decidable ((s.db i).FlushOk (cfg i)))

/-- The steps of the cluster. -/
def actions (as : List (Act N)) : List (Action N) :=
  as.filterMap fun
    | .cluster a => some a
    | _ => none

theorem mem_actions {a : Action N} : a ∈ actions as ↔ .cluster a ∈ as := by
  rw [actions, List.mem_filterMap]
  constructor
  · rintro ⟨b, hb, hba⟩
    cases b with
    | cluster c =>
      obtain rfl := Option.some.inj hba
      exact hb
    | store i => cases hba
    | flush i => cases hba
  · intro ha
    exact ⟨_, ha, rfl⟩

/-- What pod `i` holds for committed. -/
def commited (s : Databases N) (i : Fin N) : List (Bytes × Bytes) :=
  (s.cluster.rep.contents Cluster.keyValue i).take (s.cluster.rep.log i).commited

/-- What the pods hold for committed, together. -/
def history (s : Databases N) : List (Bytes × Bytes) :=
  longest ((List.finRange N).map s.commited)

/-- What the apply thread of pod `i` has put into its database. -/
def puts (s : Databases N) (i : Fin N) : List (Bytes × Bytes) :=
  ((s.cluster.rep.applied i).map (Entry.seen Cluster.keyValue)).take (s.stored i)

/-- The logs agree and consist of what clients asked for, and each database is what its apply
thread has put into it. -/
structure Inv (as : List (Act N)) (s : Databases N) : Prop where
  logs : s.cluster.LogInv
  calls : Cluster.PutsBacked (actions as) s.cluster.rep
  asked : ∀ i, ∀ e ∈ s.cluster.rep.contents Cluster.keyValue i,
    ∃ j k, Cluster.Asked (actions as) j k e.1 e.2
  keys : ∀ j k key value, Cluster.Asked (actions as) j k key value → key ≠ []
  valid : ∀ i, (s.db i).Valid
  stored_le : ∀ i, s.stored i ≤ (s.cluster.rep.applied i).length
  raw : ∀ i key, (s.db i).raw key = Conc.lastWritten (s.puts i) key

theorem inv_init (files : Fin N → LSM.Files) : Inv [] (init files) := by
  refine ⟨Cluster.logInv_init, fun _ _ => Or.inl rfl, ?_, nofun, fun i => DB.valid_new _,
    fun _ => le_refl _, fun i key => DB.raw_new _ key⟩
  intro i e he
  cases he

theorem Inv.commited_of_done (h : Inv as s) {i : Fin N} {k : Nat}
    (hdone : s.cluster.rep.puts i k = .done true) :
    ∃ key value, Cluster.Asked (actions as) i k key value ∧
      ∃ n : Nat, (s.commited i)[n]? = some (key, value) := by
  rcases h.calls i k with hfree | ⟨key, value, hask, hc⟩
  · rw [hdone] at hfree
    cases hfree
  · rw [hdone] at hc
    exact ⟨key, value, hask, hc rfl⟩

theorem Inv.puts_eq (h : Inv as s) (i : Fin N) : s.puts i = (s.commited i).take (s.stored i) := by
  obtain ⟨rest, hrest⟩ := h.logs.applied_isPrefix i
  rw [commited, ← hrest, List.take_append_of_le_length]
  · rfl
  · rw [List.length_map]
    exact h.stored_le i

theorem Inv.cluster (h : Inv as s) {a : Action N} (hok : s.Ok cfg (.cluster a)) {c : Cluster N}
    (hc : s.cluster.step a = some c) : Inv (as ++ [.cluster a]) { s with cluster := c } := by
  obtain ⟨hg, happ⟩ := h.logs.grows hok.1 hc
  have hacts : actions (as ++ [.cluster a]) = actions as ++ [a] := List.filterMap_append
  refine ⟨h.logs.step hok.1 hc, ?_, ?_, ?_, h.valid, fun i => ?_, fun i key => ?_⟩
  · rw [hacts]
    exact h.calls.step h.logs.agreed.transport.shape hg hc
  · rw [hacts]
    intro i e he
    have hold : (∃ j, e ∈ s.cluster.rep.contents Cluster.keyValue j) →
        ∃ j k, Cluster.Asked (actions as ++ [a]) j k e.1 e.2 := by
      rintro ⟨j, hj⟩
      obtain ⟨l, k, hask⟩ := h.asked j e hj
      exact ⟨l, k, List.mem_append_left [a] hask⟩
    rcases Cluster.rep_move_of_step h.logs.plain.entries h.logs.plain.noSelf hok.1.guarded hc with
      hsame | hm
    · rw [hsame] at he
      exact hold ⟨i, he⟩
    · rcases h.logs.agreed.transport.mem_contents_of_move hm he with
        hmem | ⟨k, key, value, term, ht, rfl⟩
      · exact hold hmem
      · obtain hfree | ⟨key', value', hask, hc⟩ := h.calls i k
        · rw [ht] at hfree
          cases hfree
        · rw [ht] at hc
          obtain ⟨rfl, rfl⟩ := hc
          exact ⟨i, k, List.mem_append_left [a] hask⟩
  · rw [hacts]
    intro j k key value hask
    rcases List.mem_append.mp hask with hold | hnew
    · exact h.keys j k key value hold
    · obtain rfl := List.mem_singleton.mp hnew
      exact hok.2 key rfl
  · exact (h.stored_le i).trans (happ i).length_le
  · obtain ⟨rest, hrest⟩ := happ i
    rw [h.raw i key, puts, puts, ← hrest, List.map_append, List.take_append_of_le_length]
    rw [List.length_map]
    exact h.stored_le i

theorem Inv.setDb (h : Inv as s) (hacts : actions bs = actions as)
    (hcluster : t.cluster = s.cluster) {i : Fin N} {db : DB} {n : Nat}
    (hdb : t.db = Function.update s.db i db) (hstored : t.stored = Function.update s.stored i n)
    (hv : db.Valid) (hn : n ≤ (s.cluster.rep.applied i).length)
    (hraw : ∀ key, db.raw key = Conc.lastWritten
      (((s.cluster.rep.applied i).map (Entry.seen Cluster.keyValue)).take n) key) : Inv bs t := by
  refine ⟨?_, ?_, ?_, ?_, fun j => ?_, fun j => ?_, fun j key => ?_⟩
  · rw [hcluster]
    exact h.logs
  · rw [hacts, hcluster]
    exact h.calls
  · rw [hacts, hcluster]
    exact h.asked
  · rw [hacts]
    exact h.keys
  · rw [hdb, Function.update_apply]
    split
    · exact hv
    · exact h.valid j
  · rw [hstored, hcluster, Function.update_apply]
    split
    · subst_vars
      exact hn
    · exact h.stored_le j
  · rw [puts, hdb, hstored, hcluster, Function.update_apply, Function.update_apply]
    by_cases hj : j = i
    · subst hj
      rw [if_pos rfl, if_pos rfl]
      exact hraw key
    · rw [if_neg hj, if_neg hj]
      exact h.raw j key

theorem Inv.step (h : Inv as s) {a : Act N} (hok : s.Ok cfg a) (hstep : step cfg s a = some t) :
    Inv (as ++ [a]) t := by
  have hacts : (∀ c, a ≠ .cluster c) → actions (as ++ [a]) = actions as := by
    intro hne
    rw [actions, List.filterMap_append]
    cases a with
    | cluster c => exact absurd rfl (hne c)
    | store i => exact List.append_nil _
    | flush i => exact List.append_nil _
  cases a with
  | cluster a =>
    rw [Databases.step] at hstep
    split at hstep
    · obtain ⟨c, hc, rfl⟩ := Option.map_eq_some_iff.mp hstep
      exact h.cluster hok hc
    · cases hstep
  | store i =>
    rw [Databases.step] at hstep
    split at hstep
    · cases hstep
    · -- the apply thread puts the entry, whose key a client asked for
      rename_i entry hget
      obtain rfl := Option.some.inj hstep
      have hseen : ((s.cluster.rep.applied i).map (Entry.seen Cluster.keyValue))[s.stored i]? =
          some (entry.key, entry.value) := by
        rw [List.getElem?_map, hget]
        rfl
      have hmem : (entry.key, entry.value) ∈ s.cluster.rep.contents Cluster.keyValue i :=
        List.mem_of_mem_take ((h.logs.applied_isPrefix i).subset (List.mem_of_getElem? hseen))
      obtain ⟨j, k, hask⟩ := h.asked i _ hmem
      refine h.setDb (hacts nofun) rfl rfl rfl ((h.valid i).put (cfg i) (h.keys j k _ _ hask) _)
        (List.getElem?_eq_some_iff.mp hget).1 fun key => ?_
      rw [DB.raw_put, List.take_add_one, hseen, Option.toList_some, Conc.lastWritten_concat,
        h.raw i key, puts]
  | flush i =>
    obtain ⟨r, hr, rfl⟩ := Option.map_eq_some_iff.mp hstep
    obtain ⟨hv, hraw⟩ := (h.valid i).flush_eq hr
    refine h.setDb (hacts nofun) rfl rfl (Function.update_eq_self i _).symm hv (h.stored_le i) ?_
    intro key
    rw [hraw key, h.raw i key, puts]

/-! ### One history -/

theorem Inv.comparable (h : Inv as s) : Comparable ((List.finRange N).map s.commited) := by
  intro l hl m hm
  obtain ⟨i, -, rfl⟩ := List.mem_map.mp hl
  obtain ⟨j, -, rfl⟩ := List.mem_map.mp hm
  exact (h.logs.agreed.held i).prefix_total (h.logs.agreed.held j)

theorem Inv.commited_isPrefix (h : Inv as s) (i : Fin N) : s.commited i <+: s.history :=
  h.comparable.isPrefix_longest (List.mem_map_of_mem (List.mem_finRange i))

theorem Inv.puts_eq_history (h : Inv as s) (i : Fin N) :
    s.stored i ≤ s.history.length ∧ s.puts i = s.history.take (s.stored i) := by
  have hlen := (h.logs.applied_isPrefix i).length_le
  rw [List.length_map] at hlen
  have hle : s.stored i ≤ (s.commited i).length := (h.stored_le i).trans hlen
  obtain ⟨rest, hrest⟩ := h.commited_isPrefix i
  refine ⟨hle.trans (h.commited_isPrefix i).length_le, ?_⟩
  rw [h.puts_eq, ← hrest, List.take_append_of_le_length hle]

theorem Inv.asked_history (h : Inv as s) {e : Bytes × Bytes} (he : e ∈ s.history) :
    ∃ i k, Cluster.Asked (actions as) i k e.1 e.2 := by
  rcases longest_mem ((List.finRange N).map s.commited) with hnil | hmem
  · rw [history, hnil] at he
    cases he
  · obtain ⟨i, -, hi⟩ := List.mem_map.mp hmem
    rw [history, ← hi] at he
    exact h.asked i e (List.mem_of_mem_take he)

/-- **One step extends the history**, and no pod forgets what it has stored. -/
theorem Inv.step_history (h : Inv as s) {a : Act N} (hok : s.Ok cfg a)
    (hstep : Databases.step cfg s a = some t) :
    s.history <+: t.history ∧ ∀ i, s.stored i ≤ t.stored i := by
  have ht := h.step hok hstep
  cases a with
  | cluster a =>
    rw [Databases.step] at hstep
    split at hstep
    · obtain ⟨c, hc, rfl⟩ := Option.map_eq_some_iff.mp hstep
      obtain ⟨hg, -⟩ := h.logs.grows hok.1 hc
      refine ⟨ht.comparable.longest_isPrefix fun l hl => ?_, fun _ => le_refl _⟩
      obtain ⟨i, hi, rfl⟩ := List.mem_map.mp hl
      exact ⟨_, List.mem_map_of_mem hi, Cluster.take_contents_isPrefix (hg i)⟩
    · cases hstep
  | store i =>
    rw [Databases.step] at hstep
    split at hstep
    · cases hstep
    · obtain rfl := Option.some.inj hstep
      refine ⟨List.prefix_refl _, fun j => ?_⟩
      show s.stored j ≤ Function.update s.stored i (s.stored i + 1) j
      rw [Function.update_apply]
      split
      · subst_vars
        exact Nat.le_succ _
      · exact le_refl _
  | flush i =>
    obtain ⟨r, -, rfl⟩ := Option.map_eq_some_iff.mp hstep
    exact ⟨List.prefix_refl _, fun _ => le_refl _⟩

theorem Inv.run (h : Inv as s) (hok : StepsOk (Databases.step cfg) (Ok cfg) s bs)
    (hr : Lib.run (Databases.step cfg) s bs = some t) :
    Inv (as ++ bs) t ∧ s.history <+: t.history ∧ ∀ i, s.stored i ≤ t.stored i := by
  refine run_induction (P := fun bs t => Inv (as ++ bs) t ∧ s.history <+: t.history ∧
    ∀ i, s.stored i ≤ t.stored i) ?_ ?_ bs t hr hok
  · rw [List.append_nil]
    exact ⟨h, List.prefix_refl _, fun _ => le_refl _⟩
  · rintro bs t a u - ⟨hinv, hhist, hst⟩ hok hstep
    obtain ⟨hhist', hst'⟩ := hinv.step_history hok hstep
    rw [← List.append_assoc]
    exact ⟨hinv.step hok hstep, hhist.trans hhist', fun i => (hst i).trans (hst' i)⟩

/-- **The databases follow one history.**  In a run whose logs agree there is one history; it
only grows and consists of what clients asked to put; and in every state a lookup on any pod,
leader or not, finds the last write of a beginning of it, a beginning that gets no shorter. -/
theorem databases_follow_one_history (cfg : Fin N → DBConfig) (files : Fin N → LSM.Files)
    (as bs : List (Act N)) (s u : Databases N)
    (hok : StepsOk (step cfg) (Ok cfg) (init files) (as ++ bs))
    (hs : Lib.run (step cfg) (init files) as = some s) (hu : Lib.run (step cfg) s bs = some u) :
    s.history <+: u.history ∧
      (∀ e ∈ u.history, ∃ i k, .cluster (.replicate (.put i k e.1 e.2)) ∈ as ++ bs) ∧
      ∀ i, s.stored i ≤ u.stored i ∧ u.stored i ≤ u.history.length ∧ ∀ key,
        (u.db i).get key = (Conc.lastWritten (u.history.take (u.stored i)) key).bind DB.hide := by
  obtain ⟨hok, hok'⟩ := stepsOk_append.mp hok
  obtain ⟨hinv, -⟩ := (inv_init files).run hok hs
  obtain ⟨hinv', hhist, hst⟩ := hinv.run (hok' s hs) hu
  refine ⟨hhist, fun e he => ?_, fun i => ⟨hst i, (hinv'.puts_eq_history i).1, fun key => ?_⟩⟩
  · obtain ⟨i, k, hask⟩ := hinv'.asked_history he
    exact ⟨i, k, mem_actions.mp hask⟩
  · rw [DB.get_eq, hinv'.raw, (hinv'.puts_eq_history i).2]

/-- `firstLeader`, on pods with databases. -/
def leaderRun : List (Act 3) := Cluster.firstLeader.map .cluster

/-- The client puts a second entry at pod `i`; both are replicated on pod `f`, which
is enough for the first call to be answered. -/
def firstAnswer (i f : Fin 3) : List (Act 3) :=
  [.replicate (.put i 1 [1] [20]), .replicate (.putTerm i 1), .replicate (.innerPut i 1),
    .replicate (.syncCheck i f), .replicate (.syncSend i f), .solveAppend 0,
    .replicate (.updateRaftLog f), .replicate (.putEntry f), .replicate (.syncAnswered i f 0),
    .replicate (.syncCount i f), .replicate (.syncCommit i f),
    .replicate (.syncCheck i f), .replicate (.syncSend i f), .solveAppend 1,
    .replicate (.updateRaftLog f), .replicate (.putEntry f), .replicate (.syncAnswered i f 0),
    .replicate (.poll i 0), .replicate (.pollCount i 0), .replicate (.pollCount i 0),
    .replicate (.pollCommit i 0)].map .cluster

/-- A heartbeat of pod `i` tells pod `f`, which applies and stores the first entry. -/
def firstStore (i f : Fin 3) : List (Act 3) :=
  [.cluster (.elect (.startBeat i)), .cluster (.elect (.readTerm i)), .cluster (.sendHeartBeat i),
    .cluster (.solveAppend 2), .cluster (.replicate (.apply f)), .store f]

set_option maxRecDepth 1000 in
theorem databases_follow_one_history_first :
    ∃ s u, Lib.run (step fun _ => Conc.smallConfig) (init fun _ _ => none) leaderRun = some s ∧
      Lib.run (step fun _ => Conc.smallConfig) s (firstAnswer 0 1 ++ firstStore 0 1) = some u ∧
      s.history <+: u.history ∧
      (∀ e ∈ u.history, ∃ i k, .cluster (.replicate (.put i k e.1 e.2)) ∈
        leaderRun ++ (firstAnswer 0 1 ++ firstStore 0 1)) ∧
      ∀ i, s.stored i ≤ u.stored i ∧ u.stored i ≤ u.history.length ∧ ∀ key,
        (u.db i).get key = (Conc.lastWritten (u.history.take (u.stored i)) key).bind DB.hide := by
  obtain ⟨s, hs⟩ : ∃ s, Lib.run (step fun _ => Conc.smallConfig) (init fun _ _ => none) leaderRun =
      some s := Option.isSome_iff_exists.mp (by decide)
  obtain ⟨u, hu⟩ : ∃ u, Lib.run (step fun _ => Conc.smallConfig) (init fun _ _ => none)
      (leaderRun ++ (firstAnswer 0 1 ++ firstStore 0 1)) = some u :=
    Option.isSome_iff_exists.mp (by decide)
  rw [run_append, hs, Option.bind_some] at hu
  exact ⟨s, u, hs, hu, databases_follow_one_history (fun _ => Conc.smallConfig) (fun _ _ => none)
    leaderRun (firstAnswer 0 1 ++ firstStore 0 1) s u (by decide) hs hu⟩

/-- **An acknowledged put stays.**  When a call of `Put` has returned success, its key and
value have a place in the history, then and later; and a lookup on a pod whose apply thread
has passed that place finds them or what was put under the key after them. -/
theorem acknowledged_put_stays (cfg : Fin N → DBConfig) (files : Fin N → LSM.Files)
    (as bs : List (Act N)) (s u : Databases N)
    (hok : StepsOk (step cfg) (Ok cfg) (init files) (as ++ bs))
    (hs : Lib.run (step cfg) (init files) as = some s) (hu : Lib.run (step cfg) s bs = some u)
    (i : Fin N) (k : Nat) (hdone : s.cluster.rep.puts i k = .done true) :
    ∃ key value, .cluster (.replicate (.put i k key value)) ∈ as ∧ ∃ n : Nat,
      s.history[n]? = some (key, value) ∧ u.history[n]? = some (key, value) ∧
        ∀ j, n < u.stored j → ∃ later, (key, later) ∈ (u.history.take (u.stored j)).drop n ∧
          (u.db j).get key = DB.hide later := by
  obtain ⟨hok, hok'⟩ := stepsOk_append.mp hok
  obtain ⟨hinv, -⟩ := (inv_init files).run hok hs
  obtain ⟨hinv', hhist, -⟩ := hinv.run (hok' s hs) hu
  obtain ⟨key, value, hask, n, hget⟩ := hinv.commited_of_done hdone
  have hn : s.history[n]? = some (key, value) :=
    getElem?_of_isPrefix (hinv.commited_isPrefix i) hget
  have hn' : u.history[n]? = some (key, value) := getElem?_of_isPrefix hhist hn
  refine ⟨key, value, mem_actions.mp hask, n, hn, hn', fun j hj => ?_⟩
  -- what the pod has stored, split at the place of the put
  have hws : (u.history.take (u.stored j))[n]? = some (key, value) := by
    rw [List.getElem?_take_of_lt hj, hn']
  have hdrop : (u.history.take (u.stored j)).drop n =
      (key, value) :: (u.history.take (u.stored j)).drop (n + 1) := by
    obtain ⟨hlt, heq⟩ := List.getElem?_eq_some_iff.mp hws
    rw [List.drop_eq_getElem_cons hlt, heq]
  obtain ⟨later, hlater⟩ := Server.exists_lastWritten (List.mem_of_getElem? hws)
  refine ⟨later, ?_, ?_⟩
  · rw [hdrop]
    rw [← List.take_append_drop n (u.history.take (u.stored j)), hdrop] at hlater
    exact Conc.mem_of_lastWritten hlater
  · rw [DB.get_eq, hinv'.raw, (hinv'.puts_eq_history j).2, hlater]
    rfl

set_option maxRecDepth 1000 in
theorem acknowledged_put_stays_first :
    ∃ s u key value, Lib.run (step fun _ => Conc.smallConfig) (init fun _ _ => none)
        (leaderRun ++ firstAnswer 0 1) = some s ∧
      Lib.run (step fun _ => Conc.smallConfig) s (firstStore 0 1) = some u ∧
      .cluster (.replicate (.put 0 0 key value)) ∈ leaderRun ++ firstAnswer 0 1 ∧ ∃ n : Nat,
        s.history[n]? = some (key, value) ∧ u.history[n]? = some (key, value) ∧
          ∀ j, n < u.stored j → ∃ later, (key, later) ∈ (u.history.take (u.stored j)).drop n ∧
            (u.db j).get key = DB.hide later := by
  obtain ⟨s, hs⟩ : ∃ s, Lib.run (step fun _ => Conc.smallConfig) (init fun _ _ => none)
      (leaderRun ++ firstAnswer 0 1) = some s := Option.isSome_iff_exists.mp (by decide)
  obtain ⟨u, hu⟩ : ∃ u, Lib.run (step fun _ => Conc.smallConfig) (init fun _ _ => none)
      (leaderRun ++ firstAnswer 0 1 ++ firstStore 0 1) = some u :=
    Option.isSome_iff_exists.mp (by decide)
  have hdone : (Lib.run (step fun _ => Conc.smallConfig) (init fun _ _ => none)
      (leaderRun ++ firstAnswer 0 1)).map (fun s => s.cluster.rep.puts 0 0) =
        some (.done true) := by decide
  rw [hs] at hdone
  rw [run_append, hs, Option.bind_some] at hu
  obtain ⟨key, value, hstays⟩ := acknowledged_put_stays (fun _ => Conc.smallConfig)
    (fun _ _ => none) (leaderRun ++ firstAnswer 0 1) (firstStore 0 1) s u (by decide) hs hu 0 0
    (Option.some.inj hdone)
  exact ⟨s, u, key, value, hs, hu, hstays⟩

end Databases

end Mokv.Raft
