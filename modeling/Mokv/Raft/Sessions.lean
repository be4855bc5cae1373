import Mokv.DB.Concurrent
import Mokv.DB.FileIds
import Mokv.DB.Restart
import Mokv.Raft.Applier

/-!
# Sessions of a node

`ResourceManager::Close` destroys the pod and then the database.  `~RaftLog` sets `stop_`,
lets the apply thread finish what is committed and saves `commited_`, the only number
that survives; the next log starts there.

`sessions_agree`: over any number of sessions every new log starts at the last committed
index, and the database holds what the committed entries, applied in order, leave.  The
database keeps that only as long as no entry has the empty key and no flush, those of the clean
close included, writes over a file in use.
-/

namespace Mokv.Raft

open Lib Conc

/-- What a node is doing. -/
inductive NodePhase where
  /-- there is no log -/
  | down
  | up (app : Applier)
  /-- in `~RaftLog`, after `stop_` was set -/
  | halting (app : Applier)

/-- A node: its log, `raft_log_meta`, its database, and all that was committed in the
sessions before. -/
structure Node where
  phase : NodePhase
  metaFile : Option Nat
  session : Session
  committed : List (Bytes × Bytes)

namespace Node

/-- What happens at a node. -/
inductive Act where
  /-- the database and the log are constructed -/
  | construct
  /-- a call of the log, or the apply thread's section under the lock -/
  | call (op : RaftLog.Op)
  /-- the apply thread's `db_->Put` -/
  | dbPut
  /-- the flush thread of the database -/
  | flush
  /-- `~RaftLog` sets `stop_` -/
  | stop
  /-- `~RaftLog` joins the apply thread and saves -/
  | save
  /-- `~DB` hands over its memtable -/
  | dbShutdown
  /-- `~DB` saves the manifest -/
  | dbSave
deriving DecidableEq

/-- A directory without a manifest and without `raft_log_meta`. -/
def start (files : LSM.Files) : Node := ⟨.down, none, Session.start files, []⟩

/-- The log and its thread. -/
def app? (s : Node) : Option Applier :=
  match s.phase with
  | .down => none
  | .up app => some app
  | .halting app => some app

/-- Put back the log and its thread. -/
def setApp (s : Node) (app : Applier) : Node :=
  match s.phase with
  | .down => s
  | .up _ => { s with phase := .up app }
  | .halting _ => { s with phase := .halting app }

/-- A step of the database. -/
def dbStep (cfg : DBConfig) (s : Node) (a : Mokv.Act) : Option Node :=
  (s.session.step cfg a).map fun session => { s with session := session }

/-- One step.  The apply thread leaves its loop when `stop_` is set and nothing is left to
apply.  A flush runs as a whole, and so does `Manifest::Save`. -/
def step (cfg : DBConfig) (s : Node) : Act → Option Node
  | .construct =>
    match s.phase with
    | .down =>
      (s.dbStep cfg .construct).map fun t =>
        { t with phase := .up (Applier.start (s.metaFile.getD 0)) }
    | _ => none
  | .call op =>
    match s.phase with
    | .down => none
    | .up app => (app.step (.call op)).map s.setApp
    | .halting app => if op = .apply then (app.step (.call op)).map s.setApp else none
  | .dbPut => do
    let app ← s.app?
    let e ← app.taken
    let app ← app.step .dbPut
    (s.setApp app).dbStep cfg (.put e.key e.value)
  | .flush => s.dbStep cfg .flush
  | .stop =>
    match s.phase with
    | .up app => some { s with phase := .halting { app with log := { app.log with stop := true } } }
    | _ => none
  | .save =>
    match s.phase with
    | .halting app =>
      if app.taken = none ∧ app.log.commited ≤ app.log.lastAppend then
        some { s with
          phase := .down
          metaFile := some app.log.commited
          committed := s.committed ++
            (app.log.entries.take (app.log.commited - app.log.startIndex)).map Entry.pair }
      else none
    | _ => none
  | .dbShutdown =>
    match s.phase with
    | .down => s.dbStep cfg .shutdown
    | _ => none
  | .dbSave => s.dbStep cfg .save

/-! ### What is asked of the steps -/

/-- The commit index of an accepted entry does not exceed the resulting `index_`, and the
database gets no empty key. -/
def EntryOk (s : Node) : Act → Prop
  | .call op => ∀ app ∈ s.app?, app.log.StampOk op
  | .dbPut => ∀ app ∈ s.app?, ∀ e ∈ app.taken, e.key ≠ []
  | _ => True

instance (s : Node) : DecidablePred s.EntryOk
  | .call op => inferInstanceAs (Decidable (∀ app ∈ s.app?, app.log.StampOk op))
  | .dbPut => inferInstanceAs (Decidable (∀ app ∈ s.app?, ∀ e ∈ app.taken, e.key ≠ []))
  | .construct => isTrue trivial
  | .flush => isTrue trivial
  | .stop => isTrue trivial
  | .save => isTrue trivial
  | .dbShutdown => isTrue trivial
  | .dbSave => isTrue trivial

/-- Beside that, a flush has ids left and its cascade stops after level 0. -/
def StepOk (cfg : DBConfig) (s : Node) (a : Act) : Prop :=
  s.EntryOk a ∧ (a = .flush → s.session.FlushOk cfg .flush)

instance (cfg : DBConfig) (s : Node) (a : Act) : Decidable (StepOk cfg s a) :=
  inferInstanceAs (Decidable (_ ∧ _))

/-! ### The invariant -/

/-- While there is a log, it starts behind what was committed before, and the database
holds that and what the apply thread has put. -/
structure Runs (s : Node) (app : Applier) : Prop where
  inv : app.Inv
  start : app.log.startIndex = s.committed.length
  running : ∃ db, s.session.phase = .running db
  finds : s.session.Finds (lastWritten (s.committed ++ app.puts))

/-- Between two logs the saved number counts what was committed. -/
structure Rests (s : Node) : Prop where
  meta_eq : s.metaFile.getD 0 = s.committed.length
  length_lt : s.committed.length < 2 ^ 64
  finds : s.session.Finds (lastWritten s.committed)

/-- What holds between the steps. -/
def Inv (s : Node) : Prop :=
  s.session.Inv True ∧
    match s.phase with
    | .down => s.Rests
    | .up app => s.Runs app
    | .halting app => s.Runs app

theorem inv_start (files : LSM.Files) : (start files).Inv :=
  ⟨Session.inv_start True files, rfl, Nat.two_pow_pos 64, Session.finds_start files⟩

theorem Inv.runs {s : Node} {app : Applier} (h : s.Inv) (happ : s.app? = some app) :
    s.Runs app := by
  obtain ⟨phase, metaFile, session, committed⟩ := s
  cases phase with
  | down => cases happ
  | up app' =>
    obtain rfl := Option.some.inj happ
    exact h.2
  | halting app' =>
    obtain rfl := Option.some.inj happ
    exact h.2

theorem Inv.of_runs {s : Node} {app app' : Applier} {session : Session}
    (happ : s.app? = some app) (hsession : session.Inv True)
    (hr : Runs { s with session := session } app') :
    Inv { s.setApp app' with session := session } := by
  obtain ⟨phase, metaFile, session', committed⟩ := s
  cases phase with
  | down => cases happ
  | up app'' => exact ⟨hsession, hr.inv, hr.start, hr.running, hr.finds⟩
  | halting app'' => exact ⟨hsession, hr.inv, hr.start, hr.running, hr.finds⟩

@[simp] theorem setApp_session (s : Node) (app : Applier) : (s.setApp app).session = s.session := by
  rw [setApp]
  split <;> rfl

theorem Runs.call {s : Node} {app app' : Applier} {op : RaftLog.Op} (h : s.Runs app)
    (hok : app.log.StampOk op) (hstep : app.step (.call op) = some app') : s.Runs app' := by
  have hstamp : app.StampOk (.call op) := hok
  obtain ⟨hi, hstart, -, -⟩ := h.inv.step hstamp hstep
  refine ⟨hi, hstart.trans h.start, h.running, ?_⟩
  rw [(Applier.log_of_step hstep).2]
  exact h.finds

theorem running_step {cfg : DBConfig} {s t : Session} {a : Mokv.Act}
    (h : ∃ db, s.phase = .running db) (ha : a ≠ .shutdown) (hstep : s.step cfg a = some t) :
    ∃ db, t.phase = .running db := by
  obtain ⟨phase, created⟩ := s
  obtain ⟨db, rfl⟩ : ∃ db, phase = .running db := h
  cases a with
  | put key value =>
    obtain rfl := Option.some.inj hstep
    exact ⟨_, rfl⟩
  | delete key =>
    obtain rfl := Option.some.inj hstep
    exact ⟨_, rfl⟩
  | flush =>
    obtain ⟨r, -, rfl⟩ := Option.map_eq_some_iff.mp hstep
    exact ⟨r.1, rfl⟩
  | shutdown => exact absurd rfl ha
  | save => cases hstep
  | construct => cases hstep

theorem Inv.dbPut {cfg : DBConfig} {s t : Node} (h : s.Inv) (hok : s.EntryOk .dbPut)
    (hstep : s.step cfg .dbPut = some t) (hid : t.session.sstId < 2 ^ 31) : t.Inv := by
  obtain ⟨app, happ, hstep⟩ := Option.bind_eq_some_iff.mp hstep
  obtain ⟨e, he, hstep⟩ := Option.bind_eq_some_iff.mp hstep
  obtain ⟨app', happ', hstep⟩ := Option.bind_eq_some_iff.mp hstep
  obtain ⟨session, hs, rfl⟩ := Option.map_eq_some_iff.mp hstep
  rw [setApp_session] at hs
  have hr := h.runs happ
  have hkey : (Mokv.Act.put e.key e.value).KeyOk := hok app happ e he
  have hstamp : app.StampOk .dbPut := trivial
  obtain ⟨hi, hstart, -, -⟩ := hr.inv.step hstamp happ'
  refine Inv.of_runs happ (h.1.step (fun _ => hkey) hid hs) ⟨hi, hstart.trans hr.start, ?_, ?_⟩
  · refine running_step hr.running ?_ hs
    intro heq
    cases heq
  · have hputs : app'.puts = app.puts ++ [(e.key, e.value)] := by
      rw [Applier.step, he] at happ'
      obtain rfl := Option.some.inj happ'
      rfl
    have hcontents : Session.contentsAfter (lastWritten (s.committed ++ app.puts))
        (.put e.key e.value) = lastWritten (s.committed ++ app'.puts) := by
      funext k
      rw [hputs, ← List.append_assoc, lastWritten_concat]
      rfl
    show session.Finds (lastWritten (s.committed ++ app'.puts))
    rw [← hcontents]
    exact hr.finds.step h.1 hs

theorem Runs.flush {cfg : DBConfig} {s : Node} {app : Applier} {session : Session} (h : s.Runs app)
    (hi : s.session.Inv True) (hstep : s.session.step cfg .flush = some session) :
    Runs { s with session := session } app := by
  refine ⟨h.inv, h.start, running_step h.running ?_ hstep, h.finds.step hi hstep⟩
  intro heq
  cases heq

theorem not_save_of_running {cfg : DBConfig} {s t : Session} (h : ∃ db, s.phase = .running db) :
    s.step cfg .save ≠ some t := by
  obtain ⟨phase, created⟩ := s
  obtain ⟨db, rfl⟩ : ∃ db, phase = .running db := h
  intro hstep
  cases hstep

/-- **When the apply thread has left its loop**, what it put is what was committed. -/
theorem Runs.drained {s : Node} {app : Applier} (h : s.Runs app) (htaken : app.taken = none)
    (hlast : app.log.commited ≤ app.log.lastAppend) :
    app.puts = (app.log.entries.take (app.log.commited - app.log.startIndex)).map Entry.pair ∧
      (s.committed ++ (app.log.entries.take (app.log.commited - app.log.startIndex)).map
        Entry.pair).length = app.log.commited := by
  obtain ⟨hc, hh⟩ := h.inv
  have heq : app.log.lastAppend = app.log.commited := Nat.le_antisymm hc.last_le hlast
  rw [Applier.handed, htaken, heq] at hh
  refine ⟨by simpa using hh, ?_⟩
  have h1 := hc.start_le
  have h2 := hc.commited_le
  rw [List.length_append, List.length_map, List.length_take, hc.length_entries, ← h.start]
  omega

/-- **A new session**: the log starts at the number that was saved. -/
theorem Inv.construct {cfg : DBConfig} {metaFile : Option Nat} {session session' : Session}
    {committed : List (Bytes × Bytes)} (h : Inv ⟨.down, metaFile, session, committed⟩)
    (hstep : session.step cfg .construct = some session') (hid : session'.sstId < 2 ^ 31) :
    Inv ⟨.up (Applier.start (metaFile.getD 0)), metaFile, session', committed⟩ := by
  obtain ⟨hsession, hmeta, hlt, hfinds⟩ := h
  have hkey : Mokv.Act.KeyOk .construct := trivial
  refine ⟨hsession.step (fun _ => hkey) hid hstep, ?_, hmeta, ?_, ?_⟩
  · exact Applier.inv_start (hmeta ▸ hlt)
  · obtain ⟨phase, created⟩ := session
    cases phase with
    | running db => cases hstep
    | stopping db => cases hstep
    | closed dir =>
      obtain ⟨db, -, rfl⟩ := Option.map_eq_some_iff.mp hstep
      exact ⟨db, rfl⟩
  · show session'.Finds (lastWritten (committed ++ []))
    rw [List.append_nil]
    exact hfinds.step hsession hstep

theorem session_of_step {cfg : DBConfig} {s t : Node} {a : Act} (hstep : s.step cfg a = some t) :
    t.session = s.session ∨
      ∃ b, s.session.step cfg b = some t.session ∧ (b = .flush → a = .flush) := by
  obtain ⟨phase, metaFile, session, committed⟩ := s
  cases a with
  | construct =>
    cases phase with
    | down =>
      obtain ⟨u, hu, rfl⟩ := Option.map_eq_some_iff.mp hstep
      obtain ⟨session', hs, rfl⟩ := Option.map_eq_some_iff.mp hu
      exact .inr ⟨.construct, hs, by simp⟩
    | up app => cases hstep
    | halting app => cases hstep
  | call op =>
    cases phase with
    | down => cases hstep
    | up app =>
      obtain ⟨app', -, rfl⟩ := Option.map_eq_some_iff.mp hstep
      exact .inl rfl
    | halting app =>
      simp only [Node.step] at hstep
      split at hstep
      · obtain ⟨app', -, rfl⟩ := Option.map_eq_some_iff.mp hstep
        exact .inl rfl
      · cases hstep
  | dbPut =>
    obtain ⟨app, -, hstep⟩ := Option.bind_eq_some_iff.mp hstep
    obtain ⟨e, -, hstep⟩ := Option.bind_eq_some_iff.mp hstep
    obtain ⟨app', -, hstep⟩ := Option.bind_eq_some_iff.mp hstep
    obtain ⟨session', hs, rfl⟩ := Option.map_eq_some_iff.mp hstep
    rw [setApp_session] at hs
    exact .inr ⟨.put e.key e.value, hs, by simp⟩
  | flush =>
    obtain ⟨session', hs, rfl⟩ := Option.map_eq_some_iff.mp hstep
    exact .inr ⟨.flush, hs, fun _ => rfl⟩
  | stop =>
    cases phase with
    | up app =>
      obtain rfl := Option.some.inj hstep
      exact .inl rfl
    | down => cases hstep
    | halting app => cases hstep
  | save =>
    cases phase with
    | down => cases hstep
    | up app => cases hstep
    | halting app =>
      simp only [Node.step] at hstep
      split at hstep
      · obtain rfl := Option.some.inj hstep
        exact .inl rfl
      · cases hstep
  | dbShutdown =>
    cases phase with
    | down =>
      obtain ⟨session', hs, rfl⟩ := Option.map_eq_some_iff.mp hstep
      exact .inr ⟨.shutdown, hs, by simp⟩
    | up app => cases hstep
    | halting app => cases hstep
  | dbSave =>
    obtain ⟨session', hs, rfl⟩ := Option.map_eq_some_iff.mp hstep
    exact .inr ⟨.save, hs, by simp⟩

theorem Inv.created_step {cfg : DBConfig} {s t : Node} {a : Act} (h : s.Inv)
    (hok : StepOk cfg s a) (hstep : s.step cfg a = some t) :
    t.session.sstId < 2 ^ 31 ∧ ∀ c ∈ t.session.created, c ∈ s.session.created ∨ Fresh c := by
  rcases session_of_step hstep with heq | ⟨b, hb, hflush⟩
  · rw [heq]
    exact ⟨h.1.sstId_lt, fun c hc => .inl hc⟩
  · refine Session.created_step h.1 ?_ hb
    cases b with
    | flush => exact hok.2 (hflush rfl)
    | _ => trivial

theorem Inv.step {cfg : DBConfig} {s t : Node} {a : Act} (h : s.Inv) (hok : StepOk cfg s a)
    (hstep : s.step cfg a = some t) : t.Inv := by
  have hid := (h.created_step hok hstep).1
  have hentry := hok.1
  obtain ⟨phase, metaFile, session, committed⟩ := s
  cases a with
  | construct =>
    cases phase with
    | down =>
      obtain ⟨u, hu, rfl⟩ := Option.map_eq_some_iff.mp hstep
      obtain ⟨session', hs, rfl⟩ := Option.map_eq_some_iff.mp hu
      exact h.construct hs hid
    | up app => cases hstep
    | halting app => cases hstep
  | call op =>
    cases phase with
    | down => cases hstep
    | up app =>
      obtain ⟨app', happ', rfl⟩ := Option.map_eq_some_iff.mp hstep
      have hr : Runs ⟨.up app, metaFile, session, committed⟩ app' :=
        Runs.call h.2 (hentry app rfl) happ'
      exact ⟨h.1, hr.inv, hr.start, hr.running, hr.finds⟩
    | halting app =>
      simp only [Node.step] at hstep
      split at hstep
      · obtain ⟨app', happ', rfl⟩ := Option.map_eq_some_iff.mp hstep
        have hr : Runs ⟨.halting app, metaFile, session, committed⟩ app' :=
          Runs.call h.2 (hentry app rfl) happ'
        exact ⟨h.1, hr.inv, hr.start, hr.running, hr.finds⟩
      · cases hstep
  | dbPut => exact h.dbPut hentry hstep hid
  | flush =>
    obtain ⟨session', hs, rfl⟩ := Option.map_eq_some_iff.mp hstep
    have hkey : Mokv.Act.KeyOk .flush := trivial
    have hsession := h.1.step (fun _ => hkey) hid hs
    cases phase with
    | down => exact ⟨hsession, h.2.meta_eq, h.2.length_lt, h.2.finds.step h.1 hs⟩
    | up app => exact ⟨hsession, Runs.flush h.2 h.1 hs⟩
    | halting app => exact ⟨hsession, Runs.flush h.2 h.1 hs⟩
  | stop =>
    cases phase with
    | down => cases hstep
    | up app =>
      obtain rfl := Option.some.inj hstep
      obtain ⟨hc, hh⟩ := h.2.inv
      exact ⟨h.1, ⟨⟨hc.queue, hc.start_le, hc.last_le, hc.commited_le, hc.commited_lt, hc.index_eq⟩,
        hh⟩, h.2.start, h.2.running, h.2.finds⟩
    | halting app => cases hstep
  | save =>
    cases phase with
    | down => cases hstep
    | up app => cases hstep
    | halting app =>
      simp only [Node.step] at hstep
      split at hstep
      · rename_i hdone
        obtain rfl := Option.some.inj hstep
        obtain ⟨heq, hlen⟩ := Runs.drained h.2 hdone.1 hdone.2
        refine ⟨h.1, hlen.symm, ?_, ?_⟩
        · rw [hlen]
          exact h.2.inv.counts.commited_lt
        show session.Finds (lastWritten (committed ++ _))
        rw [← heq]
        exact h.2.finds
      · cases hstep
  | dbShutdown =>
    cases phase with
    | down =>
      obtain ⟨session', hs, rfl⟩ := Option.map_eq_some_iff.mp hstep
      have hkey : Mokv.Act.KeyOk .shutdown := trivial
      exact ⟨h.1.step (fun _ => hkey) hid hs, h.2.meta_eq, h.2.length_lt,
        h.2.finds.step h.1 hs⟩
    | up app => cases hstep
    | halting app => cases hstep
  | dbSave =>
    obtain ⟨session', hs, rfl⟩ := Option.map_eq_some_iff.mp hstep
    have hkey : Mokv.Act.KeyOk .save := trivial
    have hsession := h.1.step (fun _ => hkey) hid hs
    cases phase with
    | down => exact ⟨hsession, h.2.meta_eq, h.2.length_lt, h.2.finds.step h.1 hs⟩
    | up app => exact absurd hs (not_save_of_running h.2.running)
    | halting app => exact absurd hs (not_save_of_running h.2.running)

/-! ### `~RaftLog` -/

/-- What the apply thread still does after `stop_` was set, and the save. -/
def destructor (app : Applier) : List Act :=
  (app.taken.map fun _ => Act.dbPut).toList ++
    ((List.replicate (app.log.commited - app.log.lastAppend) [Act.call .apply, .dbPut]).flatten ++
      [.save])

theorem exists_dbPut (cfg : DBConfig) {s : Node} {app : Applier} {e : Entry}
    (hphase : s.phase = .halting app) (hrun : ∃ db, s.session.phase = .running db)
    (htaken : app.taken = some e) :
    ∃ t, s.step cfg .dbPut = some t ∧
      t.phase = .halting { app with taken := none, puts := app.puts ++ [e.pair] } ∧
      ∃ db, t.session.phase = .running db := by
  obtain ⟨phase, metaFile, ⟨dbPhase, created⟩, committed⟩ := s
  obtain rfl : phase = .halting app := hphase
  obtain ⟨db, rfl⟩ : ∃ db, dbPhase = .running db := hrun
  refine ⟨⟨.halting { app with taken := none, puts := app.puts ++ [e.pair] }, metaFile,
    ⟨.running (db.put cfg e.key e.value), created⟩, committed⟩, ?_, rfl, _, rfl⟩
  simp only [step, app?, htaken, Applier.step, Option.map_some, Option.bind_eq_bind,
    Option.bind_some]
  rfl

theorem exists_drain (cfg : DBConfig) {n : Nat} {s : Node} {app : Applier}
    (hphase : s.phase = .halting app) (hrun : ∃ db, s.session.phase = .running db)
    (htaken : app.taken = none) (hn : app.log.commited - app.log.lastAppend = n) :
    ∃ t app', run (step cfg) s (List.replicate n [Act.call .apply, .dbPut]).flatten = some t ∧
      t.phase = .halting app' ∧ app'.taken = none ∧ app'.log.commited = app.log.commited ∧
      app'.log.commited ≤ app'.log.lastAppend := by
  induction n generalizing s app with
  | zero => exact ⟨s, app, rfl, hphase, htaken, rfl, by omega⟩
  | succ n ih =>
    have hlt : app.log.lastAppend < app.log.commited := by omega
    obtain ⟨phase, metaFile, session, committed⟩ := s
    obtain rfl : phase = .halting app := hphase
    have happ : app.step (.call .apply) = some { app with
        log := { app.log with lastAppend := app.log.lastAppend + 1 }
        taken := some (app.log.queue.at (app.log.lastAppend - app.log.startIndex)) } := by
      rw [Applier.step, htaken]
      simp only [RaftLog.apply, if_pos hlt, Option.map_some]
    have hstep : step cfg ⟨.halting app, metaFile, session, committed⟩ (.call .apply) =
        some ⟨.halting { app with
          log := { app.log with lastAppend := app.log.lastAppend + 1 }
          taken := some (app.log.queue.at (app.log.lastAppend - app.log.startIndex)) },
          metaFile, session, committed⟩ := by
      simp only [step, if_true, happ, Option.map_some]
      rfl
    obtain ⟨u, hu, hphase', hrun'⟩ := exists_dbPut cfg
      (s := ⟨.halting { app with
        log := { app.log with lastAppend := app.log.lastAppend + 1 }
        taken := some (app.log.queue.at (app.log.lastAppend - app.log.startIndex)) },
        metaFile, session, committed⟩) rfl hrun rfl
    obtain ⟨t, app', hr, hrest⟩ := ih hphase' hrun' rfl (by dsimp only; omega)
    refine ⟨t, app', ?_, hrest⟩
    rw [List.replicate_succ, List.flatten_cons, List.cons_append, List.cons_append, List.nil_append,
      run_cons, hstep, Option.bind_some, run_cons, hu, Option.bind_some]
    exact hr

/-- **`~RaftLog` ends**, and saves the commit index. -/
theorem exists_halt (cfg : DBConfig) {s : Node} {app : Applier} (h : s.Inv)
    (hphase : s.phase = .halting app) :
    ∃ t, run (step cfg) s (destructor app) = some t ∧ t.phase = .down ∧
      t.metaFile = some app.log.commited := by
  have happ : s.app? = some app := by
    rw [app?, hphase]
  have hrun := (h.runs happ).running
  have hrest : ∀ {u : Node} {app' : Applier}, u.phase = .halting app' →
      (∃ db, u.session.phase = .running db) → app'.taken = none →
      ∃ t, run (step cfg) u ((List.replicate (app'.log.commited - app'.log.lastAppend)
          [Act.call .apply, .dbPut]).flatten ++ [.save]) = some t ∧ t.phase = .down ∧
        t.metaFile = some app'.log.commited := by
    intro u app' hu hurun htaken
    obtain ⟨v, app'', hr, hv, hnone, hcom, hle⟩ := exists_drain cfg hu hurun htaken rfl
    refine ⟨{ v with
      phase := .down
      metaFile := some app''.log.commited
      committed := v.committed ++
        (app''.log.entries.take (app''.log.commited - app''.log.startIndex)).map Entry.pair },
      ?_, rfl, by rw [hcom]⟩
    rw [run_concat]
    refine ⟨v, hr, ?_⟩
    simp only [step, hv]
    rw [if_pos ⟨hnone, hle⟩]
  cases htaken : app.taken with
  | none =>
    obtain ⟨t, hr, hdown, hmeta⟩ := hrest hphase hrun htaken
    refine ⟨t, ?_, hdown, hmeta⟩
    rw [destructor, htaken]
    exact hr
  | some e =>
    obtain ⟨u, hu, huphase, hurun⟩ := exists_dbPut cfg hphase hrun htaken
    obtain ⟨t, hr, hdown, hmeta⟩ := hrest huphase hurun rfl
    refine ⟨t, ?_, hdown, hmeta⟩
    rw [destructor, htaken]
    show run (step cfg) s (.dbPut :: _) = some t
    rw [run_cons, hu, Option.bind_some]
    exact hr

theorem committed_of_step {cfg : DBConfig} {s t : Node} {a : Act} (h : s.Inv)
    (hstep : s.step cfg a = some t) :
    t.committed = s.committed ∨
      ∃ app, a = .save ∧ s.phase = .halting app ∧
        t.committed = s.committed ++
          (app.log.entries.take (app.log.commited - app.log.startIndex)).map Entry.pair ∧
        t.committed.length = app.log.commited := by
  obtain ⟨phase, metaFile, session, committed⟩ := s
  cases a with
  | construct =>
    cases phase with
    | down =>
      obtain ⟨u, hu, rfl⟩ := Option.map_eq_some_iff.mp hstep
      obtain ⟨session', -, rfl⟩ := Option.map_eq_some_iff.mp hu
      exact Or.inl rfl
    | up app => cases hstep
    | halting app => cases hstep
  | call op =>
    cases phase with
    | down => cases hstep
    | up app =>
      obtain ⟨app', -, rfl⟩ := Option.map_eq_some_iff.mp hstep
      exact Or.inl rfl
    | halting app =>
      simp only [step] at hstep
      split at hstep
      · obtain ⟨app', -, rfl⟩ := Option.map_eq_some_iff.mp hstep
        exact Or.inl rfl
      · cases hstep
  | dbPut =>
    obtain ⟨app, happ, hstep⟩ := Option.bind_eq_some_iff.mp hstep
    obtain ⟨e, -, hstep⟩ := Option.bind_eq_some_iff.mp hstep
    obtain ⟨app', -, hstep⟩ := Option.bind_eq_some_iff.mp hstep
    obtain ⟨session', -, rfl⟩ := Option.map_eq_some_iff.mp hstep
    cases phase <;> exact Or.inl rfl
  | flush =>
    obtain ⟨session', -, rfl⟩ := Option.map_eq_some_iff.mp hstep
    exact Or.inl rfl
  | stop =>
    cases phase with
    | down => cases hstep
    | up app =>
      obtain rfl := Option.some.inj hstep
      exact Or.inl rfl
    | halting app => cases hstep
  | save =>
    cases phase with
    | down => cases hstep
    | up app => cases hstep
    | halting app =>
      simp only [step] at hstep
      split at hstep
      · rename_i hdone
        obtain rfl := Option.some.inj hstep
        exact Or.inr ⟨app, rfl, rfl, rfl, (Runs.drained h.2 hdone.1 hdone.2).2⟩
      · cases hstep
  | dbShutdown =>
    cases phase with
    | down =>
      obtain ⟨session', -, rfl⟩ := Option.map_eq_some_iff.mp hstep
      exact Or.inl rfl
    | up app => cases hstep
    | halting app => cases hstep
  | dbSave =>
    obtain ⟨session', -, rfl⟩ := Option.map_eq_some_iff.mp hstep
    exact Or.inl rfl

/-- **Commit index and database agree across sessions.**  A new session starts at the
number of entries committed so far, which is the last committed index of the session
before, and on a database that holds what these entries leave; every `~RaftLog` comes to its
save; and no flush wrote over a file in use. -/
theorem sessions_agree (cfg : DBConfig) (files : LSM.Files) (as : List Act) (s : Node)
    (hr : run (step cfg) (start files) as = some s)
    (hok : StepsOk (step cfg) (StepOk cfg) (start files) as) :
    (∀ t, s.step cfg .construct = some t →
      ∃ app db, t.phase = .up app ∧ t.session.phase = .running db ∧
        app.log.startIndex = s.committed.length ∧ app.log.index = s.committed.length ∧
        app.log.commited = s.committed.length ∧ app.log.lastAppend = s.committed.length ∧
        ∀ k, db.get k = (lastWritten s.committed k).bind DB.hide) ∧
    (∀ a t, s.step cfg a = some t →
      t.committed = s.committed ∨
        ∃ app, a = .save ∧ s.phase = .halting app ∧
          t.committed = s.committed ++
            (app.log.entries.take (app.log.commited - app.log.startIndex)).map Entry.pair ∧
          t.committed.length = app.log.commited) ∧
    (∀ app, s.phase = .halting app →
      ∃ t, run (step cfg) s (destructor app) = some t ∧ t.phase = .down ∧
        t.metaFile = some app.log.commited) ∧
    ∀ c ∈ s.session.created, Fresh c := by
  obtain ⟨hinv, hfresh⟩ : s.Inv ∧ ∀ c ∈ s.session.created, Fresh c := by
    refine run_invariant (I := fun s => Inv s ∧ ∀ c ∈ s.session.created, Fresh c)
      ⟨inv_start files, by simp [start, Session.start]⟩ ?_ hr hok
    rintro s a t ⟨hs, hc⟩ ha ht
    exact ⟨hs.step ha ht, fun c hmem => ((hs.created_step ha ht).2 c hmem).elim (hc c) id⟩
  refine ⟨?_, fun a t ht => committed_of_step hinv ht,
    fun app happ => exists_halt cfg hinv happ, hfresh⟩
  intro t ht
  obtain ⟨phase, metaFile, session, committed⟩ := s
  cases phase with
  | up app => cases ht
  | halting app => cases ht
  | down =>
    obtain ⟨u, hu, rfl⟩ := Option.map_eq_some_iff.mp ht
    obtain ⟨session', hs, rfl⟩ := Option.map_eq_some_iff.mp hu
    obtain ⟨hsession, hmeta, -, hfinds⟩ := hinv
    have hfinds' := hfinds.step hsession hs
    obtain ⟨dbPhase, created⟩ := session
    cases dbPhase with
    | running db => cases hs
    | stopping db => cases hs
    | closed dir =>
      obtain ⟨db, -, rfl⟩ := Option.map_eq_some_iff.mp hs
      refine ⟨_, db, rfl, rfl, hmeta, hmeta, hmeta, hmeta, ?_⟩
      intro k
      rw [DB.get_eq, hfinds' k]
      rfl

/-- A session in which an entry is still to be applied when `stop_` is set, and another that
was never committed. -/
def sampleSession : List Act :=
  [.construct, .call (.put [1] [10] 1), .call (.put [2] [20] 1), .call (.put [3] [30] 1),
    .call (.updateCommit 2), .call .apply, .flush, .stop, .dbPut, .call .apply, .dbPut, .save,
    .dbShutdown, .flush, .flush, .dbSave]

theorem sessions_agree_sample :
    ∃ s t, run (step ⟨1, LSM.plainFileSize fun _ => 152⟩) (start fun _ => none) sampleSession =
        some s ∧
      s.committed = [([1], [10]), ([2], [20])] ∧
      s.step ⟨1, LSM.plainFileSize fun _ => 152⟩ .construct = some t ∧
      ∃ app db, t.phase = .up app ∧ t.session.phase = .running db ∧
        app.log.startIndex = s.committed.length ∧ app.log.index = s.committed.length ∧
        app.log.commited = s.committed.length ∧ app.log.lastAppend = s.committed.length ∧
        ∀ k, db.get k = (lastWritten s.committed k).bind DB.hide := by
  refine ⟨_, _, rfl, rfl, rfl, ?_⟩
  exact (sessions_agree ⟨1, LSM.plainFileSize fun _ => 152⟩ (fun _ => none) sampleSession _ rfl
    (by decide)).1 _ rfl

/-- What a lookup returns. -/
def lookup (s : Node) (key : Bytes) : Option (Option Bytes) :=
  match s.session.phase with
  | .running db => some (db.get key)
  | _ => none

/-- Four entries, two of them with the empty key and a value that fills level 0. -/
def emptyKeySession : List Act :=
  [.construct, .call (.put [98] [1] 1), .call (.put [] (List.replicate 1000 7) 1),
    .call (.updateCommit 2), .call .apply, .dbPut, .call .apply, .dbPut, .flush, .flush,
    .call (.put [99] [2] 1), .call (.put [] (List.replicate 1000 7) 1),
    .call (.updateCommit 4), .call .apply, .dbPut, .call .apply, .dbPut, .flush, .flush,
    .stop, .save, .dbShutdown, .dbSave, .construct]

/-- **A committed entry is lost** when entries with the empty key are compacted: the second
compaction does not see that its table covers the first one's, and a lookup asks only one
of the two. -/
theorem session_forgets_entry :
    ∃ s, run (step ⟨0, LSM.plainFileSize fun _ => 152⟩) (start fun _ => none) emptyKeySession =
        some s ∧
      s.committed.length = 4 ∧ lastWritten s.committed [98] = some [1] ∧
      s.lookup [98] = some none := by
  have hrun : (run (step ⟨0, LSM.plainFileSize fun _ => 152⟩) (start fun _ => none)
      emptyKeySession).any (fun s => s.committed.length = 4 ∧
        lastWritten s.committed [98] = some [1] ∧ s.lookup [98] = some none) = true := by
    decide +kernel
  rw [Option.any_eq_true] at hrun
  obtain ⟨s, hs, h⟩ := hrun
  exact ⟨s, hs, of_decide_eq_true h⟩

end Node

end Mokv.Raft
