import Mokv.DB.Session

/-!
# A clean restart

The destructor hands the active memtable over behind the queued ones, so the flush
thread writes it last; every flush keeps all lookups; and what `Save` writes is loaded
back level by level.  So a database that is shut down and constructed again answers
every lookup as before (`restart_preserves_get`), in any session of any history.
-/

namespace Mokv

open LSM Lib

namespace Session

/-- The ids handed out by the step are within `int`. -/
def IdsFit (cfg : DBConfig) (s : Session) (a : Act) : Prop :=
  (s.step cfg a).all fun t => t.sstId < 2 ^ 31

instance (cfg : DBConfig) (s : Session) (a : Act) : Decidable (IdsFit cfg s a) :=
  inferInstanceAs (Decidable (_ = true))

theorem IdsFit.lt {cfg : DBConfig} {s t : Session} {a : Act} (h : IdsFit cfg s a)
    (hstep : s.step cfg a = some t) : t.sstId < 2 ^ 31 := by
  rw [IdsFit, hstep] at h
  simpa using h

/-- `DB::~DB`: the memtable is handed over, the thread drains the queue, the manifest is
saved. -/
def destructor (db : DB) : List Act :=
  .shutdown :: (List.replicate db.handOver.flushQueue.length .flush ++ [.save])

theorem exists_drain {cfg : DBConfig} {n : Nat} {db : DB} {created : List Creation} (hg : Good db)
    (hv : db.Valid) (hn : db.flushQueue.length = n)
    (hid : StepsOk (step cfg) (IdsFit cfg) ⟨.stopping db, created⟩ (List.replicate n .flush)) :
    ∃ db' created', run (step cfg) ⟨.stopping db, created⟩ (List.replicate n .flush) =
        some ⟨.stopping db', created'⟩ ∧ Good db' ∧ db'.Valid ∧ db'.flushQueue = [] ∧
      db'.memtable = db.memtable ∧ ∀ k, db'.raw k = db.raw k := by
  induction n generalizing db created with
  | zero =>
    exact ⟨db, created, rfl, hg, hv, List.length_eq_zero_iff.mp hn, rfl, fun _ => rfl⟩
  | succ n ih =>
    obtain ⟨t, q, hq⟩ := List.exists_cons_of_length_eq_add_one hn
    obtain ⟨db₁, cs, heq, hf, -⟩ := hg.exists_flush cfg hq
    have hstep : step cfg ⟨.stopping db, created⟩ .flush =
        some ⟨.stopping db₁, created ++ cs⟩ := by
      simp [step, hq, heq]
    rw [List.replicate_succ] at hid ⊢
    have hg₁ : Good db₁ := hg.flush heq (hid.1.lt hstep)
    obtain ⟨hv₁, hraw₁⟩ := hv.flush_eq heq
    have hn₁ : db₁.flushQueue.length = n := by
      rw [hf.flushQueue_eq]
      simpa [hq] using hn
    obtain ⟨db', created', hr, hg', hv', hq', hm', hraw'⟩ := ih hg₁ hv₁ hn₁ (hid.2 _ hstep)
    refine ⟨db', created', by rw [run_cons, hstep]; exact hr, hg', hv', hq', ?_,
      fun k => (hraw' k).trans (hraw₁ k)⟩
    rw [hm', hf.memtable_eq]

theorem inv_of_run {cfg : DBConfig} {files : Files} {as : List Act} {s : Session}
    (hr : run (step cfg) (start files) as = some s) (hk : ∀ a ∈ as, a.KeyOk)
    (hid : StepsOk (step cfg) (IdsFit cfg) (start files) as) : s.Inv True := by
  induction as using List.reverseRecOn generalizing s with
  | nil =>
    obtain rfl := Option.some.inj hr
    exact inv_start True files
  | append_singleton as a ih =>
    obtain ⟨u, hu, hstep⟩ := run_concat.mp hr
    obtain ⟨h1, h2⟩ := stepsOk_concat.mp hid
    have hkey : a.KeyOk := hk a (List.mem_append_right _ (List.mem_singleton_self a))
    exact (ih hu (fun b hb => hk b (List.mem_append_left _ hb)) h1).step (fun _ => hkey)
      ((h2 u hu).lt hstep) hstep

theorem raw_eq_manifest {db : DB} (hm : db.memtable.entries = []) (hq : db.flushQueue = [])
    (k : Bytes) : db.raw k = db.manifest.get k := by
  have hnone : db.memtable.get k = none := by
    rw [MemTable.get, hm]
    rfl
  rw [DB.raw, hnone, hq]
  rfl

/-- **A clean restart preserves the database.**  The histories start on a directory
without a manifest and may hold any number of earlier sessions. -/
theorem restart_preserves_get (cfg : DBConfig) (files : Files) (as : List Act) (s : Session)
    (db : DB) (hr : run (step cfg) (start files) as = some s) (hdb : s.phase = .running db)
    (hk : ∀ a ∈ as, a.KeyOk)
    (hid : StepsOk (step cfg) (IdsFit cfg) (start files) (as ++ destructor db)) :
    ∃ t db', run (step cfg) s (destructor db ++ [.construct]) = some t ∧
      t.phase = .running db' ∧ ∀ k, k ≠ [] → db'.get k = db.get k := by
  obtain ⟨hid₁, hid₂⟩ := stepsOk_append.mp hid
  have hinv := inv_of_run hr hk hid₁
  obtain ⟨phase, created⟩ := s
  obtain rfl : phase = .running db := hdb
  obtain ⟨hg, hv⟩ : Good db ∧ (True → db.Valid) := hinv
  obtain ⟨hv₁, hraw₁⟩ := (hv trivial).handOver
  have hm₁ := db.handOver_entries
  obtain ⟨-, hid₃⟩ := hid₂ _ hr
  obtain ⟨hid₄, -⟩ := stepsOk_append.mp (hid₃ _ rfl)
  obtain ⟨db₂, created₂, hdrain, hg₂, hv₂, hq₂, hm₂, hraw₂⟩ :=
    exists_drain hg.handOver hv₁ rfl hid₄
  obtain ⟨db', hopen, -, -, hraw'⟩ := (hg₂.saved fun _ : True => hv₂).exists_open
  refine ⟨⟨.running db', created₂⟩, db', ?_, rfl, ?_⟩
  · have hshut : step cfg ⟨.running db, created⟩ .shutdown =
        some ⟨.stopping db.handOver, created⟩ := rfl
    have hsave : step cfg ⟨.stopping db₂, created₂⟩ .save = some ⟨.closed db₂.save, created₂⟩ := by
      simp [step, hq₂]
    have hcons : step cfg ⟨.closed db₂.save, created₂⟩ .construct =
        some ⟨.running db', created₂⟩ := by
      simp [step, DB.save, hopen]
    rw [destructor, List.cons_append, run_cons, hshut, Option.bind_some, run_append, run_append,
      hdrain, Option.bind_some, run_cons, hsave, Option.bind_some, run_nil, Option.bind_some,
      run_cons, hcons, Option.bind_some, run_nil]
  · intro k _
    have hman := raw_eq_manifest (hm₂ ▸ hm₁) hq₂ k
    rw [DB.get_eq, DB.get_eq, hraw', ← hman, hraw₂, hraw₁]

/-- Two sessions; the second one ends with a queued memtable and a non-empty one. -/
def sampleHistory : List Act :=
  [.construct, .put [1] [10], .put [2] [20, 21, 22], .flush, .delete [1], .shutdown, .flush, .save,
    .construct, .put [3] [30, 31, 32, 33], .put [4] [40]]

theorem restart_preserves_get_sample :
    ∃ s db,
      run (step ⟨4, plainFileSize fun _ => 152⟩) (start fun _ => none) sampleHistory = some s ∧
      s.phase = .running db ∧ db.flushQueue.length = 1 ∧
      ∃ t db',
        run (step ⟨4, plainFileSize fun _ => 152⟩) s (destructor db ++ [.construct]) = some t ∧
        t.phase = .running db' ∧ ∀ k, k ≠ [] → db'.get k = db.get k :=
  ⟨_, _, rfl, rfl, rfl, restart_preserves_get ⟨4, plainFileSize fun _ => 152⟩ (fun _ => none)
    sampleHistory _ _ rfl rfl (by decide) (by decide)⟩

/-! ### Contents of a history -/

/-- What lookups find, now or when the database is constructed the next time. -/
def Finds (s : Session) (c : Bytes → Option Bytes) : Prop :=
  match s.phase with
  | .running db => ∀ k, db.raw k = c k
  | .stopping db => db.memtable.entries = [] ∧ ∀ k, db.raw k = c k
  | .closed dir => ∀ db, DB.open dir = some db → ∀ k, db.raw k = c k

theorem finds_start (files : Files) : (start files).Finds fun _ => none := by
  intro db hdb k
  obtain rfl := Option.some.inj hdb
  exact DB.raw_new files k

/-- The contents after a step. -/
def contentsAfter (c : Bytes → Option Bytes) : Act → Bytes → Option Bytes
  | .put key value => fun k => if k = key then some value else c k
  | .delete key => fun k => if k = key then some tombstoneValue else c k
  | _ => c

/-- **Only writes change the contents**, within a session and across sessions. -/
theorem Finds.step {c : Bytes → Option Bytes} {cfg : DBConfig} {s t : Session} {a : Act}
    (h : s.Finds c) (hi : s.Inv True) (hstep : s.step cfg a = some t) :
    t.Finds (contentsAfter c a) := by
  obtain ⟨phase, created⟩ := s
  cases phase with
  | running db =>
    obtain ⟨hg, hv⟩ : Good db ∧ (True → db.Valid) := hi
    cases a with
    | put key value =>
      obtain rfl := Option.some.inj hstep
      intro k
      rw [DB.raw_put, h k]
      rfl
    | delete key =>
      obtain rfl := Option.some.inj hstep
      intro k
      rw [DB.delete, DB.raw_put, h k]
      rfl
    | flush =>
      obtain ⟨r, hr, rfl⟩ := Option.map_eq_some_iff.mp hstep
      intro k
      exact (((hv trivial).flush_eq hr).2 k).trans (h k)
    | shutdown =>
      obtain rfl := Option.some.inj hstep
      exact ⟨db.handOver_entries, fun k => ((hv trivial).handOver.2 k).trans (h k)⟩
    | save => cases hstep
    | construct => cases hstep
  | stopping db =>
    obtain ⟨hg, hv⟩ : Good db ∧ (True → db.Valid) := hi
    obtain ⟨hm, hraw⟩ : db.memtable.entries = [] ∧ ∀ k, db.raw k = c k := h
    cases a with
    | flush =>
      simp only [Session.step] at hstep
      split at hstep
      · cases hstep
      · rename_i hq
        obtain ⟨r, hr, rfl⟩ := Option.map_eq_some_iff.mp hstep
        obtain ⟨u, q, hcons⟩ := List.exists_cons_of_ne_nil hq
        obtain ⟨db', cs, heq, hf, -⟩ := hg.exists_flush cfg hcons
        obtain rfl := Option.some.inj (hr.symm.trans heq)
        refine ⟨?_, fun k => (((hv trivial).flush_eq hr).2 k).trans (hraw k)⟩
        show db'.memtable.entries = []
        rw [hf.memtable_eq]
        exact hm
    | save =>
      simp only [Session.step] at hstep
      split at hstep
      · rename_i hq
        obtain rfl := Option.some.inj hstep
        intro db' hdb' k
        obtain ⟨db₁, hopen, -, -, hraw₁⟩ := (hg.saved hv).exists_open
        obtain rfl := Option.some.inj (hdb'.symm.trans hopen)
        rw [hraw₁, ← raw_eq_manifest hm hq]
        exact hraw k
      · cases hstep
    | put key value => cases hstep
    | delete key => cases hstep
    | shutdown => cases hstep
    | construct => cases hstep
  | closed dir =>
    cases a with
    | construct =>
      obtain ⟨db, hdb, rfl⟩ := Option.map_eq_some_iff.mp hstep
      exact h db hdb
    | put key value => cases hstep
    | delete key => cases hstep
    | flush => cases hstep
    | shutdown => cases hstep
    | save => cases hstep

end Session

end Mokv
