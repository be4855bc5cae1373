import Mokv.DB.Restart

/-!
# Crashes

A process may stop anywhere before or after `Manifest::Save`, not inside it: it rewrites the
file in place, word by word, and is one step here.  Until it has run the manifest file is
the one of the last clean close, and the `.sst` files are what the flushes since then have
made of them.  The counter of a session starts at the greatest id of the manifest it
loaded, and every id handed out is above it: so flushes and compactions write new files,
or files that an earlier crash left behind, and none that the manifest lists.

`Host.Keeps o h` says this of a process whose last clean close saved `o`.  Every step but
`save` keeps it (`Keeps.step`), crashes and reopenings among them, so the next session
reads what was there at the last clean close (`crash_rolls_back`).
-/

namespace Mokv

open LSM Lib

/-- A process on a data directory, with the manifest file on disk. -/
structure Host where
  session : Session
  manifest : Option Bytes

/-- Steps of a process; with `crash` it stops where it is. -/
inductive HostAct where
  | act (a : Act)
  | crash
deriving DecidableEq

namespace Host

/-- A directory without a manifest. -/
def start (files : Files) : Host := ⟨Session.start files, none⟩

/-- The directory that is left when the process stops. -/
def abandon (h : Host) (db : DB) : Host :=
  ⟨⟨.closed ⟨h.manifest, db.files⟩, h.session.created⟩, h.manifest⟩

/-- The manifest file after a step: only the end of `~DB` writes it. -/
def manifestAfter (h : Host) (t : Session) : Option Bytes :=
  match t.phase with
  | .closed dir => dir.manifest
  | _ => h.manifest

/-- One step.  No crash falls inside `Manifest::Save`. -/
def step (cfg : DBConfig) (h : Host) : HostAct → Option Host
  | .act a => (h.session.step cfg a).map fun t => ⟨t, h.manifestAfter t⟩
  | .crash =>
    match h.session.phase with
    | .running db => some (h.abandon db)
    | .stopping db => some (h.abandon db)
    | .closed _ => none

/-- The ids handed out by the step are within `int`. -/
def IdsFit (cfg : DBConfig) (h : Host) (a : HostAct) : Prop :=
  (h.step cfg a).all fun t => t.session.sstId < 2 ^ 31

instance (cfg : DBConfig) (h : Host) (a : HostAct) : Decidable (IdsFit cfg h a) :=
  inferInstanceAs (Decidable (_ = true))

theorem IdsFit.lt {cfg : DBConfig} {h t : Host} {a : HostAct} (hf : IdsFit cfg h a)
    (hstep : h.step cfg a = some t) : t.session.sstId < 2 ^ 31 := by
  rw [IdsFit, hstep] at hf
  simpa using hf

end Host

/-! ### Files below the counter -/

theorem DB.Flushed.files_eq {cfg : DBConfig} {db db' : DB} {t : MemTable} {cs : List Creation}
    (hf : DB.Flushed cfg db t db' cs) (hbound : db'.sstId < 2 ^ 31) {id : Int}
    (hid : id ≤ db.sstId) : db'.files id = db.files id := by
  cases hf with
  | plain hsst hstop =>
    have hbound' : db.sstId + 1 < 2 ^ 31 := hbound
    have hs := (SST.of_ofMemTable? hsst).1
    rw [toInt32_natCast hbound'] at hs
    exact db.files.write_ne (by omega)
  | @compacted sst m cs hsst hover heq hc =>
    have hbound' : db.sstId + 2 < 2 ^ 31 := hbound
    have hs := (SST.of_ofMemTable? hsst).1
    rw [toInt32_natCast (by omega)] at hs
    have hcs : ∀ c ∈ cs, id ≠ c.sst.id := by
      intro c hmem
      rw [hc.id_eq c hmem, toInt32_natCast hbound']
      omega
    exact (Files.writeAll_ne hcs).trans (db.files.write_ne (by omega))

theorem DB.Flushed.le_sstId {cfg : DBConfig} {db db' : DB} {t : MemTable} {cs : List Creation}
    (hf : DB.Flushed cfg db t db' cs) : db.sstId ≤ db'.sstId := by
  cases hf with
  | plain hsst hstop => simp
  | compacted hsst hover heq hc => simp

/-- The manifest `m` can still be loaded from the files of a session. -/
structure Kept (m : Manifest) (db : DB) : Prop where
  saved : Saved False m db.files
  below : ∀ s ∈ m.ssts, s.id ≤ db.sstId

theorem Saved.of_files {K : Prop} {m : Manifest} {files files' : Files} (h : Saved K m files)
    (heq : ∀ s ∈ m.ssts, files' s.id = files s.id) : Saved K m files' := by
  refine ⟨h.shaped, ?_, h.ids, h.levels, h.wf⟩
  intro s hs
  rw [heq s hs]
  exact h.stored s hs

theorem Kept.congr {m : Manifest} {db db' : DB} (h : Kept m db) (hfiles : db'.files = db.files)
    (hid : db'.sstId = db.sstId) : Kept m db' := by
  refine ⟨?_, ?_⟩
  · rw [hfiles]
    exact h.saved
  · rw [hid]
    exact h.below

theorem Kept.put {m : Manifest} {db : DB} (h : Kept m db) (cfg : DBConfig) (k v : Bytes) :
    Kept m (db.put cfg k v) := by
  rw [DB.put_eq]
  split <;> exact h.congr rfl rfl

theorem Kept.handOver {m : Manifest} {db : DB} (h : Kept m db) : Kept m db.handOver := by
  rw [DB.handOver]
  split <;> exact h.congr rfl rfl

theorem Good.memtable_flush {cfg : DBConfig} {db db' : DB} {cs : List Creation} (hg : Good db)
    (heq : db.flush cfg = some (db', cs)) : db'.memtable = db.memtable := by
  cases hq : db.flushQueue with
  | nil =>
    rw [DB.flush, hq] at heq
    obtain ⟨rfl, rfl⟩ := Prod.mk.inj (Option.some.inj heq)
    rfl
  | cons t q =>
    obtain ⟨db₁, cs₁, heq₁, hf, -⟩ := hg.exists_flush cfg hq
    obtain ⟨rfl, rfl⟩ := Prod.mk.inj (Option.some.inj (heq.symm.trans heq₁))
    exact hf.memtable_eq

theorem Kept.flush {cfg : DBConfig} {m : Manifest} {db db' : DB} {cs : List Creation}
    (h : Kept m db) (hg : Good db) (heq : db.flush cfg = some (db', cs))
    (hbound : db'.sstId < 2 ^ 31) : Kept m db' := by
  cases hq : db.flushQueue with
  | nil =>
    rw [DB.flush, hq] at heq
    obtain ⟨rfl, rfl⟩ := Prod.mk.inj (Option.some.inj heq)
    exact h
  | cons t q =>
    obtain ⟨db₁, cs₁, heq₁, hf, -⟩ := hg.exists_flush cfg hq
    obtain ⟨rfl, rfl⟩ := Prod.mk.inj (Option.some.inj (heq.symm.trans heq₁))
    refine ⟨h.saved.of_files ?_, ?_⟩
    · intro s hs
      exact hf.files_eq hbound (h.below s hs)
    · intro s hs
      have hle := hf.le_sstId
      have := h.below s hs
      simp only at hle
      omega

/-! ### The invariant -/

namespace Host

/-- The last clean close saved `o` (nothing yet if `none`), and it can still be loaded. -/
def Keeps (o : Option Manifest) (h : Host) : Prop :=
  h.manifest = o.map Manifest.save ∧
  match h.session.phase with
  | .running db => Good db ∧ ∀ m ∈ o, Kept m db
  | .stopping db => Good db ∧ db.memtable.entries = [] ∧ ∀ m ∈ o, Kept m db
  | .closed dir => dir.manifest = o.map Manifest.save ∧ ∀ m ∈ o, Saved False m dir.files

theorem keeps_start (files : Files) : Keeps none (start files) := ⟨rfl, rfl, nofun⟩

theorem Keeps.inv {o : Option Manifest} {h : Host} (hk : Keeps o h) : h.session.Inv False := by
  obtain ⟨⟨phase, created⟩, manifest⟩ := h
  obtain ⟨-, hk⟩ := hk
  cases phase with
  | running db => exact ⟨hk.1, nofun⟩
  | stopping db => exact ⟨hk.1, nofun⟩
  | closed dir =>
    obtain ⟨hm, hs⟩ : dir.manifest = o.map Manifest.save ∧ ∀ m ∈ o, Saved False m dir.files := hk
    cases o with
    | none => exact Or.inl hm
    | some m => exact Or.inr ⟨m, hm, hs m rfl⟩

theorem Kept.open {m : Manifest} {files : Files} {db : DB} (hs : Saved False m files)
    (hdb : DB.open ⟨some m.save, files⟩ = some db) : Kept m db := by
  obtain rfl := Option.some.inj (hs.open_eq.symm.trans hdb)
  exact ⟨hs, hs.le_raiseAll⟩

/-- **Every step but the end of a clean close keeps what the last one saved.** -/
theorem Keeps.step {cfg : DBConfig} {o : Option Manifest} {h t : Host} {a : HostAct}
    (hk : Keeps o h) (ha : a ≠ .act .save) (hid : t.session.sstId < 2 ^ 31)
    (hstep : h.step cfg a = some t) : Keeps o t := by
  have hinv := hk.inv
  obtain ⟨⟨phase, created⟩, manifest⟩ := h
  obtain ⟨hm, hk⟩ := hk
  obtain rfl : manifest = o.map Manifest.save := hm
  cases a with
  | crash =>
    cases phase with
    | running db =>
      obtain rfl := Option.some.inj hstep
      exact ⟨rfl, rfl, fun m hm => (hk.2 m hm).saved⟩
    | stopping db =>
      obtain rfl := Option.some.inj hstep
      exact ⟨rfl, rfl, fun m hm => (hk.2.2 m hm).saved⟩
    | closed dir => cases hstep
  | act a =>
    obtain ⟨t', ht', rfl⟩ := Option.map_eq_some_iff.mp hstep
    have hinv' := hinv.step (fun hf => hf.elim) hid ht'
    cases phase with
    | running db =>
      obtain ⟨hg, hkept⟩ : Good db ∧ ∀ m ∈ o, Kept m db := hk
      cases a with
      | put key value =>
        obtain rfl := Option.some.inj ht'
        exact ⟨rfl, hinv'.1, fun m hm => (hkept m hm).put cfg key value⟩
      | delete key =>
        obtain rfl := Option.some.inj ht'
        exact ⟨rfl, hinv'.1, fun m hm => (hkept m hm).put cfg key tombstoneValue⟩
      | flush =>
        obtain ⟨r, hr, rfl⟩ := Option.map_eq_some_iff.mp ht'
        exact ⟨rfl, hinv'.1, fun m hm => (hkept m hm).flush hg hr hid⟩
      | shutdown =>
        obtain rfl := Option.some.inj ht'
        exact ⟨rfl, hinv'.1, db.handOver_entries, fun m hm => (hkept m hm).handOver⟩
      | save => cases ht'
      | construct => cases ht'
    | stopping db =>
      obtain ⟨hg, hempty, hkept⟩ :
        Good db ∧ db.memtable.entries = [] ∧ ∀ m ∈ o, Kept m db := hk
      cases a with
      | flush =>
        simp only [Session.step] at ht'
        split at ht'
        · cases ht'
        · obtain ⟨r, hr, rfl⟩ := Option.map_eq_some_iff.mp ht'
          refine ⟨rfl, hinv'.1, ?_, fun m hm => (hkept m hm).flush hg hr hid⟩
          rw [hg.memtable_flush hr]
          exact hempty
      | save => exact absurd rfl ha
      | put key value => cases ht'
      | delete key => cases ht'
      | shutdown => cases ht'
      | construct => cases ht'
    | closed dir =>
      obtain ⟨hm, hs⟩ : dir.manifest = o.map Manifest.save ∧ ∀ m ∈ o, Saved False m dir.files := hk
      cases a with
      | construct =>
        obtain ⟨db, hdb, rfl⟩ := Option.map_eq_some_iff.mp ht'
        refine ⟨rfl, hinv'.1, ?_⟩
        intro m hmo
        obtain rfl : o = some m := hmo
        obtain ⟨man, files⟩ := dir
        obtain rfl : man = some m.save := hm
        exact Kept.open (hs m rfl) hdb
      | put key value => cases ht'
      | delete key => cases ht'
      | flush => cases ht'
      | shutdown => cases ht'
      | save => cases ht'

/-- The end of a clean close: what it saves reads as the database that is closed. -/
theorem Keeps.save {cfg : DBConfig} {o : Option Manifest} {h t : Host} (hk : Keeps o h)
    (hstep : h.step cfg (.act .save) = some t) :
    ∃ db, h.session.phase = .stopping db ∧ Keeps (some db.manifest) t ∧
      (∀ k, db.raw k = db.manifest.get k) := by
  obtain ⟨⟨phase, created⟩, manifest⟩ := h
  obtain ⟨t', ht', rfl⟩ := Option.map_eq_some_iff.mp hstep
  cases phase with
  | stopping db =>
    obtain ⟨-, hg, hempty, -⟩ := hk
    simp only [Session.step] at ht'
    split at ht'
    · rename_i hq
      obtain rfl := Option.some.inj ht'
      refine ⟨db, rfl, ⟨rfl, rfl, ?_⟩, ?_⟩
      · intro m hm
        obtain rfl : db.manifest = m := Option.some.inj hm
        refine hg.saved ?_
        exact False.elim
      · intro k
        rw [DB.raw, MemTable.get, hempty, hq]
        rfl
    · cases ht'
  | running db => cases ht'
  | closed dir => cases ht'

theorem exists_keeps {cfg : DBConfig} {files : Files} {as : List HostAct} {s : Host}
    (hr : run (Host.step cfg) (start files) as = some s)
    (hid : StepsOk (Host.step cfg) (IdsFit cfg) (start files) as) : ∃ o, Keeps o s := by
  refine run_invariant (I := fun s => ∃ o, Keeps o s) ⟨none, keeps_start files⟩ ?_ hr hid
  intro h a t ⟨o, hk⟩ hfit hstep
  by_cases ha : a = .act .save
  · obtain ⟨db, -, hk', -⟩ := hk.save (ha ▸ hstep)
    exact ⟨_, hk'⟩
  · exact ⟨o, hk.step ha (hfit.lt hstep) hstep⟩

/-- **A crash rolls back to the last clean close.**  `db` is the database that the clean
close saves; `bs` is whatever happens until the directory is opened the next time, without
another clean close: any number of sessions that crash.  The histories start on a directory
without a manifest and may hold clean closes and crashes. -/
theorem crash_rolls_back (cfg : DBConfig) (files : Files) (as bs : List HostAct) (s t u : Host)
    (hr : run (Host.step cfg) (start files) as = some s)
    (hsave : s.step cfg (.act .save) = some t) (hbs : HostAct.act .save ∉ bs)
    (hr' : run (Host.step cfg) t bs = some u) (dir : Dir) (hdir : u.session.phase = .closed dir)
    (hid : StepsOk (Host.step cfg) (IdsFit cfg) (start files) (as ++ .act .save :: bs)) :
    ∃ db db', s.session.phase = .stopping db ∧ DB.open dir = some db' ∧
      (∀ k, db'.get k = db.get k) ∧
      ∀ sst ∈ db.manifest.ssts, dir.files sst.id = some (sst.table, sst.fileSize) := by
  obtain ⟨hid₁, hid₂⟩ := stepsOk_append.mp hid
  obtain ⟨o, hk⟩ := exists_keeps hr hid₁
  obtain ⟨db, hdb, hk₁, hraw⟩ := hk.save hsave
  have hid₃ := (hid₂ s hr).2 t hsave
  have hk₂ : Keeps (some db.manifest) u := by
    clear hdir hid hid₂
    induction bs using List.reverseRecOn generalizing u with
    | nil =>
      obtain rfl := Option.some.inj hr'
      exact hk₁
    | append_singleton bs a ih =>
      obtain ⟨v, hv, hstep⟩ := run_concat.mp hr'
      obtain ⟨h1, h2⟩ := stepsOk_concat.mp hid₃
      have ha : a ≠ .act .save := by
        rintro rfl
        exact hbs (List.mem_append_right _ List.mem_cons_self)
      exact (ih v (fun hm => hbs (List.mem_append_left _ hm)) hv h1).step ha
        ((h2 v hv).lt hstep) hstep
  obtain ⟨⟨phase, created⟩, manifest⟩ := u
  obtain rfl : phase = .closed dir := hdir
  obtain ⟨-, hm, hs⟩ := hk₂
  obtain ⟨man, dirFiles⟩ := dir
  obtain rfl : man = some db.manifest.save := hm
  obtain ⟨db', hopen, -, -, hraw'⟩ := (hs db.manifest rfl).exists_open
  refine ⟨db, db', hdb, hopen, ?_, (hs db.manifest rfl).stored⟩
  intro k
  rw [DB.get_eq, DB.get_eq, hraw', hraw]

/-- A session that is closed after all but the manifest was written. -/
def sampleClose : List HostAct :=
  [.act .construct, .act (.put [1] [10]), .act (.put [2] [20, 21, 22]), .act .flush,
    .act (.put [3] [30]), .act .shutdown, .act .flush]

/-- Two sessions that crash; the second one writes over a file of the first. -/
def sampleCrashes : List HostAct :=
  [.act .construct, .act (.put [1] [11, 12, 13, 14]), .act .flush, .act (.delete [2]), .crash,
    .act .construct, .act (.put [4] [40, 41, 42, 43]), .act .flush, .crash]

theorem crash_rolls_back_sample :
    ∃ s t u dir db db', run (Host.step ⟨4, plainFileSize fun _ => 152⟩) (start fun _ => none)
        sampleClose = some s ∧
      s.step ⟨4, plainFileSize fun _ => 152⟩ (.act .save) = some t ∧
      run (Host.step ⟨4, plainFileSize fun _ => 152⟩) t sampleCrashes = some u ∧
      u.session.phase = .closed dir ∧ s.session.phase = .stopping db ∧
      DB.open dir = some db' ∧ (∀ k, db'.get k = db.get k) ∧ db.get [1] = some [10] := by
  obtain ⟨db, db', h1, h2, h3, -⟩ := crash_rolls_back ⟨4, plainFileSize fun _ => 152⟩
    (fun _ => none) sampleClose sampleCrashes _ _ _ rfl rfl (by decide) rfl _ rfl (by decide)
  refine ⟨_, _, _, _, db, db', rfl, rfl, rfl, rfl, h1, h2, h3, ?_⟩
  obtain rfl := Phase.stopping.inj h1
  rfl

end Host

end Mokv
