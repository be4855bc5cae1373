import Mokv.LSM.ManifestFile
import Mokv.DB.Refinement

/-!
# Sessions on a data directory

A directory holds the manifest file and the `.sst` files.  A session is a `DB` object on
it: the constructor reads the directory; then puts, deletions and flushes; then the
destructor, which hands over the active memtable, lets the flush thread drain the queue
and saves the manifest.  A history is a run of sessions, one after another.

`Good` is what a session keeps true of its database while the ids stay within `int`:
every table of the manifest is in the file of its id, and no id is above the counter.
The directory that a session leaves gives the next one such a database again
(`Saved.exists_open`).  Lookups need `DB.Valid` besides, which lasts as long as nobody
writes the empty key; the proposition `K` carries that along.
-/

namespace Mokv

open LSM Lib

/-- A data directory. -/
structure Dir where
  manifest : Option Bytes
  files : Files

/-- `DB::DB`: the manifest is loaded, or new, and the counter starts at `max_sst_id()`. -/
def DB.open (dir : Dir) : Option DB :=
  match dir.manifest with
  | none => some (DB.new dir.files)
  | some s =>
    (Manifest.load dir.files s).map fun m => ⟨MemTable.empty, [], m, m.maxSstId, dir.files⟩

/-- The first part of `DB::~DB`: a non-empty memtable goes to the queue. -/
def DB.handOver (db : DB) : DB :=
  if db.memtable.size > 0 then
    { db with memtable := MemTable.empty, flushQueue := db.flushQueue ++ [db.memtable] }
  else db

/-- The last part of `DB::~DB`. -/
def DB.save (db : DB) : Dir := ⟨some db.manifest.save, db.files⟩

/-- Between sessions there is only the directory. -/
inductive Phase where
  | running (db : DB)
  /-- `to_sst_stop_flag_` is set. -/
  | stopping (db : DB)
  | closed (dir : Dir)

/-- A history so far, with all tables written in it. -/
structure Session where
  phase : Phase
  created : List Creation

/-- The steps of a history. -/
inductive Act where
  | put (key value : Bytes)
  | delete (key : Bytes)
  | flush
  | shutdown
  | save
  | construct
deriving DecidableEq

namespace Session

/-- A directory without a manifest; `.sst` files may lie around. -/
def start (files : Files) : Session := ⟨.closed ⟨none, files⟩, []⟩

/-- One step.  A flush runs as a whole, and so does `Manifest::Save`. -/
def step (cfg : DBConfig) (s : Session) (a : Act) : Option Session :=
  match s.phase, a with
  | .running db, .put key value => some { s with phase := .running (db.put cfg key value) }
  | .running db, .delete key => some { s with phase := .running (db.delete cfg key) }
  | .running db, .flush =>
    (db.flush cfg).map fun r => ⟨.running r.1, s.created ++ r.2⟩
  | .running db, .shutdown => some { s with phase := .stopping db.handOver }
  | .stopping db, .flush =>
    if db.flushQueue = [] then none
    else (db.flush cfg).map fun r => ⟨.stopping r.1, s.created ++ r.2⟩
  | .stopping db, .save =>
    if db.flushQueue = [] then some { s with phase := .closed db.save } else none
  | .closed dir, .construct => (DB.open dir).map fun db => { s with phase := .running db }
  | _, _ => none

/-- The counter `sst_id_`. -/
def sstId (s : Session) : Nat :=
  match s.phase with
  | .running db => db.sstId
  | .stopping db => db.sstId
  | .closed _ => 0

end Session

/-- The keys written are not empty. -/
def Act.KeyOk : Act → Prop
  | .put key _ => key ≠ []
  | .delete key => key ≠ []
  | _ => True

instance : DecidablePred Act.KeyOk
  | .put key _ => inferInstanceAs (Decidable (key ≠ []))
  | .delete key => inferInstanceAs (Decidable (key ≠ []))
  | .flush => isTrue trivial
  | .shutdown => isTrue trivial
  | .save => isTrue trivial
  | .construct => isTrue trivial

/-! ### What a session keeps -/

/-- The tables are in their files and the ids are below the counter. -/
structure Good (db : DB) : Prop where
  shaped : db.manifest.Shaped
  queue : ∀ t ∈ db.flushQueue, t.entries ≠ []
  stored : db.manifest.Stored db.files
  ids : ∀ s ∈ db.manifest.ssts, 0 ≤ s.id ∧ s.id ≤ db.sstId
  levels : db.manifest.levels.length ≤ maxLevelSize + 1
  bound : db.sstId < 2 ^ 31

theorem good_new (files : Files) : Good (DB.new files) where
  shaped := (DB.valid_new files).manifest.toShaped
  queue := by simp [DB.new]
  stored := by simp [DB.new, Manifest.new, Manifest.Stored, Manifest.ssts]
  ids := by simp [DB.new, Manifest.new, Manifest.ssts]
  levels := by simp [DB.new, Manifest.new]
  bound := by simp [DB.new]

theorem Good.concat {db : DB} (h : Good db) {t : MemTable} (ht : t.entries ≠ []) (m : MemTable) :
    Good { db with memtable := m, flushQueue := db.flushQueue ++ [t] } := by
  refine ⟨h.shaped, ?_, h.stored, h.ids, h.levels, h.bound⟩
  intro u hu
  rcases List.mem_append.mp hu with hu | hu
  · exact h.queue u hu
  · rw [List.mem_singleton.mp hu]
    exact ht

theorem Good.put {db : DB} (h : Good db) (cfg : DBConfig) (k v : Bytes) :
    Good (db.put cfg k v) := by
  rw [DB.put_eq]
  split
  · exact ⟨h.shaped, h.queue, h.stored, h.ids, h.levels, h.bound⟩
  · exact h.concat (MemTable.put_entries_ne_nil _ _ _) _

theorem DB.entries_ne_nil_of_size {t : MemTable} (h : t.size > 0) : t.entries ≠ [] := by
  rw [t.size_eq] at h
  exact List.length_pos_iff.mp h

theorem Good.handOver {db : DB} (h : Good db) : Good db.handOver := by
  rw [DB.handOver]
  split
  · exact h.concat (DB.entries_ne_nil_of_size ‹_›) _
  · exact h

theorem DB.handOver_entries (db : DB) : db.handOver.memtable.entries = [] := by
  rw [DB.handOver]
  split
  · rfl
  · refine List.length_eq_zero_iff.mp ?_
    rw [← db.memtable.size_eq]
    omega

/-- **Handing over the memtable changes no lookup.** -/
theorem DB.Valid.handOver {db : DB} (h : db.Valid) :
    db.handOver.Valid ∧ ∀ k, db.handOver.raw k = db.raw k := by
  rw [DB.handOver]
  split
  · refine ⟨⟨h.manifest, DB.empty_keys, ?_⟩, ?_⟩
    · intro t ht
      rcases List.mem_append.mp ht with ht | ht
      · exact h.queue t ht
      · rw [List.mem_singleton.mp ht]
        exact ⟨DB.entries_ne_nil_of_size ‹_›, h.memtable⟩
    · intro k
      rw [DB.raw, DB.pendingGet_concat, Option.or_assoc]
      rfl
  · exact ⟨h, fun _ => rfl⟩

theorem Good.stored_insert {db : DB} (h : Good db) {sst : SST}
    (hid : sst.id = (db.sstId + 1 : Nat)) :
    (db.manifest.insertAndUpdate sst).Stored (db.files.write sst) ∧
      ∀ s ∈ (db.manifest.insertAndUpdate sst).ssts, 0 ≤ s.id ∧ s.id ≤ (db.sstId + 1 : Nat) := by
  constructor
  · intro s hs
    rcases h.shaped.mem_ssts_insertAndUpdate.mp hs with rfl | hs
    · exact db.files.write_self s
    · rw [Files.write_ne _ (by have := (h.ids s hs).2; omega)]
      exact h.stored s hs
  · intro s hs
    rcases h.shaped.mem_ssts_insertAndUpdate.mp hs with rfl | hs
    · omega
    · have := h.ids s hs
      omega

theorem length_insertAndUpdate (m : Manifest) (sst : SST) :
    (m.insertAndUpdate sst).levels.length = m.levels.length := by
  rw [Manifest.insertAndUpdate, Manifest.insert]
  cases m.levels <;> rfl

/-- **A flush keeps the tables in their files**, as long as the ids fit. -/
theorem Good.flushed {cfg : DBConfig} {db db' : DB} {t : MemTable} {cs : List Creation}
    (h : Good db) (hf : DB.Flushed cfg db t db' cs) (hbound : db'.sstId < 2 ^ 31) : Good db' := by
  have hshaped := hf.shaped h.shaped
  have hqueue : ∀ u ∈ db'.flushQueue, u.entries ≠ [] := by
    rw [hf.flushQueue_eq]
    exact h.queue
  cases hf with
  | plain hsst hstop =>
    have hid := (SST.of_ofMemTable? hsst).1
    rw [toInt32_natCast hbound] at hid
    obtain ⟨h1, h2⟩ := h.stored_insert hid
    exact ⟨hshaped, hqueue, h1, h2, by rw [length_insertAndUpdate]; exact h.levels, hbound⟩
  | @compacted sst m cs hsst hover heq hc =>
    have hbound' : db.sstId + 2 < 2 ^ 31 := hbound
    have hid := (SST.of_ofMemTable? hsst).1
    rw [toInt32_natCast (by omega)] at hid
    rw [toInt32_natCast hbound'] at hc
    obtain ⟨h1, h2⟩ := h.stored_insert hid
    refine ⟨hshaped, hqueue, hc.stored h1 ?_, ?_, ?_, hbound⟩
    · intro j _ s hs
      have := (h2 s (Manifest.mem_ssts_iff.mpr ⟨j, hs⟩)).2
      omega
    · intro s hs
      rcases hc.mem_ssts hs with ⟨he, -⟩ | hs
      · rw [he]
        exact ⟨by omega, by simp⟩
      · have := h2 s hs
        simp only
        omega
    · exact hc.length_le (by rw [length_insertAndUpdate]; exact h.levels)

theorem Good.exists_flush {db : DB} (h : Good db) (cfg : DBConfig) {t : MemTable}
    {q : List MemTable} (hq : db.flushQueue = t :: q) :
    ∃ db' cs, db.flush cfg = some (db', cs) ∧
      DB.Flushed cfg { db with flushQueue := q } t db' cs ∧ Good { db with flushQueue := q } := by
  have ht : t.entries ≠ [] := h.queue t (by rw [hq]; exact List.mem_cons_self)
  obtain ⟨db', cs, heq, hf⟩ :=
    DB.exists_flushed cfg { db with flushQueue := q } h.shaped ht
  refine ⟨db', cs, by rw [DB.flush, hq]; exact heq, hf, h.shaped, fun u hu => h.queue u ?_,
    h.stored, h.ids, h.levels, h.bound⟩
  rw [hq]
  exact List.mem_cons_of_mem _ hu

theorem Good.flush {db db' : DB} {cs : List Creation} (h : Good db) {cfg : DBConfig}
    (heq : db.flush cfg = some (db', cs)) (hbound : db'.sstId < 2 ^ 31) : Good db' := by
  cases hq : db.flushQueue with
  | nil =>
    rw [DB.flush, hq] at heq
    obtain ⟨rfl, rfl⟩ := Prod.mk.inj (Option.some.inj heq)
    exact h
  | cons t q =>
    obtain ⟨db₁, cs₁, heq₁, hf, hg⟩ := h.exists_flush cfg hq
    obtain ⟨rfl, rfl⟩ := Prod.mk.inj (Option.some.inj (heq.symm.trans heq₁))
    exact hg.flushed hf hbound

/-! ### Between sessions -/

/-- The saved manifest can be loaded again.  `K` stands for "no empty key was written". -/
structure Saved (K : Prop) (m : Manifest) (files : Files) : Prop where
  shaped : m.Shaped
  stored : m.Stored files
  ids : ∀ s ∈ m.ssts, IdOk s
  levels : m.levels.length ≤ maxLevelSize + 1
  wf : K → m.WellFormed

/-- A directory that a session can start on. -/
def GoodDir (K : Prop) (dir : Dir) : Prop :=
  dir.manifest = none ∨ ∃ m : Manifest, dir.manifest = some m.save ∧ Saved K m dir.files

theorem Good.saved {K : Prop} {db : DB} (h : Good db) (hv : K → db.Valid) :
    Saved K db.manifest db.files := by
  refine ⟨h.shaped, h.stored, ?_, h.levels, fun hK => (hv hK).manifest⟩
  intro s hs
  have := h.ids s hs
  have := h.bound
  exact ⟨by omega, by omega⟩

theorem Saved.open_eq {K : Prop} {m : Manifest} {files : Files} (h : Saved K m files) :
    DB.open ⟨some m.save, files⟩ = some ⟨MemTable.empty, [],
      ⟨m.version % 2 ^ 64, m.levels, raiseAll 0 m.ssts⟩, raiseAll 0 m.ssts, files⟩ := by
  have hlen : m.levels.length < 2 ^ 64 := by
    have := h.levels
    have : maxLevelSize = 5 := rfl
    omega
  simp only [DB.open, h.shaped.load_save h.stored h.ids hlen, Option.map_some]

theorem Saved.le_raiseAll {K : Prop} {m : Manifest} {files : Files} (h : Saved K m files) :
    ∀ s ∈ m.ssts, s.id ≤ raiseAll 0 m.ssts := by
  intro s hs
  have := le_raiseAll_of_mem (a := 0) hs
  have := (h.ids s hs).toSizeT_lt.1
  omega

/-- **Opening a directory gives a database that reads as the saved manifest.** -/
theorem Saved.exists_open {K : Prop} {m : Manifest} {files : Files} (h : Saved K m files) :
    ∃ db, DB.open ⟨some m.save, files⟩ = some db ∧ Good db ∧ (K → db.Valid) ∧
      ∀ k, db.raw k = m.get k := by
  have hbound : raiseAll 0 m.ssts < 2 ^ 31 := by
    have := raiseAll_le (a := 0) (n := 2 ^ 31 - 1) (by omega) fun s hs =>
      Nat.le_sub_one_of_lt (h.ids s hs).toSizeT_lt.2
    omega
  refine ⟨_, h.open_eq,
    ⟨⟨h.shaped.nonempty, h.shaped.level_eq⟩, by simp, h.stored,
      fun s hs => ⟨(h.ids s hs).1, h.le_raiseAll s hs⟩, h.levels, hbound⟩,
    fun hK => ⟨⟨⟨h.shaped.nonempty, h.shaped.level_eq⟩, (h.wf hK).keys, (h.wf hK).ascending⟩,
      DB.empty_keys, by simp⟩,
    fun k => rfl⟩

theorem GoodDir.open {K : Prop} {dir : Dir} (h : GoodDir K dir) :
    ∃ db, DB.open dir = some db ∧ Good db ∧ (K → db.Valid) := by
  obtain ⟨man, files⟩ := dir
  rcases h with rfl | ⟨m, rfl, hs⟩
  · exact ⟨_, rfl, good_new files, fun _ => DB.valid_new files⟩
  · obtain ⟨db, h1, h2, h3, -⟩ := hs.exists_open
    exact ⟨db, h1, h2, h3⟩

theorem DB.Valid.flush_eq {db db' : DB} {cs : List Creation} (h : db.Valid) {cfg : DBConfig}
    (heq : db.flush cfg = some (db', cs)) : db'.Valid ∧ ∀ k, db'.raw k = db.raw k := by
  obtain ⟨db₁, cs₁, heq₁, hv, hraw⟩ := h.flush cfg
  obtain ⟨rfl, rfl⟩ := Prod.mk.inj (Option.some.inj (heq.symm.trans heq₁))
  exact ⟨hv, hraw⟩

namespace Session

/-- What holds between the steps of a history. -/
def Inv (K : Prop) (s : Session) : Prop :=
  match s.phase with
  | .running db => Good db ∧ (K → db.Valid)
  | .stopping db => Good db ∧ (K → db.Valid)
  | .closed dir => GoodDir K dir

theorem inv_start (K : Prop) (files : Files) : (start files).Inv K := Or.inl rfl

/-- **A step whose ids fit keeps the invariant.** -/
theorem Inv.step {K : Prop} {cfg : DBConfig} {s t : Session} {a : Act} (h : s.Inv K)
    (ha : K → a.KeyOk) (hid : t.sstId < 2 ^ 31) (hstep : s.step cfg a = some t) : t.Inv K := by
  obtain ⟨phase, created⟩ := s
  cases phase with
  | running db =>
    obtain ⟨hg, hv⟩ : Good db ∧ (K → db.Valid) := h
    cases a with
    | put key value =>
      obtain rfl := Option.some.inj hstep
      exact ⟨hg.put cfg key value, fun hK => (hv hK).put cfg (ha hK) value⟩
    | delete key =>
      obtain rfl := Option.some.inj hstep
      exact ⟨hg.put cfg key tombstoneValue, fun hK => (hv hK).put cfg (ha hK) tombstoneValue⟩
    | flush =>
      obtain ⟨r, hr, rfl⟩ := Option.map_eq_some_iff.mp hstep
      exact ⟨hg.flush hr hid, fun hK => ((hv hK).flush_eq hr).1⟩
    | shutdown =>
      obtain rfl := Option.some.inj hstep
      exact ⟨hg.handOver, fun hK => (hv hK).handOver.1⟩
    | save => cases hstep
    | construct => cases hstep
  | stopping db =>
    obtain ⟨hg, hv⟩ : Good db ∧ (K → db.Valid) := h
    cases a with
    | flush =>
      simp only [Session.step] at hstep
      split at hstep
      · cases hstep
      · obtain ⟨r, hr, rfl⟩ := Option.map_eq_some_iff.mp hstep
        exact ⟨hg.flush hr hid, fun hK => ((hv hK).flush_eq hr).1⟩
    | save =>
      simp only [Session.step] at hstep
      split at hstep
      · obtain rfl := Option.some.inj hstep
        exact Or.inr ⟨db.manifest, rfl, hg.saved hv⟩
      · cases hstep
    | put key value => cases hstep
    | delete key => cases hstep
    | shutdown => cases hstep
    | construct => cases hstep
  | closed dir =>
    cases a with
    | construct =>
      obtain ⟨db, hdb, rfl⟩ := Option.map_eq_some_iff.mp hstep
      obtain ⟨db', hdb', hg⟩ := GoodDir.open h
      obtain rfl := Option.some.inj (hdb.symm.trans hdb')
      exact hg
    | put key value => cases hstep
    | delete key => cases hstep
    | flush => cases hstep
    | shutdown => cases hstep
    | save => cases hstep

end Session

end Mokv
