import Mokv.DB.Durable
import Mokv.LSM.TableFiles

/-!
# The directory in bytes

The `.sst` files as the constructors write them and as `SST::Load` maps them, with a process
that puts, flushes, compacts, closes, crashes and opens the directory again.  A table in the
manifest is a mapping of its file: a lookup goes through the index block and the bloom filter
in those bytes (`Machine.get`), and opening the directory knows nothing but its bytes.

A constructor truncates the file of its id, so there is no next state when a table of the
manifest being modified is mapped from that file (`Images.create`).

A file that a constructor wrote is read back as its table (`Images.Backs.create`).  So a
machine does step by step what the model with tables does (`Machine.Shows.step`), and in every
state of every history the bytes answer with the durable map (`machine_get`).
-/

namespace Mokv

open LSM Lib

/-! ### Files -/

instance : DecidablePred Fresh := fun c =>
  inferInstanceAs (Decidable (∀ s ∈ c.into.ssts, s.id ≠ c.sst.id))

namespace Images

/-- The files as tables, with their sizes. -/
def read (f : CompressionFactory) (images : Images) : Files := fun id => do
  let file ← images id
  let index ← IndexBlockIndex.load f file
  let table ← Table.ofEntries? (index.dataBlockIndexs.flatMap fun b => b.dataBlockIndex.entries)
  some (table, file.length)

/-- A table is written over the file of its id, unless the manifest still maps it.  `n` counts
the tables written. -/
def create (w : Writer) (images : Images) (n : Nat) (c : Creation) : Option Images :=
  if Fresh c then
    (w.write n ((images c.sst.id).getD []) c.sst.entries).map (images.put c.sst.id)
  else none

/-- The tables of a flush. -/
def createAll (w : Writer) : Images → Nat → List Creation → Option Images
  | images, _, [] => some images
  | images, n, c :: cs => (images.create w n c).bind fun images => images.createAll w (n + 1) cs

end Images

/-- `Manifest::Get`, in the files. -/
def LSM.Manifest.getMapped (load : Int → Option IndexBlockIndex) (m : Manifest) (key : Bytes) :
    Option Bytes := m.levels.findSome? fun l => levelGet load l.level (l.ssts.map SST.id) key

/-- `DB::Get`, in the files. -/
def DB.getMapped (load : Int → Option IndexBlockIndex) (db : DB) (key : Bytes) : Option Bytes :=
  match db.memtable.get key with
  | some value => hide value
  | none =>
    match pendingGet db.flushQueue key with
    | some value => hide value
    | none =>
      match db.manifest.getMapped load key with
      | some value => hide value
      | none => none

/-- A file that the table was written to. -/
def Backed (w : Writer) (t : Table) (size : Nat) (file : Bytes) : Prop :=
  file.length = size ∧
    ∃ n, Laid w.factory (w.rand n) t.entries w.compression.isSome file

/-- The tables are in the files.  There may be other files. -/
def Images.Backs (w : Writer) (images : Images) (files : Files) : Prop :=
  ∀ id t size, files id = some (t, size) → ∃ file, images id = some file ∧ Backed w t size file

section

variable {w : Writer} {t : Table} {size : Nat} {file : Bytes}

theorem Backed.loaded (h : Backed w t size file) :
    ∃ index, IndexBlockIndex.load w.factory file = some index ∧ index.Shows t ∧
      (index.dataBlockIndexs.flatMap fun b => b.dataBlockIndex.entries) = t.entries := by
  obtain ⟨-, n, hlaid⟩ := h
  obtain ⟨index, d, _, hload, hshows, hblocks, hholds⟩ := hlaid.shows
  refine ⟨index, hload, hshows, ?_⟩
  rw [hblocks, List.flatMap_singleton]
  exact hholds.entries

theorem Images.Backs.read {images : Images} {files : Files} (h : images.Backs w files) {id : Int}
    (hid : files id = some (t, size)) : images.read w.factory id = some (t, size) := by
  obtain ⟨file, hfile, hb⟩ := h id t size hid
  obtain ⟨index, hload, -, hentries⟩ := hb.loaded
  rw [Images.read, hfile]
  simp only [Option.bind_eq_bind, Option.bind_some]
  rw [hload, Option.bind_some, hentries, Table.ofEntries?_eq t.sorted t.nonempty, hb.1]
  rfl

/-- **The files answer as the tables do.** -/
theorem Images.Backs.getMapped_eq {images : Images} {files : Files} (h : images.Backs w files)
    {db : DB} (hm : db.manifest.Stored files) (k : Bytes) :
    db.getMapped (images.load w.factory) k = db.get k := by
  have hlevel : ∀ l ∈ db.manifest.levels,
      levelGet (images.load w.factory) l.level (l.ssts.map SST.id) k = l.get k := by
    intro l hl
    refine levelGet_eq ?_ k
    intro s hs
    obtain ⟨file, hfile, hb⟩ :=
      h s.id s.table s.fileSize (hm s (List.mem_flatMap.mpr ⟨l, hl, hs⟩))
    obtain ⟨index, hload, hshows, -⟩ := hb.loaded
    refine ⟨index, ?_, hshows⟩
    rw [Images.load, hfile]
    exact hload
  have hmanifest : db.manifest.getMapped (images.load w.factory) k = db.manifest.get k :=
    findSome?_congr hlevel
  rw [DB.getMapped, hmanifest]
  rfl

/-- **A constructor makes the file of its table.** -/
theorem Images.Backs.create {images : Images} {files : Files} (h : images.Backs w files)
    (hw : w.Lossless) {c : Creation} (hc : Fresh c)
    (hsize : c.sst.fileSize = w.fileSize c.sst.entries) (hlt : c.sst.fileSize < 2 ^ 31) (n : Nat) :
    ∃ images', images.create w n c = some images' ∧ images'.Backs w (files.write c.sst) := by
  obtain ⟨file, hwrite, hlaid⟩ := w.exists_laid hw n ((images c.sst.id).getD [])
    c.sst.table.nonempty (by rw [← SST.entries, ← hsize]; exact hlt)
  refine ⟨images.put c.sst.id file, ?_, ?_⟩
  · rw [Images.create, if_pos hc, SST.entries, hwrite]
    rfl
  · intro id t size hid
    by_cases he : id = c.sst.id
    · subst he
      rw [Files.write_self] at hid
      obtain ⟨rfl, rfl⟩ := Prod.mk.inj (Option.some.inj hid)
      refine ⟨file, if_pos rfl, ?_, n, hlaid⟩
      rw [hsize]
      exact w.fileSize_eq c.sst.table.nonempty hwrite
    · rw [Files.write_ne _ he] at hid
      obtain ⟨file', hfile', hb⟩ := h id t size hid
      exact ⟨file', (if_neg he).trans hfile', hb⟩

theorem Images.Backs.createAll {images : Images} {files : Files} (h : images.Backs w files)
    (hw : w.Lossless) {cs : List Creation}
    (hcs : ∀ c ∈ cs, Fresh c ∧ c.sst.fileSize = w.fileSize c.sst.entries ∧ c.sst.fileSize < 2 ^ 31)
    (n : Nat) :
    ∃ images', images.createAll w n cs = some images' ∧ images'.Backs w (files.writeAll cs) := by
  induction cs generalizing images files n with
  | nil => exact ⟨images, rfl, h⟩
  | cons c cs ih =>
    obtain ⟨h1, h2, h3⟩ := hcs c List.mem_cons_self
    obtain ⟨images₁, hcreate, hb⟩ := h.create hw h1 h2 h3 n
    obtain ⟨images', hall, hb'⟩ := ih hb (fun d hd => hcs d (List.mem_cons_of_mem _ hd)) (n + 1)
    refine ⟨images', ?_, hb'⟩
    rw [Images.createAll, hcreate, Option.bind_some, hall]

theorem Images.fresh_of_createAll {images images' : Images} {n : Nat} {cs : List Creation}
    (h : images.createAll w n cs = some images') : ∀ c ∈ cs, Fresh c := by
  induction cs generalizing images n with
  | nil => simp
  | cons c cs ih =>
    obtain ⟨images₁, hcreate, hall⟩ := Option.bind_eq_some_iff.mp h
    intro d hd
    rcases List.mem_cons.mp hd with rfl | hd
    · rw [Images.create] at hcreate
      split at hcreate
      · assumption
      · cases hcreate
    · exact ih hall d hd

end

/-! ### The machine -/

/-- The process. -/
inductive Power where
  | off
  | running (db : DB)
  | stopping (db : DB)

/-- A process and the bytes of its directory; the database has no other files. -/
structure Machine where
  power : Power
  manifest : Option Bytes
  images : Images
  /-- The number of tables written. -/
  written : Nat

/-- The database without its files. -/
def DB.memory (db : DB) : DB := { db with files := fun _ => none }

/-- `DBConfig`. -/
def Writer.config (w : Writer) (memtableMaxSize : Nat) : DBConfig := ⟨memtableMaxSize, w.fileSize⟩

namespace Machine

variable (w : Writer) (memtableMaxSize : Nat)

/-- A directory without a manifest. -/
def start (images : Images) : Machine := ⟨.off, none, images, 0⟩

/-- The database, when there is one. -/
def db? (m : Machine) : Option DB :=
  match m.power with
  | .off => none
  | .running db => some db
  | .stopping db => some db

/-- A flush with its files. -/
def flush (m : Machine) (db : DB) : Option (DB × Images × Nat) := do
  let (db', cs) ← db.flush (w.config memtableMaxSize)
  let images ← m.images.createAll w m.written cs
  some (db'.memory, images, m.written + cs.length)

/-- One step.  A flush runs as a whole, and so does `Manifest::Save`. -/
def step (m : Machine) : HostAct → Option Machine
  | .act (.put key value) =>
    match m.power with
    | .running db =>
      some { m with power := .running (db.put (w.config memtableMaxSize) key value) }
    | _ => none
  | .act (.delete key) =>
    match m.power with
    | .running db => some { m with power := .running (db.delete (w.config memtableMaxSize) key) }
    | _ => none
  | .act .flush =>
    match m.power with
    | .running db =>
      (m.flush w memtableMaxSize db).map fun r =>
        { m with power := .running r.1, images := r.2.1, written := r.2.2 }
    | .stopping db =>
      if db.flushQueue = [] then none
      else
        (m.flush w memtableMaxSize db).map fun r =>
          { m with power := .stopping r.1, images := r.2.1, written := r.2.2 }
    | .off => none
  | .act .shutdown =>
    match m.power with
    | .running db => some { m with power := .stopping db.handOver }
    | _ => none
  | .act .save =>
    match m.power with
    | .stopping db =>
      if db.flushQueue = [] then some { m with power := .off, manifest := some db.manifest.save }
      else none
    | _ => none
  | .act .construct =>
    match m.power with
    | .off =>
      (DB.open ⟨m.manifest, m.images.read w.factory⟩).map fun db =>
        { m with power := .running db.memory }
    | _ => none
  | .crash =>
    match m.power with
    | .off => none
    | _ => some { m with power := .off }

/-- The tables that a step writes. -/
def creations (m : Machine) (a : HostAct) : List Creation :=
  match a with
  | .act .flush =>
    (m.db?.bind fun db => (db.flush (w.config memtableMaxSize)).map Prod.snd).getD []
  | _ => []

/-- The tables that the step writes are below 2 GiB, and the ids within `int`. -/
def Fits (m : Machine) (a : HostAct) : Prop :=
  (∀ c ∈ m.creations w memtableMaxSize a, c.sst.fileSize < 2 ^ 31) ∧
    (m.step w memtableMaxSize a).all fun t => t.db?.all fun db => db.sstId < 2 ^ 31

instance (m : Machine) (a : HostAct) : Decidable (m.Fits w memtableMaxSize a) :=
  inferInstanceAs (Decidable (_ ∧ _ = true))

end Machine

/-! ### The machine does what the model does -/

/-- The files of the host's directory. -/
def Session.files (s : Session) : Files :=
  match s.phase with
  | .running db => db.files
  | .stopping db => db.files
  | .closed dir => dir.files

/-- The process without the files. -/
def Phase.power : Phase → Power
  | .running db => .running db.memory
  | .stopping db => .stopping db.memory
  | .closed _ => .off

/-- The machine is where the host is, and has its tables in its files. -/
structure Machine.Shows (w : Writer) (m : Machine) (h : Host) : Prop where
  power : m.power = h.session.phase.power
  manifest : m.manifest = h.manifest
  backs : m.images.Backs w h.session.files

section

variable {w : Writer} {memtableMaxSize : Nat}

theorem LSM.Cascade.fileSize_eq {fileSize : FileSize} {id : Int} {i : Nat} {m m' : Manifest}
    {cs : List Creation} (h : Cascade fileSize id i m m' cs) :
    ∀ c ∈ cs, c.sst.fileSize = fileSize c.sst.entries := by
  induction h with
  | stop i m => simp
  | turn hi hover heq hm rest ih =>
    intro c hmem
    rcases List.mem_cons.mp hmem with rfl | hmem
    · exact hm.fileSize_eq
    · exact ih c hmem

theorem DB.Flushed.fileSize_eq {cfg : DBConfig} {db db' : DB} {t : MemTable} {cs : List Creation}
    (h : DB.Flushed cfg db t db' cs) : ∀ c ∈ cs, c.sst.fileSize = cfg.fileSize c.sst.entries := by
  have hfirst : ∀ {sst : SST} {id : Int}, SST.ofMemTable? cfg.fileSize t id = some sst →
      sst.fileSize = cfg.fileSize sst.entries := by
    intro sst id hsst
    obtain ⟨-, hentries, hsize⟩ := SST.of_ofMemTable? hsst
    rw [hsize, hentries]
  cases h with
  | plain hsst hstop =>
    intro c hc
    rw [List.mem_singleton.mp hc]
    exact hfirst hsst
  | compacted hsst hover heq hc =>
    intro c hmem
    rcases List.mem_cons.mp hmem with rfl | hmem
    · exact hfirst hsst
    · exact hc.fileSize_eq c hmem

theorem Good.flush_files {cfg : DBConfig} {db db' : DB} {cs : List Creation} (h : Good db)
    (heq : db.flush cfg = some (db', cs)) :
    db'.files = db.files.writeAll cs ∧ ∀ c ∈ cs, c.sst.fileSize = cfg.fileSize c.sst.entries := by
  cases hq : db.flushQueue with
  | nil =>
    rw [DB.flush, hq] at heq
    obtain ⟨rfl, rfl⟩ := Prod.mk.inj (Option.some.inj heq)
    exact ⟨rfl, by simp⟩
  | cons t q =>
    obtain ⟨db₁, cs₁, heq₁, hf, -⟩ := h.exists_flush cfg hq
    obtain ⟨rfl, rfl⟩ := Prod.mk.inj (Option.some.inj (heq.symm.trans heq₁))
    refine ⟨?_, hf.fileSize_eq⟩
    cases hf with
    | plain hsst hstop => rfl
    | compacted hsst hover heq hc => rfl

theorem DB.flush_memory (cfg : DBConfig) (db : DB) :
    db.memory.flush cfg = (db.flush cfg).map fun r =>
      ({ r.1 with files := Files.writeAll (fun _ => none) r.2 }, r.2) := by
  obtain ⟨memtable, flushQueue, manifest, sstId, files⟩ := db
  cases flushQueue with
  | nil => rfl
  | cons t q =>
    rw [DB.memory, DB.flush, DB.flush]
    simp only [DB.toSST]
    cases SST.ofMemTable? cfg.fileSize t (toInt32 (sstId + 1 : Nat)) with
    | none => rfl
    | some sst =>
      simp only [Option.bind_eq_bind, Option.bind_some]
      split
      · cases (manifest.insertAndUpdate sst).sizeTieredCompactionAll cfg.fileSize
          (toInt32 (sstId + 1 + 1 : Nat)) <;> rfl
      · rfl

namespace Machine

theorem flush_eq (m : Machine) (db : DB) :
    m.flush w memtableMaxSize db.memory = (db.flush (w.config memtableMaxSize)).bind fun r =>
      (m.images.createAll w m.written r.2).map fun images =>
        (r.1.memory, images, m.written + r.2.length) := by
  rw [flush, DB.flush_memory]
  cases db.flush (w.config memtableMaxSize) with
  | none => rfl
  | some r =>
    simp only [Option.bind_eq_bind, Option.map_some, Option.bind_some]
    cases m.images.createAll w m.written r.2 <;> rfl

theorem creations_flush {m : Machine} {db : DB} (hdb : m.db? = some db.memory)
    {r : DB × List Creation} (hr : db.flush (w.config memtableMaxSize) = some r) :
    m.creations w memtableMaxSize (.act .flush) = r.2 := by
  rw [creations, hdb, Option.bind_some, DB.flush_memory, hr]
  rfl

theorem flush_backs (hw : w.Lossless) {m : Machine} {db : DB} (hg : Good db)
    (hdb : m.db? = some db.memory) (hb : m.images.Backs w db.files) {r : DB × Images × Nat}
    (hsize : ∀ c ∈ m.creations w memtableMaxSize (.act .flush), c.sst.fileSize < 2 ^ 31)
    (heq : m.flush w memtableMaxSize db.memory = some r) :
    ∃ db' cs, db.flush (w.config memtableMaxSize) = some (db', cs) ∧ r.1 = db'.memory ∧
      r.2.1.Backs w db'.files := by
  rw [flush_eq] at heq
  obtain ⟨⟨db', cs⟩, hflush, heq⟩ := Option.bind_eq_some_iff.mp heq
  obtain ⟨images, hall, rfl⟩ := Option.map_eq_some_iff.mp heq
  rw [creations_flush hdb hflush] at hsize
  obtain ⟨hfiles, hsizes⟩ := hg.flush_files hflush
  have hfresh := Images.fresh_of_createAll hall
  obtain ⟨images', hall', hb'⟩ := hb.createAll hw
    (fun c (hc : c ∈ cs) => ⟨hfresh c hc, hsizes c hc, hsize c hc⟩) m.written
  obtain rfl := Option.some.inj (hall.symm.trans hall')
  refine ⟨db', cs, hflush, rfl, ?_⟩
  rw [hfiles]
  exact hb'

theorem open_memory {images : Images} {files : Files} (hb : images.Backs w files)
    {o : Option Manifest} (hs : ∀ m ∈ o, Saved False m files) :
    ∃ d db, DB.open ⟨o.map Manifest.save, images.read w.factory⟩ = some d ∧
      DB.open ⟨o.map Manifest.save, files⟩ = some db ∧ d.memory = db.memory := by
  cases o with
  | none => exact ⟨_, _, rfl, rfl, rfl⟩
  | some m =>
    have hm := hs m rfl
    have hread : Saved False m (images.read w.factory) := by
      refine ⟨hm.shaped, ?_, hm.ids, hm.levels, hm.wf⟩
      intro s hs
      exact hb.read (hm.stored s hs)
    exact ⟨_, _, hread.open_eq, hm.open_eq, rfl⟩

theorem put_memory (cfg : DBConfig) (db : DB) (k v : Bytes) :
    db.memory.put cfg k v = (db.put cfg k v).memory := by
  rw [DB.put_eq cfg db, DB.put_eq cfg db.memory]
  by_cases h : (db.memtable.put k v).binarySize ≤ cfg.memtableMaxSize
  · rw [if_pos h]
    exact if_pos h
  · rw [if_neg h]
    exact if_neg h

theorem handOver_memory (db : DB) : db.memory.handOver = db.handOver.memory := by
  rw [DB.handOver, DB.handOver]
  by_cases h : db.memtable.size > 0
  · rw [if_pos h]
    exact if_pos h
  · rw [if_neg h]
    exact if_neg h

theorem files_put (cfg : DBConfig) (db : DB) (k v : Bytes) : (db.put cfg k v).files = db.files := by
  rw [DB.put_eq]
  split <;> rfl

theorem files_handOver (db : DB) : db.handOver.files = db.files := by
  rw [DB.handOver]
  split <;> rfl

theorem open_files {man : Option Bytes} {files : Files} {db : DB}
    (h : DB.open ⟨man, files⟩ = some db) : db.files = files := by
  cases man with
  | none =>
    obtain rfl := Option.some.inj h
    rfl
  | some s =>
    obtain ⟨m, -, rfl⟩ := Option.map_eq_some_iff.mp h
    rfl

/-- **The machine does a step of the model.** -/
theorem Shows.step (hw : w.Lossless) {m m' : Machine} {h : Host} (hs : m.Shows w h)
    {o : Option Manifest} (hk : h.Keeps o) {a : HostAct} (hfit : m.Fits w memtableMaxSize a)
    (hstep : m.step w memtableMaxSize a = some m') :
    ∃ h', h.step (w.config memtableMaxSize) a = some h' ∧ m'.Shows w h' := by
  have hgood := hk.inv
  obtain ⟨⟨phase, created⟩, manifest⟩ := h
  obtain ⟨power, mman, images, written⟩ := m
  obtain ⟨hpower, hman, hb⟩ := hs
  obtain rfl : power = phase.power := hpower
  obtain rfl : mman = manifest := hman
  obtain ⟨hsize, -⟩ := hfit
  cases phase with
  | running db =>
    obtain ⟨hg, -⟩ : Good db ∧ (False → db.Valid) := hgood
    replace hb : images.Backs w db.files := hb
    cases a with
    | crash =>
      obtain rfl := Option.some.inj hstep
      exact ⟨_, rfl, rfl, rfl, hb⟩
    | act a =>
      cases a with
      | put key value =>
        obtain rfl := Option.some.inj hstep
        rw [← files_put (w.config memtableMaxSize) db key value] at hb
        exact ⟨_, rfl, congrArg Power.running (put_memory _ db key value), rfl, hb⟩
      | delete key =>
        obtain rfl := Option.some.inj hstep
        rw [← files_put (w.config memtableMaxSize) db key tombstoneValue] at hb
        exact ⟨_, rfl, congrArg Power.running (put_memory _ db key tombstoneValue), rfl, hb⟩
      | flush =>
        obtain ⟨r, hr, rfl⟩ := Option.map_eq_some_iff.mp hstep
        obtain ⟨db', cs, hflush, hmem, hb'⟩ := flush_backs hw hg rfl hb hsize hr
        refine ⟨⟨⟨.running db', created ++ cs⟩, mman⟩, ?_, congrArg Power.running hmem, rfl, hb'⟩
        simp [Host.step, Session.step, hflush, Host.manifestAfter]
      | shutdown =>
        obtain rfl := Option.some.inj hstep
        rw [← files_handOver db] at hb
        exact ⟨_, rfl, congrArg Power.stopping (handOver_memory db), rfl, hb⟩
      | save => cases hstep
      | construct => cases hstep
  | stopping db =>
    obtain ⟨hg, -⟩ : Good db ∧ (False → db.Valid) := hgood
    replace hb : images.Backs w db.files := hb
    cases a with
    | crash =>
      obtain rfl := Option.some.inj hstep
      exact ⟨_, rfl, rfl, rfl, hb⟩
    | act a =>
      cases a with
      | flush =>
        simp only [Machine.step, Phase.power] at hstep
        split at hstep
        · cases hstep
        · obtain ⟨r, hr, rfl⟩ := Option.map_eq_some_iff.mp hstep
          obtain ⟨db', cs, hflush, hmem, hb'⟩ := flush_backs hw hg rfl hb hsize hr
          refine ⟨⟨⟨.stopping db', created ++ cs⟩, mman⟩, ?_, congrArg Power.stopping hmem, rfl,
            hb'⟩
          have hq : db.flushQueue ≠ [] := ‹_›
          simp [Host.step, Session.step, hq, hflush, Host.manifestAfter]
      | save =>
        simp only [Machine.step, Phase.power] at hstep
        split at hstep
        · obtain rfl := Option.some.inj hstep
          have hq : db.flushQueue = [] := ‹_›
          refine ⟨⟨⟨.closed db.save, created⟩, some db.manifest.save⟩, ?_, rfl, rfl, hb⟩
          simp [Host.step, Session.step, hq, Host.manifestAfter, DB.save]
        · cases hstep
      | put key value => cases hstep
      | delete key => cases hstep
      | shutdown => cases hstep
      | construct => cases hstep
  | closed dir =>
    cases a with
    | crash => cases hstep
    | act a =>
      cases a with
      | construct =>
        obtain ⟨d, hd, rfl⟩ := Option.map_eq_some_iff.mp hstep
        obtain ⟨hm, hdir, hsaved⟩ := hk
        obtain ⟨dman, files⟩ := dir
        obtain rfl : dman = o.map Manifest.save := hdir
        obtain rfl : mman = o.map Manifest.save := hm
        replace hb : images.Backs w files := hb
        obtain ⟨d', db, hopen, hopen', hmem⟩ := open_memory hb hsaved
        obtain rfl := Option.some.inj (hd.symm.trans hopen)
        rw [← open_files hopen'] at hb
        refine ⟨⟨⟨.running db, created⟩, o.map Manifest.save⟩, ?_, congrArg Power.running hmem, rfl,
          hb⟩
        simp only [Host.step, Session.step]
        rw [hopen']
        rfl
      | put key value => cases hstep
      | delete key => cases hstep
      | flush => cases hstep
      | shutdown => cases hstep
      | save => cases hstep

theorem Shows.sstId_lt {m : Machine} {h : Host} (hs : m.Shows w h)
    (hlt : m.db?.all fun db => db.sstId < 2 ^ 31) : h.session.sstId < 2 ^ 31 := by
  obtain ⟨⟨phase, created⟩, manifest⟩ := h
  rw [db?, hs.power] at hlt
  cases phase with
  | running db => exact of_decide_eq_true hlt
  | stopping db => exact of_decide_eq_true hlt
  | closed dir => exact Nat.two_pow_pos 31

theorem Shows.exists_db {m : Machine} {h : Host} (hs : m.Shows w h) {d : DB}
    (hd : m.db? = some d) : ∃ db, h.session.db? = some db ∧ d = db.memory ∧
      m.images.Backs w db.files := by
  obtain ⟨⟨phase, created⟩, manifest⟩ := h
  rw [db?, hs.power] at hd
  cases phase with
  | running db => exact ⟨db, rfl, (Option.some.inj hd).symm, hs.backs⟩
  | stopping db => exact ⟨db, rfl, (Option.some.inj hd).symm, hs.backs⟩
  | closed dir => cases hd

/-- **Every history of the machine is one of the model.** -/
theorem exists_shows (hw : w.Lossless) {images : Images} {as : List HostAct} {m : Machine}
    (hr : run (Machine.step w memtableMaxSize) (start images) as = some m)
    (hkey : ∀ a ∈ as, a.KeyOk)
    (hfit : StepsOk (Machine.step w memtableMaxSize) (Fits w memtableMaxSize) (start images) as) :
    ∃ h, m.Shows w h ∧ h.Holds (Contents.after as) := by
  induction as using List.reverseRecOn generalizing m with
  | nil =>
    obtain rfl := Option.some.inj hr
    exact ⟨Host.start fun _ => none, ⟨rfl, rfl, nofun⟩, Host.holds_start _⟩
  | append_singleton as a ih =>
    obtain ⟨u, hu, hstep⟩ := run_concat.mp hr
    obtain ⟨h1, h2⟩ := stepsOk_concat.mp hfit
    obtain ⟨h, hs, hh⟩ := ih hu (fun b hb => hkey b (List.mem_append_left _ hb)) h1
    have hfits := h2 u hu
    obtain ⟨o, hk⟩ : ∃ o, h.Keeps o := hh.imp fun o ho => ho.1
    obtain ⟨h', hstep', hs'⟩ := hs.step hw hk hfits hstep
    refine ⟨h', hs', ?_⟩
    rw [Contents.after_concat]
    refine hh.step (hkey a (List.mem_append_right _ (List.mem_singleton_self a)))
      (hs'.sstId_lt ?_) hstep'
    have hall := hfits.2
    rw [hstep] at hall
    exact hall

theorem exists_flush_of_good {db : DB} (hg : Good db) (cfg : DBConfig) :
    ∃ r, db.flush cfg = some r := by
  cases hq : db.flushQueue with
  | nil =>
    rw [DB.flush, hq]
    exact ⟨_, rfl⟩
  | cons t q =>
    obtain ⟨db', cs, heq, -⟩ := hg.exists_flush cfg hq
    exact ⟨_, heq⟩

theorem exists_good {h : Host} {c : Contents} (hh : h.Holds c) {db : DB}
    (hdb : h.session.db? = some db) : Good db := by
  obtain ⟨o, hk, -⟩ := hh
  have hinv := hk.inv
  obtain ⟨⟨phase, created⟩, manifest⟩ := h
  cases phase with
  | running db' =>
    obtain rfl : db' = db := Option.some.inj hdb
    exact hinv.1
  | stopping db' =>
    obtain rfl : db' = db := Option.some.inj hdb
    exact hinv.1
  | closed dir => cases hdb

theorem getMapped_memory {images : Images} {db : DB} (hb : images.Backs w db.files) (hg : Good db)
    (k : Bytes) : db.memory.getMapped (images.load w.factory) k = (db.raw k).bind DB.hide := by
  have hstored : db.memory.manifest.Stored db.files := hg.stored
  rw [hb.getMapped_eq hstored, ← DB.get_eq]
  rfl

theorem Shows.get_running {m : Machine} {h : Host} (hs : m.Shows w h) {c : Contents}
    (hh : h.Holds c) {d : DB} (hd : m.db? = some d) (k : Bytes) :
    d.getMapped (m.images.load w.factory) k = (c.current k).bind DB.hide := by
  obtain ⟨db, hdb, rfl, hb⟩ := hs.exists_db hd
  rw [getMapped_memory hb (exists_good hh hdb), hh.raw_eq hdb]

theorem Shows.get_off {m : Machine} {h : Host} (hs : m.Shows w h) {c : Contents}
    (hh : h.Holds c) (hoff : m.db? = none) :
    ∃ d, DB.open ⟨m.manifest, m.images.read w.factory⟩ = some d ∧ ∀ k,
      d.getMapped (m.images.load w.factory) k = (c.current k).bind DB.hide := by
  obtain ⟨o, hk, hreads, hphase⟩ := hh
  have hinv := hk.inv
  obtain ⟨⟨phase, created⟩, manifest⟩ := h
  obtain ⟨hpower, hman, hb⟩ := hs
  rw [db?, hpower] at hoff
  cases phase with
  | running db => cases hoff
  | stopping db => cases hoff
  | closed dir =>
    obtain ⟨hm, hdir, hsaved⟩ := hk
    obtain ⟨dman, files⟩ := dir
    obtain rfl : dman = o.map Manifest.save := hdir
    obtain rfl : manifest = o.map Manifest.save := hm
    replace hb : m.images.Backs w files := hb
    obtain ⟨d, db, hd, hdb, hmem⟩ := open_memory hb hsaved
    obtain ⟨db₁, hdb₁, hg, -⟩ := GoodDir.open hinv
    obtain ⟨db₂, hdb₂, -, hraw⟩ := Host.exists_open hreads hsaved
    obtain rfl := Option.some.inj (hdb.symm.trans hdb₁)
    obtain rfl := Option.some.inj (hdb.symm.trans hdb₂)
    rw [← open_files hdb] at hb
    rw [hman]
    refine ⟨d, hd, ?_⟩
    intro k
    have hget := getMapped_memory hb hg k
    rw [← hmem, hraw, ← hphase k] at hget
    exact hget

/-- A flush of a running database fails only where it would write over a table in use. -/
theorem Shows.exists_flush (hw : w.Lossless) {m : Machine} {h : Host} (hs : m.Shows w h)
    {c : Contents} (hh : h.Holds c) {d : DB} (hd : m.db? = some d) :
    ∃ r, d.flush (w.config memtableMaxSize) = some r ∧
      ((∀ c ∈ r.2, Fresh c ∧ c.sst.fileSize < 2 ^ 31) →
        ∃ r', m.flush w memtableMaxSize d = some r') := by
  obtain ⟨db, hdb, rfl, hb⟩ := hs.exists_db hd
  have hg := exists_good hh hdb
  obtain ⟨⟨db', cs⟩, hflush⟩ := exists_flush_of_good hg (w.config memtableMaxSize)
  refine ⟨({ db' with files := Files.writeAll (fun _ => none) cs }, cs), ?_, ?_⟩
  · rw [DB.flush_memory, hflush]
    rfl
  · intro hcs
    have hsizes := (hg.flush_files hflush).2
    obtain ⟨images, hall, -⟩ := hb.createAll hw
      (fun c (hc : c ∈ cs) => ⟨(hcs c hc).1, hsizes c hc, (hcs c hc).2⟩) m.written
    rw [flush_eq, hflush, Option.bind_some, hall]
    exact ⟨_, rfl⟩

end Machine

end

/-- Tables are compressed if their content is known. -/
def sampleWriter : Writer where
  factory := ⟨longValueCompressor, longValueCompressor⟩
  compression := some ⟨.lz4, true, 64⟩
  rand _ i := i.toUInt64

/-- A session that is closed, one that crashes after a flush, and a third one. -/
def sampleOnDisk : List HostAct :=
  [.act .construct, .act (.put [97] (List.replicate 100 120)), .act .flush, .act .shutdown,
    .act .save, .act .construct, .act (.put [97] (List.replicate 50 0)),
    .act (.put [98] (List.replicate 50 0)), .act .flush, .crash, .act .construct,
    .act (.put [99] [10])]

end Mokv
