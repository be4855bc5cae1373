import Mokv.DB.Session

/-!
# Ids of the files being written

Writing an SST truncates and overwrites the file of its id, through a mapping that the
tables in use share.  So no table of the manifest being modified should carry that id.
`++sst_id_` gives a flush an id that no table has, and the cascade another one; but a
cascade uses its id for every level it compacts, so the second turn writes over the
output of the first, which is its own input.

`Good.flush_fresh_iff`: with ids left, a flush creates fresh files only, exactly when its
cascade stops after level 0.  `created_fresh` is the same along whole histories.
-/

namespace Mokv

open LSM Lib

/-- No table of the manifest being modified carries the id. -/
def Fresh (c : Creation) : Prop := ∀ s ∈ c.into.ssts, s.id ≠ c.sst.id

/-- The next flush compacts level 0 and finds level 1 over its limit after that. -/
def DB.secondTurn (cfg : DBConfig) (db : DB) : Bool := db.flushQueue.head?.any (db.secondTurnOf cfg)

theorem compactFrom_of_over {fileSize : FileSize} {id : Int} {n i : Nat} {m m₁ : Manifest} {N : SST}
    (hover : m.overLimit i = true) (heq : m.sizeTieredCompaction fileSize i id = some (m₁, N)) :
    compactFrom fileSize id (n + 1) i m =
      (compactFrom fileSize id n (i + 1) m₁).map fun r => (r.1, ⟨m, N⟩ :: r.2) := by
  rw [compactFrom, if_pos hover, heq]
  simp only [Option.bind_eq_bind, Option.bind_some]
  cases compactFrom fileSize id n (i + 1) m₁ <;> rfl

/-- **A cascade under a new id writes fresh files exactly when it stops after level 0.**
The second turn writes under the id of the table it is about to merge. -/
theorem cascade_fresh_iff {fileSize : FileSize} {id : Int} {m m' : Manifest} {cs : List Creation}
    (h : m.Shaped) (hover : m.overLimit 0 = true) (hnew : ∀ s ∈ m.ssts, s.id ≠ id)
    (hall : m.sizeTieredCompactionAll fileSize id = some (m', cs)) :
    (∀ c ∈ cs, Fresh c) ↔
      ((m.sizeTieredCompaction fileSize 0 id).any fun r => r.1.overLimit 1) = false := by
  obtain ⟨l, hl, hne⟩ := Manifest.exists_of_over hover
  obtain ⟨m₁, N, heq, hm⟩ := h.exists_moved fileSize hl hne id
  have hturn : Fresh ⟨m, N⟩ := by
    intro s hs
    change s.id ≠ N.id
    rw [hm.id_eq]
    exact hnew s hs
  have hall' : compactFrom fileSize id 5 0 m = some (m', cs) := hall
  rw [compactFrom_of_over hover heq] at hall'
  rw [heq, Option.any_some]
  cases hover₁ : m₁.overLimit 1 with
  | false =>
    rw [compactFrom, hover₁] at hall'
    obtain ⟨-, rfl⟩ := Prod.mk.inj (Option.some.inj hall')
    refine iff_of_true (?_) rfl
    intro c hc
    rw [List.mem_singleton.mp hc]
    exact hturn
  | true =>
    obtain ⟨l₁, hl₁, hne₁⟩ := Manifest.exists_of_over hover₁
    obtain ⟨m₂, N₂, heq₂, hm₂⟩ := hm.shaped.exists_moved fileSize hl₁ hne₁ id
    rw [compactFrom_of_over hover₁ heq₂, Option.map_map] at hall'
    obtain ⟨r, -, hr⟩ := Option.map_eq_some_iff.mp hall'
    obtain ⟨-, rfl⟩ := Prod.mk.inj hr
    refine iff_of_false (?_) (by simp)
    intro hfresh
    have hbad := hfresh ⟨m₁, N₂⟩ (List.mem_cons_of_mem _ List.mem_cons_self) N
      (Manifest.mem_ssts_iff.mpr ⟨1, hm.new_mem⟩)
    exact hbad (hm.id_eq.trans hm₂.id_eq.symm)

/-- **A flush with ids left writes fresh files exactly when its cascade stops after
level 0.** -/
theorem Good.flush_fresh_iff {cfg : DBConfig} {db db' : DB} {cs : List Creation} (h : Good db)
    (hid : db.sstId + 2 < 2 ^ 31) (heq : db.flush cfg = some (db', cs)) :
    (∀ c ∈ cs, Fresh c) ↔ db.secondTurn cfg = false := by
  cases hq : db.flushQueue with
  | nil =>
    rw [DB.flush, hq] at heq
    obtain ⟨rfl, rfl⟩ := Prod.mk.inj (Option.some.inj heq)
    simp [DB.secondTurn, hq]
  | cons t q =>
    obtain ⟨db₁, cs₁, heq₁, hf, hg⟩ := h.exists_flush cfg hq
    obtain ⟨rfl, rfl⟩ := Prod.mk.inj (Option.some.inj (heq.symm.trans heq₁))
    have hfirst : ∀ sst : SST, sst.id = (db.sstId + 1 : Nat) → Fresh ⟨db.manifest, sst⟩ := by
      intro sst hsst s hs
      have := (h.ids s hs).2
      change s.id ≠ sst.id
      omega
    have hsecond : ∀ sst, SST.ofMemTable? cfg.fileSize t (toInt32 (db.sstId + 1 : Nat)) = some sst →
        sst.id = (db.sstId + 1 : Nat) ∧ db.secondTurn cfg =
          ((db.manifest.insertAndUpdate sst).overLimit 0 &&
            ((db.manifest.insertAndUpdate sst).sizeTieredCompaction cfg.fileSize 0
              (toInt32 (db.sstId + 2 : Nat))).any fun r => r.1.overLimit 1) := by
      intro sst hsst
      refine ⟨?_, by
        simp only [DB.secondTurn, hq, List.head?_cons, Option.any_some, DB.secondTurnOf, hsst]⟩
      rw [(SST.of_ofMemTable? hsst).1, toInt32_natCast (by omega)]
    cases hf with
    | @plain sst hsst hstop =>
      obtain ⟨hid₁, hturn⟩ := hsecond sst hsst
      have hstop' : (db.manifest.insertAndUpdate sst).overLimit 0 = false := hstop
      rw [hturn, hstop', Bool.false_and]
      refine iff_of_true (?_) rfl
      intro c hc
      rw [List.mem_singleton.mp hc]
      exact hfirst sst hid₁
    | @compacted sst m cs hsst hover hall hc =>
      obtain ⟨hid₁, hturn⟩ := hsecond sst hsst
      have hover' : (db.manifest.insertAndUpdate sst).overLimit 0 = true := hover
      rw [hturn, hover', Bool.true_and]
      refine Iff.trans ?_ (cascade_fresh_iff (h.shaped.insertAndUpdate sst) hover' (?_) hall)
      · simp only [List.forall_mem_cons]
        exact and_iff_right (hfirst sst hid₁)
      · intro s hs
        have := ((h.stored_insert hid₁).2 s hs).2
        rw [toInt32_natCast hid]
        omega

theorem DB.Flushed.sstId_le {cfg : DBConfig} {db db' : DB} {t : MemTable} {cs : List Creation}
    (h : Flushed cfg db t db' cs) : db'.sstId ≤ db.sstId + 2 := by
  cases h with
  | plain hsst hstop => simp
  | compacted hsst hover heq hc => simp

theorem Good.sstId_flush {cfg : DBConfig} {db : DB} {r : DB × List Creation} (h : Good db)
    (heq : db.flush cfg = some r) : r.1.sstId ≤ db.sstId + 2 := by
  cases hq : db.flushQueue with
  | nil =>
    rw [DB.flush, hq] at heq
    obtain rfl := Option.some.inj heq
    exact Nat.le_add_right _ _
  | cons t q =>
    obtain ⟨db₁, cs₁, heq₁, hf, -⟩ := h.exists_flush cfg hq
    obtain rfl := Option.some.inj (heq.symm.trans heq₁)
    exact hf.sstId_le

namespace Session

/-- The database of a running or stopping session. -/
def db? (s : Session) : Option DB :=
  match s.phase with
  | .running db => some db
  | .stopping db => some db
  | .closed _ => none

/-- A flush has ids left and its cascade stops after level 0. -/
def FlushOk (cfg : DBConfig) (s : Session) : Act → Prop
  | .flush => s.db?.all fun db => db.sstId + 2 < 2 ^ 31 && !db.secondTurn cfg
  | _ => True

instance (cfg : DBConfig) (s : Session) : DecidablePred (FlushOk cfg s)
  | .flush => inferInstanceAs (Decidable (_ = true))
  | .put _ _ => isTrue trivial
  | .delete _ => isTrue trivial
  | .shutdown => isTrue trivial
  | .save => isTrue trivial
  | .construct => isTrue trivial

theorem Inv.sstId_lt {K : Prop} {s : Session} (h : s.Inv K) : s.sstId < 2 ^ 31 := by
  obtain ⟨phase, created⟩ := s
  cases phase with
  | running db => exact h.1.bound
  | stopping db => exact h.1.bound
  | closed dir => exact Nat.two_pow_pos 31

theorem created_step {K : Prop} {cfg : DBConfig} {s t : Session} {a : Act} (h : s.Inv K)
    (ha : FlushOk cfg s a) (hstep : s.step cfg a = some t) :
    t.sstId < 2 ^ 31 ∧ ∀ c ∈ t.created, c ∈ s.created ∨ Fresh c := by
  obtain ⟨phase, created⟩ := s
  have hflush : ∀ db, Good db → (db.sstId + 2 < 2 ^ 31 && !db.secondTurn cfg) = true →
      ∀ r, db.flush cfg = some r → r.1.sstId < 2 ^ 31 ∧ ∀ c ∈ r.2, Fresh c := by
    intro db hg hok r hr
    simp only [Bool.and_eq_true, decide_eq_true_eq, Bool.not_eq_true'] at hok
    refine ⟨?_, (hg.flush_fresh_iff hok.1 hr).mpr hok.2⟩
    have := hg.sstId_flush hr
    omega
  have hput : ∀ (db : DB) (k v : Bytes), (db.put cfg k v).sstId = db.sstId := by
    intro db k v
    rw [DB.put_eq]
    split <;> rfl
  cases phase with
  | running db =>
    obtain ⟨hg, -⟩ : Good db ∧ (K → db.Valid) := h
    cases a with
    | put key value =>
      obtain rfl := Option.some.inj hstep
      refine ⟨?_, fun c hc => Or.inl hc⟩
      change (db.put cfg key value).sstId < 2 ^ 31
      rw [hput]
      exact hg.bound
    | delete key =>
      obtain rfl := Option.some.inj hstep
      refine ⟨?_, fun c hc => Or.inl hc⟩
      change (db.put cfg key tombstoneValue).sstId < 2 ^ 31
      rw [hput]
      exact hg.bound
    | flush =>
      obtain ⟨r, hr, rfl⟩ := Option.map_eq_some_iff.mp hstep
      obtain ⟨h1, h2⟩ := hflush db hg (by simpa [FlushOk, db?] using ha) r hr
      exact ⟨h1, fun c hc => (List.mem_append.mp hc).imp_right (h2 c)⟩
    | shutdown =>
      obtain rfl := Option.some.inj hstep
      exact ⟨hg.handOver.bound, fun c hc => Or.inl hc⟩
    | save => cases hstep
    | construct => cases hstep
  | stopping db =>
    obtain ⟨hg, -⟩ : Good db ∧ (K → db.Valid) := h
    cases a with
    | flush =>
      simp only [Session.step] at hstep
      split at hstep
      · cases hstep
      · obtain ⟨r, hr, rfl⟩ := Option.map_eq_some_iff.mp hstep
        obtain ⟨h1, h2⟩ := hflush db hg (by simpa [FlushOk, db?] using ha) r hr
        exact ⟨h1, fun c hc => (List.mem_append.mp hc).imp_right (h2 c)⟩
    | save =>
      simp only [Session.step] at hstep
      split at hstep
      · obtain rfl := Option.some.inj hstep
        exact ⟨by simp [sstId], fun c hc => Or.inl hc⟩
      · cases hstep
    | put key value => cases hstep
    | delete key => cases hstep
    | shutdown => cases hstep
    | construct => cases hstep
  | closed dir =>
    cases a with
    | construct =>
      obtain ⟨db, hdb, rfl⟩ := Option.map_eq_some_iff.mp hstep
      obtain ⟨db', hdb', hg, -⟩ := GoodDir.open h
      obtain rfl := Option.some.inj (hdb.symm.trans hdb')
      exact ⟨hg.bound, fun c hc => Or.inl hc⟩
    | put key value => cases hstep
    | delete key => cases hstep
    | flush => cases hstep
    | shutdown => cases hstep
    | save => cases hstep

/-- **No file in use is rewritten, as long as no cascade passes level 0.**  In a history
whose flushes all stop there and have ids left, every table was written under an id that
no table of the manifest being modified carried.  The next flush keeps it so exactly
when its own cascade stops after level 0. -/
theorem created_fresh (cfg : DBConfig) (files : Files) (as : List Act) (s : Session)
    (hr : run (step cfg) (start files) as = some s)
    (hok : StepsOk (step cfg) (FlushOk cfg) (start files) as) :
    (∀ c ∈ s.created, Fresh c) ∧
      ∀ db, s.db? = some db → db.sstId + 2 < 2 ^ 31 → ∀ db' cs, db.flush cfg = some (db', cs) →
        ((∀ c ∈ cs, Fresh c) ↔ db.secondTurn cfg = false) := by
  obtain ⟨hinv, hfresh⟩ : s.Inv False ∧ ∀ c ∈ s.created, Fresh c := by
    refine run_invariant (I := fun s => Inv False s ∧ ∀ c ∈ s.created, Fresh c)
      ⟨inv_start False files, by simp [start]⟩ (?_) hr hok
    intro u a t hu ha hstep
    obtain ⟨hi, hc⟩ := hu
    obtain ⟨h1, h2⟩ := created_step hi ha hstep
    exact ⟨hi.step False.elim h1 hstep, fun c hmem => (h2 c hmem).elim (hc c) id⟩
  refine ⟨hfresh, ?_⟩
  intro db hdb hid db' cs heq
  obtain ⟨phase, created⟩ := s
  cases phase with
  | running db₁ =>
    obtain rfl : db₁ = db := Option.some.inj hdb
    exact hinv.1.flush_fresh_iff hid heq
  | stopping db₁ =>
    obtain rfl : db₁ = db := Option.some.inj hdb
    exact hinv.1.flush_fresh_iff hid heq
  | closed dir => cases hdb

/-- A restart between two flushes. -/
def sampleSessions : List Act :=
  [.construct, .put [1] [10], .put [2] [20, 21, 22], .flush, .delete [1], .shutdown, .flush, .save,
    .construct, .put [3] [30, 31, 32, 33], .flush]

theorem created_fresh_sample :
    ∃ s, run (step ⟨4, plainFileSize fun _ => 152⟩) (start fun _ => none) sampleSessions = some s ∧
      s.created.length = 3 ∧ (∀ c ∈ s.created, Fresh c) ∧
      ∀ db, s.db? = some db → db.sstId + 2 < 2 ^ 31 →
        ∀ db' cs, db.flush ⟨4, plainFileSize fun _ => 152⟩ = some (db', cs) →
          ((∀ c ∈ cs, Fresh c) ↔ db.secondTurn ⟨4, plainFileSize fun _ => 152⟩ = false) :=
  ⟨_, rfl, rfl, created_fresh ⟨4, plainFileSize fun _ => 152⟩ (fun _ => none) sampleSessions _ rfl
    (by decide)⟩

end Session

/-! ### One large value -/

theorem merge_single (t : Table) {e : Entry} (ht : t.entries = [e]) :
    merge (starts 0 [t]) = [e] := by
  obtain ⟨l, hs, hn⟩ := t
  obtain rfl : l = [e] := ht
  rfl

theorem over_one_of_single {fileSize : FileSize} {sst : SST} {e : Entry} {version maxSstId : Nat}
    (hent : sst.entries = [e]) (hsize : levelMaxBinarySize 1 < fileSize [e]) (id : Int) :
    ((Manifest.mk version [⟨0, [sst]⟩] maxSstId).sizeTieredCompaction fileSize 0 id).any
      (fun r => r.1.overLimit 1) = true := by
  have hsplit : (Manifest.mk version [⟨0, [sst]⟩] maxSstId).ensureNext 0 =
      [] ++ ⟨0, [sst]⟩ :: ⟨1, []⟩ :: [] := rfl
  obtain ⟨N, -, hfs, hentN, heq⟩ := sizeTieredCompaction_eq fileSize rfl (by simp) hsplit rfl id
  obtain ⟨ts, hts, hqueue⟩ := select_queue [sst] []
  obtain rfl : ts = [] := List.eq_nil_iff_forall_not_mem.mpr fun s hs => by simpa using hts s hs
  have hN : N.entries = [e] := by
    rw [hentN, hqueue]
    exact merge_single sst.table hent
  have hlevel : respliced [sst] [] N = [N] := by simp [respliced]
  rw [heq, Option.any_some]
  simp only [Manifest.overLimit, hlevel]
  simpa [Level.binarySize, hfs, hN] using hsize

theorem secondTurn_of_large {cfg : DBConfig} {db : DB} {t : MemTable} {e : Entry}
    (hm : db.manifest = Manifest.new) (hq : db.flushQueue = [t]) (ht : t.entries = [e])
    (hsize : levelMaxBinarySize 1 < cfg.fileSize [e]) : db.secondTurn cfg = true := by
  have h0 : levelMaxBinarySize 0 < cfg.fileSize [e] := Nat.lt_trans (by decide) hsize
  obtain ⟨sst, hsst⟩ := SST.exists_ofMemTable? cfg.fileSize (m := t) (by rw [ht]; simp)
    (toInt32 (db.sstId + 1 : Nat))
  obtain ⟨-, hent, hfs⟩ := SST.of_ofMemTable? hsst
  rw [ht] at hent hfs
  have hover : (Manifest.new.insertAndUpdate sst).overLimit 0 = true := by
    simpa [Manifest.overLimit, Manifest.new, Manifest.insertAndUpdate, Manifest.insert,
      Level.binarySize, hfs] using h0
  simp only [DB.secondTurn, hq, List.head?_cons, Option.any_some, DB.secondTurnOf, hsst, hm, hover,
    Bool.true_and]
  exact over_one_of_single hent hsize _

/-- The default memtable limit, without compression. -/
def plainConfig : DBConfig := ⟨4096 * 1024 - 1024 * 1024, plainFileSize fun _ => 152⟩

theorem put_large {v : Bytes} (hv : 3145728 ≤ v.length) (hv' : v.length < 2 ^ 63) :
    (DB.new fun _ => none).put plainConfig [1] v =
      ⟨MemTable.empty, [MemTable.empty.put [1] v], Manifest.new, 0, fun _ => none⟩ := by
  have hsize := (MemTable.empty.put [1] v).binarySize_eq
  rw [MemTable.entries_put, show Lib.put [1] v MemTable.empty.entries = [([1], v)] from rfl,
    payload_cons, payload_nil, List.length_singleton] at hsize
  dsimp only at hsize
  rw [DB.put_eq, if_neg]
  · rfl
  · change ¬ (MemTable.empty.put [1] v).binarySize ≤ 4096 * 1024 - 1024 * 1024
    omega

theorem rewrites_of_large {v : Bytes} (hv : 10485760 ≤ v.length) (hv' : v.length < 2 ^ 63) :
    ∃ s, run (Session.step plainConfig) (Session.start fun _ => none)
        [.construct, .put [1] v, .flush] = some s ∧
      ∃ c ∈ s.created, ∃ t ∈ c.into.ssts, t.id = c.sst.id := by
  have hput := put_large (by omega) hv'
  have hg := (good_new fun _ => none).put plainConfig [1] v
  rw [hput] at hg
  obtain ⟨db', cs, hflush, -⟩ := hg.exists_flush plainConfig rfl
  have hsize : levelMaxBinarySize 1 < plainConfig.fileSize [([1], v)] := by
    have hfile : plainFileSize (fun _ => 152) [([1], v)] =
        32 + 1 + (8 + (1 + v.length + 0) + 16 + 152 + 8) := rfl
    change 10 * 1024 * 1024 < plainFileSize (fun _ => 152) [([1], v)]
    omega
  have hturn : DB.secondTurn plainConfig
      ⟨MemTable.empty, [MemTable.empty.put [1] v], Manifest.new, 0, fun _ => none⟩ = true :=
    secondTurn_of_large rfl rfl (MemTable.entries_put _ _ _) hsize
  have hid : (0 : Nat) + 2 < 2 ^ 31 := by decide
  have hbad := (hg.flush_fresh_iff hid hflush).not.mpr (by rw [hturn]; simp)
  refine ⟨⟨.running db', cs⟩, ?_, ?_⟩
  · rw [run_cons, show Session.step plainConfig (Session.start fun _ => none) .construct =
      some ⟨.running (DB.new fun _ => none), []⟩ from rfl, Option.bind_some, run_cons,
      show Session.step plainConfig ⟨.running (DB.new fun _ => none), []⟩ (.put [1] v) =
        some ⟨.running ((DB.new fun _ => none).put plainConfig [1] v), []⟩ from rfl,
      Option.bind_some, hput, run_cons]
    simp only [Session.step, hflush]
    rfl
  · simpa [Fresh] using hbad

/-- A value of eleven million bytes. -/
def largeValue : Bytes := List.replicate 11000000 0

/-- **The file of a compaction's own input is rewritten.** -/
theorem large_put_rewrites :
    ∃ s, run (Session.step plainConfig) (Session.start fun _ => none)
        [.construct, .put [1] largeValue, .flush] = some s ∧
      ∃ c ∈ s.created, ∃ t ∈ c.into.ssts, t.id = c.sst.id := by
  have hlen : largeValue.length = 11000000 := by rw [largeValue, List.length_replicate]
  exact rewrites_of_large (by omega) (by omega)
end Mokv
