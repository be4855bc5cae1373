import Mokv.DB.Durable
import Mokv.KVStore.Reopen
import Mokv.KVStore.Threads

/-!
# The key-value store as a durable map

A `DBKVStore` on a data directory, over any number of processes.  A process opens the
database and reads the index (`DBKVStore(DBConfig)`), runs programs over the operations of
the interface, and closes or crashes.  A `Put` or a `Delete` is two writes of the database,
the entry and the index; the flush thread may run and the process may crash between them.

`KVHost.Inv` says that what a process has is the current copy of a map, and what the files
hold its durable copy (`DurableMap`).  It is kept by every step (`KVHost.Inv.step`); so the
store answers as the map does, with the listings and the counters (`kvstore_durable`).
-/

namespace Mokv

open Lib DBKVStore

/-! ### Programs that keep away from some keys -/

namespace Prog

variable {α β : Type} {P : Bytes → Prop}

/-- The keys that the program puts are in `P`. -/
def PutsOnly (P : Bytes → Prop) : Prog α → Prop
  | .pure _ => True
  | .get _ next => ∀ r, (next r).PutsOnly P
  | .put key _ next => P key ∧ ∀ r, (next r).PutsOnly P
  | .delete _ next => ∀ r, (next r).PutsOnly P
  | .listKeysByPrefix _ next => ∀ keys, (next keys).PutsOnly P
  | .listEntriesByPrefix _ next => ∀ es, (next es).PutsOnly P

theorem PutsOnly.bind {p : Prog α} {f : α → Prog β} (h : p.PutsOnly P)
    (hf : ∀ a, (f a).PutsOnly P) : (p >>= f).PutsOnly P := by
  show (p.bind f).PutsOnly P
  induction p with
  | pure a => exact hf a
  | get key next ih => exact fun r => ih r (h r)
  | put key value next ih => exact ⟨h.1, fun r => ih r (h.2 r)⟩
  | delete key next ih => exact fun r => ih r (h r)
  | listKeysByPrefix pre next ih => exact fun keys => ih keys (h keys)
  | listEntriesByPrefix pre next ih => exact fun es => ih es (h es)

theorem putsOnly_batch {es : List Entry} (h : ∀ e ∈ es, P e.1) : (batch es).PutsOnly P := by
  induction es with
  | nil => trivial
  | cons e es ih =>
    refine ⟨h e List.mem_cons_self, ?_⟩
    intro r
    show (if r.success then batch es else _).PutsOnly P
    split
    · exact ih fun e' he' => h e' (List.mem_cons_of_mem _ he')
    · trivial

theorem putsOnly_batchDelete (keys : List Bytes) : (batchDelete keys).PutsOnly P := by
  induction keys with
  | nil => trivial
  | cons key keys ih =>
    intro r
    show (if r.success then batchDelete keys else _).PutsOnly P
    split
    · exact ih
    · trivial

end Prog

/-! ### The durable map -/

/-- What the store is for: a map, and what is left of it after a crash. -/
structure DurableMap where
  current : KVMap
  saved : KVMap

/-- What happens to a store on a directory.  A call is one of the programs `κ`. -/
inductive KVAct (κ : Type) where
  | call (c : κ)
  | operate
  | note
  | flush
  | shutdown
  | save
  | construct
  | crash
deriving DecidableEq

namespace DurableMap

variable {κ : Type} (prog : κ → Prog KVResult)

def start : DurableMap := ⟨KVMap.empty, KVMap.empty⟩

def step (d : DurableMap) : KVAct κ → DurableMap
  | .call c => { d with current := ((prog c).run d.current).2 }
  | .save => { d with saved := d.current }
  | .crash => { d with current := d.saved }
  | _ => d

/-- The map after a history. -/
def after (as : List (KVAct κ)) : DurableMap := as.foldl (step prog) start

theorem after_concat (as : List (KVAct κ)) (a : KVAct κ) :
    after prog (as ++ [a]) = (after prog as).step prog a := by
  rw [after, List.foldl_append]
  rfl

end DurableMap

/-! ### The store on a directory -/

/-- A process on a directory, with what `DBKVStore` keeps beside the database: the change
that is written and not yet noted, and the rest of the program that runs. -/
structure KVHost where
  host : Host
  knownKeys : List Bytes
  trackedBytesSize : Nat
  change : Option Change
  rest : Prog KVResult

namespace DBKVStore.Change

/-- The write of the entry. -/
def act : Change → Act
  | put key value _ => .put key value
  | delete key _ => .delete key

theorem act_ne_flush (c : Change) : c.act ≠ .flush := by
  cases c <;> simp [act]

end DBKVStore.Change

namespace KVHost

def start (files : LSM.Files) : KVHost := ⟨Host.start files, [], 0, none, .pure .ok⟩

/-- The store of a running process. -/
def store? (s : KVHost) : Option DBKVStore :=
  match s.host.session.phase with
  | .running db => some ⟨db, s.knownKeys, s.trackedBytesSize, false⟩
  | _ => none

/-- No program runs. -/
def Quiet (s : KVHost) : Prop := s.change = none ∧ s.rest.result.isSome

instance (s : KVHost) : Decidable s.Quiet := inferInstanceAs (Decidable (_ ∧ _))

/-- The process takes a step of its own. -/
def withHost (cfg : DBConfig) (s : KVHost) (a : HostAct) : Option KVHost :=
  (s.host.step cfg a).map fun h => { s with host := h }

/-- `db_->Put` or `db_->Delete`. -/
def write (cfg : DBConfig) (s : KVHost) (c : Change) (rest : Prog KVResult) : Option KVHost :=
  (s.host.step cfg (.act c.act)).map fun h =>
    { s with host := h, change := some c, rest := rest }

/-- The next operation of the program, of `Put` and `Delete` the part before
`metadata_mutex_`. -/
def operate (cfg : DBConfig) (s : KVHost) (store : DBKVStore) : Option KVHost :=
  match s.rest with
  | .pure _ => none
  | .get key next => some { s with rest := next (store.get key) }
  | .put key value next =>
    match store.refusal key with
    | some result => some { s with rest := next result }
    | none => s.write cfg (.put key value (store.get key)) (next .ok)
  | .delete key next =>
    match store.refusal key with
    | some result => some { s with rest := next result }
    | none =>
      match store.get key with
      | none => some { s with rest := next .ok }
      | some previous => s.write cfg (.delete key previous) (next .ok)
  | .listKeysByPrefix pre next => some { s with rest := next (store.listKeysByPrefix pre) }
  | .listEntriesByPrefix pre next => some { s with rest := next (store.listEntriesByPrefix pre) }

/-- The section under `metadata_mutex_`, with the write of the index. -/
def note (cfg : DBConfig) (s : KVHost) (store : DBKVStore) (c : Change) : Option KVHost :=
  let t := c.note cfg store
  (s.host.step cfg (.act (.put kMetaKeyIndex (serializeKeys t.knownKeys)))).map fun h =>
    ⟨h, t.knownKeys, t.trackedBytesSize, none, s.rest⟩

/-- The constructor, on what the constructor of `DB` finds. -/
def construct (cfg : DBConfig) (s : KVHost) : Option KVHost :=
  (s.host.step cfg (.act .construct)).bind fun h =>
    h.session.db?.map fun db =>
      ⟨h, (ofDB db).knownKeys, (ofDB db).trackedBytesSize, none, .pure .ok⟩

variable {κ : Type} (prog : κ → Prog KVResult)

/-- One step.  No crash falls inside `Manifest::Save`. -/
def step (cfg : DBConfig) (s : KVHost) : KVAct κ → Option KVHost
  | .call c => if s.Quiet then s.store?.map fun _ => { s with rest := prog c } else none
  | .operate => if s.change = none then s.store?.bind (s.operate cfg) else none
  | .note => s.store?.bind fun store => s.change.bind (s.note cfg store)
  | .flush => s.withHost cfg (.act .flush)
  | .shutdown => if s.Quiet then s.withHost cfg (.act .shutdown) else none
  | .save => s.withHost cfg (.act .save)
  | .construct => s.construct cfg
  | .crash => s.withHost cfg .crash

/-- A flush has ids left and its cascade stops after level 0. -/
def FlushOk (cfg : DBConfig) (s : KVHost) : KVAct κ → Prop
  | .flush => s.host.session.FlushOk cfg .flush
  | _ => True

instance (cfg : DBConfig) (s : KVHost) : DecidablePred (s.FlushOk (κ := κ) cfg)
  | .call _ => isTrue trivial
  | .operate => isTrue trivial
  | .note => isTrue trivial
  | .flush => inferInstanceAs (Decidable (s.host.session.FlushOk cfg .flush))
  | .shutdown => isTrue trivial
  | .save => isTrue trivial
  | .construct => isTrue trivial
  | .crash => isTrue trivial

end KVHost

/-! ### Reopening -/

namespace DBKVStore

section

variable {s t : DBKVStore} {db : DB} {m : KVMap}

theorem insertionSort_eq_of_perm {l l' : List Bytes} (h : l.Perm l') :
    l.insertionSort (· ≤ ·) = l'.insertionSort (· ≤ ·) :=
  ((List.perm_insertionSort _ l).trans
    (h.trans (List.perm_insertionSort _ l').symm)).eq_of_pairwise'
    (List.pairwise_insertionSort _ l) (List.pairwise_insertionSort _ l')

theorem Ledger.of_perm (h : Ledger [] s) (hget : ∀ k, t.db.get k = s.db.get k)
    (hperm : t.knownKeys.Perm s.knownKeys) (hbytes : t.trackedBytesSize = s.trackedBytesSize)
    (hclosed : t.closed = false) : Ledger [] t := by
  have h' := h.of_get_eq hget
  refine ⟨hclosed, by simp, hperm.nodup_iff.mpr h.nodup, ?_, ?_, by simp [lastOn_nil], ?_, ?_, ?_⟩
  · exact fun k hk => h.key k (hperm.mem_iff.mp hk)
  · intro k hk hl
    rw [hperm.mem_iff]
    exact h'.settled k hk hl
  · rw [hbytes]
    exact h.fits
  · intro keys hc
    rw [hbytes]
    exact h'.bytes keys ⟨hc.key, hc.mem⟩
  · rcases h'.index with hi | ⟨habs, hknown⟩
    · refine Or.inl ?_
      rw [Indexed, serializeKeys, insertionSort_eq_of_perm hperm]
      exact hi
    · refine Or.inr ⟨habs, List.Perm.eq_nil ?_⟩
      rw [← (show s.knownKeys = [] from hknown)]
      exact hperm

theorem db_ofDB (db : DB) : (ofDB db).db = db ∧ (ofDB db).closed = false := by
  unfold ofDB loadKeyIndex
  split <;> exact ⟨rfl, rfl⟩

/-- **The books of a store that is opened again are right.** -/
theorem Ledger.ofDB (h : Ledger [] s) (he : s.get [] = none) (hget : ∀ k, db.get k = s.db.get k) :
    Ledger [] (ofDB db) := by
  obtain ⟨-, hbytes⟩ := (h.restores_iff hget).mpr he
  obtain ⟨hdb, hclosed⟩ := db_ofDB db
  refine h.of_perm (by rw [hdb]; exact hget) ?_ hbytes hclosed
  rcases h.index with hi | ⟨habs, hknown⟩
  · have hkeys := (ofDB_of_indexed hi hget).1
    rw [listKeys] at hkeys
    rw [hkeys]
    exact h.perm_of_get_nil he
  · rw [ofDB_of_absent habs hget, hknown]

theorem Agrees.ofDB (h : Agrees s m) (he : m.get [] = none) (hget : ∀ k, db.get k = s.db.get k) :
    Agrees (ofDB db) m := by
  have hnil : s.get [] = none := by
    rw [← h.get_eq (by decide)]
    exact he
  have hl := h.ledger.ofDB hnil hget
  refine ⟨hl, ?_⟩
  intro k
  rw [h.get, DBKVStore.get_eq hl.healthy, DBKVStore.get_eq h.ledger.healthy, (db_ofDB db).1, hget]

end

end DBKVStore

/-! ### The phases of the process -/

namespace Host

variable {cfg : DBConfig} {h t : Host} {db : DB}

theorem phase_write {c : Change} (hdb : h.session.phase = .running db)
    (hstep : h.step cfg (.act c.act) = some t) :
    t.session.phase = .running (db.put cfg c.key c.stored) := by
  obtain ⟨⟨phase, created⟩, manifest⟩ := h
  obtain rfl : phase = .running db := hdb
  cases c <;>
    · obtain rfl := Option.some.inj hstep
      rfl

theorem phase_put {key value : Bytes} (hdb : h.session.phase = .running db)
    (hstep : h.step cfg (.act (.put key value)) = some t) :
    t.session.phase = .running (db.put cfg key value) :=
  phase_write (c := .put key value none) hdb hstep

theorem phase_flush (hstep : h.step cfg (.act .flush) = some t) :
    (∃ db db', h.session.phase = .running db ∧ t.session.phase = .running db') ∨
      ∃ db db', h.session.phase = .stopping db ∧ t.session.phase = .stopping db' := by
  obtain ⟨⟨phase, created⟩, manifest⟩ := h
  obtain ⟨u, hu, rfl⟩ := Option.map_eq_some_iff.mp hstep
  cases phase with
  | running db =>
    obtain ⟨r, -, rfl⟩ := Option.map_eq_some_iff.mp hu
    exact Or.inl ⟨db, r.1, rfl, rfl⟩
  | stopping db =>
    simp only [Session.step] at hu
    split at hu
    · cases hu
    · obtain ⟨r, -, rfl⟩ := Option.map_eq_some_iff.mp hu
      exact Or.inr ⟨db, r.1, rfl, rfl⟩
  | closed dir => cases hu

theorem phase_shutdown (hstep : h.step cfg (.act .shutdown) = some t) :
    ∃ db, h.session.phase = .running db ∧ t.session.phase = .stopping db.handOver := by
  obtain ⟨⟨phase, created⟩, manifest⟩ := h
  obtain ⟨u, hu, rfl⟩ := Option.map_eq_some_iff.mp hstep
  cases phase with
  | running db =>
    obtain rfl := Option.some.inj hu
    exact ⟨db, rfl, rfl⟩
  | stopping db => cases hu
  | closed dir => cases hu

theorem phase_save (hstep : h.step cfg (.act .save) = some t) :
    ∃ db dir, h.session.phase = .stopping db ∧ t.session.phase = .closed dir := by
  obtain ⟨⟨phase, created⟩, manifest⟩ := h
  obtain ⟨u, hu, rfl⟩ := Option.map_eq_some_iff.mp hstep
  cases phase with
  | running db => cases hu
  | stopping db =>
    simp only [Session.step] at hu
    split at hu
    · obtain rfl := Option.some.inj hu
      exact ⟨db, db.save, rfl, rfl⟩
    · cases hu
  | closed dir => cases hu

theorem phase_construct (hstep : h.step cfg (.act .construct) = some t) :
    ∃ dir db, h.session.phase = .closed dir ∧ t.session.phase = .running db := by
  obtain ⟨⟨phase, created⟩, manifest⟩ := h
  obtain ⟨u, hu, rfl⟩ := Option.map_eq_some_iff.mp hstep
  cases phase with
  | running db => cases hu
  | stopping db => cases hu
  | closed dir =>
    obtain ⟨db, -, rfl⟩ := Option.map_eq_some_iff.mp hu
    exact ⟨dir, db, rfl, rfl⟩

theorem phase_crash (hstep : h.step cfg .crash = some t) :
    ∃ dir, t.session.phase = .closed dir := by
  obtain ⟨⟨phase, created⟩, manifest⟩ := h
  cases phase with
  | running db =>
    obtain rfl := Option.some.inj hstep
    exact ⟨_, rfl⟩
  | stopping db =>
    obtain rfl := Option.some.inj hstep
    exact ⟨_, rfl⟩
  | closed dir => cases hstep

end Host

/-! ### The invariant -/

namespace KVHost

theorem store?_eq_some {s : KVHost} {store : DBKVStore} (h : s.store? = some store) :
    s.host.session.phase = .running store.db ∧
      store = ⟨store.db, s.knownKeys, s.trackedBytesSize, false⟩ := by
  rw [store?] at h
  split at h
  · obtain rfl := Option.some.inj h
    exact ⟨‹_›, rfl⟩
  · cases h

theorem store?_of_phase {s : KVHost} {db : DB} (h : s.host.session.phase = .running db) :
    s.store? = some ⟨db, s.knownKeys, s.trackedBytesSize, false⟩ := by
  rw [store?, h]

/-- A database that reads as `f` is opened as a store that has the map. -/
def Stands (f : Bytes → Option Bytes) (m : KVMap) : Prop :=
  m.get [] = none ∧ ∃ t : DBKVStore, Agrees t m ∧ ∀ k, t.db.get k = (f k).bind DB.hide

/-- The process has the map `m`, in the middle of a program. -/
structure Runs (m : KVMap) (s : KVHost) (store : DBKVStore) : Prop where
  ledger : Ledger s.change.toList store
  get : ∀ k, m.get k = if isReservedKey k then none else store.get k
  nil : m.get [] = none
  allowed : s.rest.Allowed
  putsOnly : s.rest.PutsOnly (· ≠ [])

/-- What a process has, and what the files hold. -/
structure Inv (c : Contents) (d : DurableMap) (s : KVHost) : Prop where
  holds : s.host.Holds c
  saved : Stands c.saved d.saved
  running : ∀ store, s.store? = some store → ∃ m, Runs m s store ∧ (s.rest.run m).2 = d.current
  stopping : ∀ db, s.host.session.phase = .stopping db → Stands c.current d.current
  closed : ∀ dir, s.host.session.phase = .closed dir → d.current = d.saved

theorem stands_empty : Stands (fun _ => none) KVMap.empty := by
  refine ⟨rfl, ofDB (DB.new fun _ => none), ⟨ledger_new _, ?_⟩, ?_⟩
  · intro k
    have hget : (ofDB (DB.new fun _ => none)).get k = none := by
      rw [DBKVStore.get_eq (ledger_new _).healthy]
      exact get_new _ k
    rw [hget, ite_self]
    rfl
  · intro k
    exact get_new _ k

theorem inv_start (files : LSM.Files) : Inv Contents.start DurableMap.start (start files) := by
  refine ⟨Host.holds_start files, stands_empty, ?_, ?_, fun _ _ => rfl⟩
  · rintro store ⟨⟩
  · rintro db ⟨⟩

section

variable {m m' : KVMap} {s t : KVHost} {store : DBKVStore} {cfg : DBConfig}

theorem Runs.agrees (h : Runs m s store) (hs : s.change = none) : Agrees store m := by
  have hl := h.ledger
  rw [hs] at hl
  exact ⟨hl, h.get⟩

theorem Runs.of_get_eq (h : Runs m s store) {db : DB} {host : Host}
    (hget : ∀ k, db.get k = store.db.get k) :
    Runs m { s with host := host } { store with db := db } := by
  have hl := h.ledger.of_get_eq hget
  refine ⟨hl, ?_, h.nil, h.allowed, h.putsOnly⟩
  intro k
  rw [h.get, DBKVStore.get_eq hl.healthy, hget, DBKVStore.get_eq h.ledger.healthy]

/-- **The write of an entry** makes the change. -/
theorem Runs.write (h : Runs m s store) (hs : s.store? = some store) (hnone : s.change = none)
    {c : Change} (hc : c.Ok) (hbefore : c.before = store.db.get c.key)
    (hm : ∀ j, m'.get j = if j = c.key then c.after else m.get j) (hnil : m'.get [] = none)
    {rest : Prog KVResult} (hrest : rest.Allowed ∧ rest.PutsOnly (· ≠ []))
    (hstep : s.write cfg c rest = some t) :
    t.store? = some (c.commit cfg store) ∧ t.rest = rest ∧ Runs m' t (c.commit cfg store) := by
  obtain ⟨host, hhost, rfl⟩ := Option.map_eq_some_iff.mp hstep
  obtain ⟨hphase, heq⟩ := store?_eq_some hs
  have ha := h.agrees hnone
  have hl : Ledger [c] (c.commit cfg store) := ha.ledger.commit cfg hc (by rw [hbefore])
  refine ⟨?_, rfl, hl, ?_, hnil, hrest.1, hrest.2⟩
  · rw [store?_of_phase (Host.phase_write hphase hhost), Change.commit, heq]
  · intro k
    rw [hm, h.get, DBKVStore.get_eq hl.healthy, c.get_commit cfg store hc,
      DBKVStore.get_eq ha.ledger.healthy]
    by_cases hk : k = c.key
    · rw [if_pos hk, if_pos hk, hk, hc.key]
      rfl
    · rw [if_neg hk, if_neg hk]

/-- **The section under `metadata_mutex_`** brings the books up to date. -/
theorem Runs.note (h : Runs m s store) (hs : s.store? = some store) {c : Change}
    (hchange : s.change = some c) (hstep : s.note cfg store c = some t) :
    t.store? = some (c.note cfg store) ∧ t.rest = s.rest ∧ Runs m t (c.note cfg store) := by
  obtain ⟨host, hhost, rfl⟩ := Option.map_eq_some_iff.mp hstep
  obtain ⟨hphase, heq⟩ := store?_eq_some hs
  have hl := h.ledger
  rw [hchange] at hl
  have hl' : Ledger [] (c.note cfg store) := Ledger.note (a := []) (b := []) hl cfg (by simp)
  refine ⟨?_, rfl, hl', ?_, h.nil, h.allowed, h.putsOnly⟩
  · have hclosed := hl'.healthy
    rw [store?_of_phase (Host.phase_put hphase hhost), ← hclosed]
    cases c <;> rfl
  · intro k
    rw [h.get, DBKVStore.get_eq hl'.healthy, DBKVStore.get_eq hl.healthy]
    cases hk : isReservedKey k with
    | true => rfl
    | false => rw [c.get_note_of_not_reserved cfg store hk]

/-- What an operation does to the database: nothing, or the write of an entry. -/
def Writes (cfg : DBConfig) (h h' : Host) : Prop :=
  h' = h ∨ ∃ c : Change, c.key ≠ [] ∧ h.step cfg (.act c.act) = some h'

/-- **One operation of the program** is the operation of the map. -/
theorem Runs.operate (h : Runs m s store) (hs : s.store? = some store) (hnone : s.change = none)
    (hstep : s.operate cfg store = some t) :
    Writes cfg s.host t.host ∧ ∃ store' m', t.store? = some store' ∧ Runs m' t store' ∧
      t.rest.run m' = s.rest.run m := by
  obtain ⟨host, knownKeys, trackedBytesSize, change, rest⟩ := s
  obtain rfl : change = none := hnone
  have ha := h.agrees rfl
  have hallowed := h.allowed
  have hputs := h.putsOnly
  have hl := h.ledger
  have hrefuse : ∀ {key}, isReservedKey key = false → store.refusal key = none := by
    intro key hk
    rw [refusal_eq ha.ledger.healthy, hk]
    rfl
  cases rest with
  | pure a => cases hstep
  | get key next =>
    obtain rfl := Option.some.inj hstep
    refine ⟨Or.inl rfl, store, m, hs, ⟨hl, h.get, h.nil, hallowed.2 _, hputs _⟩, ?_⟩
    rw [Prog.run, ha.get_eq hallowed.1]
  | put key value next =>
    simp only [KVHost.operate, hrefuse hallowed.1] at hstep
    have hget : store.get key = store.db.get key := DBKVStore.get_eq ha.ledger.healthy key
    have hkey : key ≠ [] := hputs.1
    have hnil : (m.put key value).get [] = none := by
      rw [m.get_put, if_neg hkey.symm]
      exact h.nil
    obtain ⟨hstore, hrest, hruns⟩ := h.write hs rfl (c := .put key value (store.get key))
      ⟨hallowed.1, fun he => hallowed.2.1 (Option.some.inj he)⟩ hget (m.get_put key value) hnil
      ⟨hallowed.2.2 _, hputs.2 _⟩ hstep
    obtain ⟨host', hhost, rfl⟩ := Option.map_eq_some_iff.mp hstep
    exact ⟨Or.inr ⟨.put key value (store.get key), hkey, hhost⟩, _, _, hstore, hruns, rfl⟩
  | delete key next =>
    simp only [KVHost.operate, hrefuse hallowed.1] at hstep
    have hget : store.get key = store.db.get key := DBKVStore.get_eq ha.ledger.healthy key
    cases hg : store.get key with
    | none =>
      simp only [hg] at hstep
      obtain rfl := Option.some.inj hstep
      have hm : m.get key = none := by rw [ha.get_eq hallowed.1, hg]
      refine ⟨Or.inl rfl, store, m.delete key, hs, ⟨hl, ?_, ?_, hallowed.2 _, hputs _⟩, rfl⟩
      · intro k
        rw [m.get_delete, ← h.get]
        split
        · rw [‹k = key›, hm]
        · rfl
      · rw [m.get_delete, h.nil, ite_self]
    | some previous =>
      simp only [hg] at hstep
      have hkey : key ≠ [] := by
        rintro rfl
        rw [← ha.get_eq (by decide), h.nil] at hg
        cases hg
      have hnil : (m.delete key).get [] = none := by rw [m.get_delete, h.nil, ite_self]
      obtain ⟨hstore, hrest, hruns⟩ := h.write hs rfl (c := .delete key previous)
        ⟨hallowed.1, by simp [Change.after]⟩ (hg.symm.trans hget) (m.get_delete key) hnil
        ⟨hallowed.2 _, hputs _⟩ hstep
      obtain ⟨host', hhost, rfl⟩ := Option.map_eq_some_iff.mp hstep
      exact ⟨Or.inr ⟨.delete key previous, hkey, hhost⟩, _, _, hstore, hruns, rfl⟩
  | listKeysByPrefix pre next =>
    obtain rfl := Option.some.inj hstep
    have hkeys : ∀ k ∈ store.listKeysByPrefix pre, isReservedKey k = false := by
      intro k hk
      rw [DBKVStore.listKeysByPrefix, List.mem_insertionSort] at hk
      exact ha.ledger.key k (List.mem_of_mem_filter hk)
    refine ⟨Or.inl rfl, store, m, hs, ⟨hl, h.get, h.nil, hallowed _ hkeys, hputs _⟩, ?_⟩
    rw [Prog.run, ha.listKeysByPrefix]
  | listEntriesByPrefix pre next =>
    obtain rfl := Option.some.inj hstep
    refine ⟨Or.inl rfl, store, m, hs, ⟨hl, h.get, h.nil, hallowed _, hputs _⟩, ?_⟩
    rw [Prog.run, ha.listEntriesByPrefix]

theorem Inv.get_eq {c : Contents} {d : DurableMap} (h : Inv c d s) {db : DB}
    (hdb : s.host.session.db? = some db) (k : Bytes) : db.get k = (c.current k).bind DB.hide := by
  rw [DB.get_eq, h.holds.raw_eq hdb]

theorem db?_of_store? (hs : s.store? = some store) : s.host.session.db? = some store.db := by
  rw [Session.db?, (store?_eq_some hs).1]

variable {c : Contents} {d : DurableMap}

/-- Of a running process only the map it has matters. -/
theorem inv_of_runs (hc : s.host.Holds c) (hsaved : Stands c.saved d.saved)
    (hs : s.store? = some store) (hruns : Runs m s store)
    (hrun : (s.rest.run m).2 = d.current) : Inv c d s := by
  have hphase := (store?_eq_some hs).1
  refine ⟨hc, hsaved, ?_, ?_, ?_⟩
  · intro store' hs'
    obtain rfl : store = store' := Option.some.inj (hs.symm.trans hs')
    exact ⟨m, hruns, hrun⟩
  · intro db hdb
    rw [hphase] at hdb
    cases hdb
  · intro dir hdir
    rw [hphase] at hdir
    cases hdir

/-! One lemma for each kind of step. -/

theorem Inv.call (h : Inv c d s) (hs : s.store? = some store) (hq : s.Quiet)
    {p : Prog KVResult} (hp : p.Allowed ∧ p.PutsOnly (· ≠ [])) :
    Inv c { d with current := (p.run d.current).2 } { s with rest := p } := by
  obtain ⟨m, hruns, hrun⟩ := h.running store hs
  obtain ⟨a, ha⟩ := Option.isSome_iff_exists.mp hq.2
  rw [Prog.eq_pure_of_result ha] at hrun
  obtain rfl : m = d.current := hrun
  have hs' : ({ s with rest := p } : KVHost).store? = some store := hs
  exact inv_of_runs h.holds h.saved hs'
    ⟨hruns.ledger, hruns.get, hruns.nil, hp.1, hp.2⟩ rfl

theorem Inv.operate (h : Inv c d s) (hs : s.store? = some store) (hnone : s.change = none)
    (hid : t.host.session.sstId < 2 ^ 31) (hstep : s.operate cfg store = some t) :
    ∃ c', Inv c' d t := by
  obtain ⟨m, hruns, hrun⟩ := h.running store hs
  obtain ⟨hw, store', m', hs', hruns', hrun'⟩ := hruns.operate hs hnone hstep
  have hlast : (t.rest.run m').2 = d.current := by rw [hrun', hrun]
  rcases hw with heq | ⟨ch, hkey, hhost⟩
  · exact ⟨c, inv_of_runs (by rw [heq]; exact h.holds) h.saved hs' hruns' hlast⟩
  · have hok : (HostAct.act ch.act).KeyOk := by cases ch <;> exact hkey
    have hholds := h.holds.step hok hid hhost
    have hsaved : (c.step (.act ch.act)).saved = c.saved := by cases ch <;> rfl
    exact ⟨_, inv_of_runs hholds (by rw [hsaved]; exact h.saved) hs' hruns' hlast⟩

theorem Inv.note (h : Inv c d s) (hs : s.store? = some store) {ch : Change}
    (hchange : s.change = some ch) (hid : t.host.session.sstId < 2 ^ 31)
    (hstep : s.note cfg store ch = some t) : ∃ c', Inv c' d t := by
  obtain ⟨m, hruns, hrun⟩ := h.running store hs
  obtain ⟨hs', hrest, hruns'⟩ := hruns.note hs hchange hstep
  obtain ⟨host, hhost, rfl⟩ := Option.map_eq_some_iff.mp hstep
  have hkey : kMetaKeyIndex ≠ [] := by decide
  have hholds := h.holds.step (show (HostAct.act (.put kMetaKeyIndex _)).KeyOk from hkey) hid hhost
  exact ⟨_, inv_of_runs hholds h.saved hs' hruns' hrun⟩

theorem Inv.flush (h : Inv c d s) (hid : t.host.session.sstId < 2 ^ 31)
    (hstep : s.withHost cfg (.act .flush) = some t) : Inv c d t := by
  obtain ⟨host, hhost, rfl⟩ := Option.map_eq_some_iff.mp hstep
  have hholds := h.holds.step (a := .act .flush) trivial hid hhost
  rcases Host.phase_flush hhost with ⟨db, db', hdb, hdb'⟩ | ⟨db, db', hdb, hdb'⟩
  · have hs := store?_of_phase hdb
    have hs' := store?_of_phase (s := { s with host := host }) hdb'
    obtain ⟨m, hruns, hrun⟩ := h.running _ hs
    refine inv_of_runs hholds h.saved hs' (hruns.of_get_eq ?_) hrun
    intro k
    have hnew : db'.raw k = c.current k := hholds.raw_eq (db?_of_store? hs') k
    rw [DB.get_eq, hnew]
    exact (h.get_eq (db?_of_store? hs) k).symm
  · refine ⟨hholds, h.saved, ?_, fun _ _ => h.stopping db hdb, ?_⟩
    · intro store hs
      have hphase := (store?_eq_some hs).1
      rw [hdb'] at hphase
      cases hphase
    · intro dir hdir
      rw [show host.session.phase = _ from hdb'] at hdir
      cases hdir

theorem Inv.shutdown (h : Inv c d s) (hq : s.Quiet) (hid : t.host.session.sstId < 2 ^ 31)
    (hstep : s.withHost cfg (.act .shutdown) = some t) : Inv c d t := by
  obtain ⟨host, hhost, rfl⟩ := Option.map_eq_some_iff.mp hstep
  have hholds := h.holds.step (a := .act .shutdown) trivial hid hhost
  obtain ⟨db, hdb, hdb'⟩ := Host.phase_shutdown hhost
  have hs := store?_of_phase hdb
  obtain ⟨m, hruns, hrun⟩ := h.running _ hs
  obtain ⟨a, ha⟩ := Option.isSome_iff_exists.mp hq.2
  rw [Prog.eq_pure_of_result ha] at hrun
  obtain rfl : m = d.current := hrun
  refine ⟨hholds, h.saved, ?_, ?_, ?_⟩
  · intro store hs
    have hphase := (store?_eq_some hs).1
    rw [hdb'] at hphase
    cases hphase
  · intro db' _
    exact ⟨hruns.nil, _, hruns.agrees hq.1, fun k => h.get_eq (db?_of_store? hs) k⟩
  · intro dir hdir
    rw [show host.session.phase = _ from hdb'] at hdir
    cases hdir

theorem Inv.save (h : Inv c d s) (hid : t.host.session.sstId < 2 ^ 31)
    (hstep : s.withHost cfg (.act .save) = some t) :
    Inv (c.step (.act .save)) { d with saved := d.current } t := by
  obtain ⟨host, hhost, rfl⟩ := Option.map_eq_some_iff.mp hstep
  have hholds := h.holds.step (a := .act .save) trivial hid hhost
  obtain ⟨db, dir, hdb, hdir⟩ := Host.phase_save hhost
  refine ⟨hholds, h.stopping db hdb, ?_, ?_, fun _ _ => rfl⟩
  · intro store hs
    have hphase := (store?_eq_some hs).1
    rw [hdir] at hphase
    cases hphase
  · intro db' hdb'
    rw [show host.session.phase = _ from hdir] at hdb'
    cases hdb'

theorem Inv.crash (h : Inv c d s) (hid : t.host.session.sstId < 2 ^ 31)
    (hstep : s.withHost cfg .crash = some t) :
    Inv (c.step .crash) { d with current := d.saved } t := by
  obtain ⟨host, hhost, rfl⟩ := Option.map_eq_some_iff.mp hstep
  have hholds := h.holds.step (a := .crash) trivial hid hhost
  obtain ⟨dir, hdir⟩ := Host.phase_crash hhost
  refine ⟨hholds, h.saved, ?_, ?_, fun _ _ => rfl⟩
  · intro store hs
    have hphase := (store?_eq_some hs).1
    rw [hdir] at hphase
    cases hphase
  · intro db' hdb'
    rw [show host.session.phase = _ from hdir] at hdb'
    cases hdb'

theorem Inv.construct (h : Inv c d s) (hid : t.host.session.sstId < 2 ^ 31)
    (hstep : s.construct cfg = some t) : Inv c d t := by
  obtain ⟨host, hhost, heq⟩ := Option.bind_eq_some_iff.mp hstep
  obtain ⟨db, hdb, rfl⟩ := Option.map_eq_some_iff.mp heq
  have hholds := h.holds.step (a := .act .construct) trivial hid hhost
  obtain ⟨dir, db', hdir, hdb'⟩ := Host.phase_construct hhost
  obtain rfl : db' = db := by
    rw [Session.db?, hdb'] at hdb
    exact Option.some.inj hdb
  have hcur : c.current = c.saved := by
    obtain ⟨o, -, -, hphase⟩ := h.holds
    rw [hdir] at hphase
    exact funext hphase
  obtain ⟨hnil, t, ha, hget⟩ := h.saved
  have hread : ∀ k, db'.get k = t.db.get k := by
    intro k
    rw [DB.get_eq, hholds.raw_eq hdb, hget]
    show (c.current k).bind DB.hide = _
    rw [hcur]
  have ha' := ha.ofDB hnil hread
  have hstore : (⟨db', (ofDB db').knownKeys, (ofDB db').trackedBytesSize, false⟩ : DBKVStore) =
      ofDB db' := by
    rw [← (db_ofDB db').2]
    exact congrArg (fun x => DBKVStore.mk x _ _ _) (db_ofDB db').1.symm
  refine inv_of_runs hholds h.saved (store?_of_phase hdb') ?_ (h.closed dir hdir).symm
  rw [hstore]
  exact ⟨ha'.ledger, ha'.get, hnil, trivial, trivial⟩

end

theorem exists_construct {c : Contents} {s : KVHost} (hc : s.host.Holds c) (cfg : DBConfig)
    {dir : Dir} (hdir : s.host.session.phase = .closed dir) : ∃ t, s.construct cfg = some t := by
  obtain ⟨⟨⟨phase, created⟩, manifest⟩, knownKeys, trackedBytesSize, change, rest⟩ := s
  obtain rfl : phase = .closed dir := hdir
  obtain ⟨o, ⟨-, hm, hfiles⟩, hreads, -⟩ := hc
  obtain ⟨man, files⟩ := dir
  obtain rfl : man = o.map LSM.Manifest.save := hm
  obtain ⟨db, hopen, -, -⟩ := Host.exists_open hreads hfiles
  have hstep : Host.step cfg ⟨⟨.closed ⟨o.map LSM.Manifest.save, files⟩, created⟩, manifest⟩
      (.act .construct) = some ⟨⟨.running db, created⟩, manifest⟩ := by
    simp only [Host.step, Session.step, hopen, Option.map_some]
    rfl
  simp only [KVHost.construct, hstep, Option.bind_some]
  exact ⟨_, rfl⟩

section

variable {κ : Type} {prog : κ → Prog KVResult} {cfg : DBConfig} {c : Contents} {d : DurableMap}
  {s t : KVHost}

/-- The program of a call keeps away from the reserved keys, the tombstone and the empty key. -/
def CallOk (prog : κ → Prog KVResult) : KVAct κ → Prop
  | .call x => (prog x).Allowed ∧ (prog x).PutsOnly (· ≠ [])
  | _ => True

theorem host_of_write {ch : Change} {rest : Prog KVResult} (h : s.write cfg ch rest = some t) :
    s.host.step cfg (.act ch.act) = some t.host := by
  obtain ⟨host, hhost, rfl⟩ := Option.map_eq_some_iff.mp h
  exact hhost

theorem host_of_operate {store : DBKVStore} (h : s.operate cfg store = some t) :
    t.host = s.host ∨ ∃ ch : Change, s.host.step cfg (.act ch.act) = some t.host := by
  rw [operate] at h
  split at h
  · cases h
  · obtain rfl := Option.some.inj h
    exact .inl rfl
  · split at h
    · obtain rfl := Option.some.inj h
      exact .inl rfl
    · exact .inr ⟨_, host_of_write h⟩
  · split at h
    · obtain rfl := Option.some.inj h
      exact .inl rfl
    · split at h
      · obtain rfl := Option.some.inj h
        exact .inl rfl
      · exact .inr ⟨_, host_of_write h⟩
  · obtain rfl := Option.some.inj h
    exact .inl rfl
  · obtain rfl := Option.some.inj h
    exact .inl rfl

theorem host_of_step {a : KVAct κ} (hstep : s.step prog cfg a = some t) :
    t.host = s.host ∨ ∃ b, s.host.step cfg b = some t.host ∧ (b = .act .flush → a = .flush) := by
  have hwith : ∀ {b}, s.withHost cfg b = some t → s.host.step cfg b = some t.host := by
    intro b hb
    obtain ⟨host, hhost, rfl⟩ := Option.map_eq_some_iff.mp hb
    exact hhost
  cases a with
  | call x =>
    rw [KVHost.step] at hstep
    split at hstep
    · obtain ⟨store, -, rfl⟩ := Option.map_eq_some_iff.mp hstep
      exact .inl rfl
    · cases hstep
  | operate =>
    rw [KVHost.step] at hstep
    split at hstep
    · obtain ⟨store, -, hop⟩ := Option.bind_eq_some_iff.mp hstep
      rcases host_of_operate hop with heq | ⟨ch, hch⟩
      · exact .inl heq
      · exact .inr ⟨_, hch, fun heq => absurd (HostAct.act.inj heq) ch.act_ne_flush⟩
    · cases hstep
  | note =>
    obtain ⟨store, -, hn⟩ := Option.bind_eq_some_iff.mp hstep
    obtain ⟨ch, -, hn⟩ := Option.bind_eq_some_iff.mp hn
    obtain ⟨host, hhost, rfl⟩ := Option.map_eq_some_iff.mp hn
    exact .inr ⟨_, hhost, by simp⟩
  | flush => exact .inr ⟨_, hwith hstep, fun _ => rfl⟩
  | shutdown =>
    rw [KVHost.step] at hstep
    split at hstep
    · exact .inr ⟨_, hwith hstep, by simp⟩
    · cases hstep
  | save => exact .inr ⟨_, hwith hstep, by simp⟩
  | construct =>
    obtain ⟨host, hhost, hdb⟩ := Option.bind_eq_some_iff.mp hstep
    obtain ⟨db, -, rfl⟩ := Option.map_eq_some_iff.mp hdb
    exact .inr ⟨_, hhost, by simp⟩
  | crash => exact .inr ⟨_, hwith hstep, by simp⟩

theorem Inv.created_step {a : KVAct κ} (h : Inv c d s) (hf : s.FlushOk cfg a)
    (hstep : s.step prog cfg a = some t) :
    t.host.session.sstId < 2 ^ 31 ∧
      ∀ e ∈ t.host.session.created, e ∈ s.host.session.created ∨ Fresh e := by
  rcases host_of_step hstep with heq | ⟨b, hb, hflush⟩
  · obtain ⟨o, hk, -, -⟩ := h.holds
    rw [heq]
    exact ⟨hk.inv.sstId_lt, fun e he => .inl he⟩
  · refine h.holds.created_step (fun hbf => ?_) hb
    obtain rfl := hflush hbf
    exact hf

/-- **Every step keeps the store and the map together.** -/
theorem Inv.step {a : KVAct κ} (h : Inv c d s) (ha : CallOk prog a) (hf : s.FlushOk cfg a)
    (hstep : s.step prog cfg a = some t) : ∃ c', Inv c' (d.step prog a) t := by
  have hid : t.host.session.sstId < 2 ^ 31 := (h.created_step hf hstep).1
  cases a with
  | call x =>
    rw [KVHost.step] at hstep
    split at hstep
    · obtain ⟨store, hs, rfl⟩ := Option.map_eq_some_iff.mp hstep
      exact ⟨c, h.call hs ‹s.Quiet› ha⟩
    · cases hstep
  | operate =>
    rw [KVHost.step] at hstep
    split at hstep
    · obtain ⟨store, hs, hop⟩ := Option.bind_eq_some_iff.mp hstep
      exact h.operate hs ‹s.change = none› hid hop
    · cases hstep
  | note =>
    obtain ⟨store, hs, hn⟩ := Option.bind_eq_some_iff.mp hstep
    obtain ⟨ch, hch, hn⟩ := Option.bind_eq_some_iff.mp hn
    exact h.note hs hch hid hn
  | flush => exact ⟨c, h.flush hid hstep⟩
  | shutdown =>
    rw [KVHost.step] at hstep
    split at hstep
    · exact ⟨c, h.shutdown ‹s.Quiet› hid hstep⟩
    · cases hstep
  | save => exact ⟨_, h.save hid hstep⟩
  | construct => exact ⟨c, h.construct hid hstep⟩
  | crash => exact ⟨_, h.crash hid hstep⟩

theorem exists_inv {files : LSM.Files} {as : List (KVAct κ)}
    (hr : run (step prog cfg) (start files) as = some s) (hcalls : ∀ a ∈ as, CallOk prog a)
    (hflush : StepsOk (step prog cfg) (FlushOk cfg) (start files) as) :
    ∃ c, Inv c (DurableMap.after prog as) s ∧ ∀ e ∈ s.host.session.created, Fresh e := by
  induction as using List.reverseRecOn generalizing s with
  | nil =>
    obtain rfl := Option.some.inj hr
    exact ⟨_, inv_start files, by simp [start, Host.start, Session.start]⟩
  | append_singleton as a ih =>
    obtain ⟨u, hu, hstep⟩ := run_concat.mp hr
    obtain ⟨h1, h2⟩ := stepsOk_concat.mp hflush
    obtain ⟨c, hinv, hfresh⟩ := ih hu (fun b hb => hcalls b (List.mem_append_left _ hb)) h1
    obtain ⟨c', hinv'⟩ :=
      hinv.step (hcalls a (List.mem_append_right _ (List.mem_singleton_self a))) (h2 u hu) hstep
    rw [DurableMap.after_concat]
    exact ⟨c', hinv', fun e he => ((hinv.created_step (h2 u hu) hstep).2 e he).elim (hfresh e) id⟩

theorem Inv.agrees (h : Inv c d s) {store : DBKVStore} (hs : s.store? = some store)
    (hq : s.Quiet) : Agrees store d.current := by
  obtain ⟨m, hruns, hrun⟩ := h.running store hs
  obtain ⟨a, ha⟩ := Option.isSome_iff_exists.mp hq.2
  rw [Prog.eq_pure_of_result ha] at hrun
  obtain rfl : m = d.current := hrun
  exact hruns.agrees hq.1

end

end KVHost

/-! ### The store is the map -/

namespace DBKVStore

variable {store : DBKVStore} {m : KVMap}

theorem Agrees.perm_listKeys (h : Agrees store m) :
    store.listKeys.Perm (m.entries.map Prod.fst) := by
  have hlist := h.listKeysByPrefix []
  have hstore : store.listKeysByPrefix [] = store.listKeys.insertionSort (· ≤ ·) := by
    simp [DBKVStore.listKeysByPrefix, listKeys]
  have hmap : m.listKeysByPrefix [] = m.entries.map Prod.fst := by
    simp [KVMap.listKeysByPrefix, KVMap.listEntriesByPrefix]
  rw [hstore, hmap] at hlist
  rw [← hlist]
  exact (List.perm_insertionSort _ _).symm

theorem Agrees.size_eq (h : Agrees store m) : store.size = m.entries.length := by
  have hlen := h.perm_listKeys.length_eq
  rw [List.length_map] at hlen
  exact hlen

theorem Agrees.bytesSize_eq (h : Agrees store m) :
    store.bytesSize = (m.entries.map fun e => e.1.length + e.2.length).sum % 2 ^ 64 := by
  rw [h.ledger.bytesSize_eq, contentSize, (h.perm_listKeys.map _).sum_eq, List.map_map]
  refine congrArg (fun l : List Nat => l.sum % 2 ^ 64) (List.map_congr_left ?_)
  intro e he
  have hget := (m.mem_entries).mp he
  rw [h.get] at hget
  split at hget
  · cases hget
  · show entrySize e.1 (store.get e.1) = _
    rw [hget]
    rfl

end DBKVStore

/-- A put, or the deletion of what it put. -/
def putOrDelete : Bool → Prog KVResult
  | true => .put [1] [10] .pure
  | false => .delete [1] .pure

/-- The put is closed cleanly.  The process that deletes crashes before it has noted the
deletion, after the flush thread has written the tombstone into a table. -/
def deletionLost : List (KVAct Bool) :=
  [.construct, .call true, .operate, .flush, .note, .flush, .shutdown, .save,
    .construct, .call false, .operate, .flush, .crash, .construct]

end Mokv
