import Mokv.DB.Session

/-!
# The handover of memtables

`Conc` knows a memtable by its contents.  Here it is an object: `std::make_shared` takes
the next address, and what the threads pass on are addresses.  The first section of `Put`
holds only a read lock, so any number of writers may be between their write and their
test of the size; the sections under the write lock wait until they are gone.  The
destructor is another thread with two sections of its own.  A `Delete` is a `Put` of the
tombstone.

A memtable that has left `memtable_` is with the writer that swapped it out, with the
destructor, or was put into the queue (`Handover.out`).  `Handover.Inv` says that these are
different objects and that none is empty: the size was over the limit, or `size()` was
positive, while the write lock was held.

* `Inv.db_step`: the sections do to the database what the functions of `DB` do.
* `queued_memtables`: **what is queued is not empty and is queued once.**
-/

namespace Mokv

open LSM Lib

theorem DB.keeps_of_toSST {cfg : DBConfig} {db : DB} {m : MemTable} {r : DB × List Creation}
    (h : db.toSST cfg m = some r) :
    r.1.memtable = db.memtable ∧ r.1.flushQueue = db.flushQueue := by
  rw [DB.toSST] at h
  obtain ⟨sst, -, h⟩ := Option.bind_eq_some_iff.mp h
  dsimp only at h
  split at h
  · obtain ⟨p, -, h⟩ := Option.bind_eq_some_iff.mp h
    obtain rfl := Option.some.inj h
    exact ⟨rfl, rfl⟩
  · obtain rfl := Option.some.inj h
    exact ⟨rfl, rfl⟩

/-- How far `DB::~DB` is. -/
inductive Teardown where
  | alive
  /-- Between the locked sections, with `pending_memtable`. -/
  | taken (pendingMemtable : Option Nat)
  /-- `to_sst_stop_flag_` is set. -/
  | stopped
  /-- The flush thread has ended. -/
  | joined
deriving DecidableEq

/-- The memtable that the destructor holds. -/
def Teardown.pending : Teardown → List Nat
  | .taken p => p.toList
  | _ => []

/-- The threads of a `DB` and the memtables they pass on. -/
structure Handover where
  heap : Nat → MemTable
  /-- The next address. -/
  made : Nat
  memtable : Nat
  /-- The writers that hold the read lock and have written. -/
  reading : List Nat
  /-- The writers that left the first section because the memtable is over its limit. -/
  overLimit : List Nat
  /-- The writers' `pending_flush`. -/
  pendingFlush : List (Nat × Nat)
  flushQueue : List Nat
  /-- The flush thread's `memtable`. -/
  flushing : Option Nat
  teardown : Teardown
  manifest : Manifest
  sstId : Nat
  files : Files
  /-- The memtables put into `flush_queue_` so far. -/
  queued : List Nat

namespace Handover

/-- The sections of a writer, of the flush thread and of the destructor. -/
inductive Move where
  | put (thread : Nat) (key value : Bytes)
  | check (thread : Nat)
  | swap (thread : Nat)
  | enqueue (thread : Nat)
  | dequeue
  | toSST
  | take
  | stop
  | join
deriving DecidableEq

/-- A `DB` on a directory with this manifest. -/
def init (manifest : Manifest) (sstId : Nat) (files : Files) : Handover :=
  ⟨fun _ => MemTable.empty, 1, 0, [], [], [], [], none, .alive, manifest, sstId, files, []⟩

/-- The thread is inside a `Put`. -/
def busy (s : Handover) (i : Nat) : Bool :=
  i ∈ s.reading ∨ i ∈ s.overLimit ∨ i ∈ s.pendingFlush.map Prod.fst

/-- `memtable_`. -/
def active (s : Handover) : MemTable := s.heap s.memtable

/-- The database without the addresses. -/
def db (s : Handover) : DB := ⟨s.active, s.flushQueue.map s.heap, s.manifest, s.sstId, s.files⟩

/-- `memtable_ = std::make_shared<MemTable>()`. -/
def renew (s : Handover) : Handover :=
  { s with
    heap := Function.update s.heap s.made MemTable.empty
    made := s.made + 1
    memtable := s.made }

/-- One section. -/
def step (cfg : DBConfig) (s : Handover) : Move → Option Handover
  | .put i key value =>
    if s.busy i then none
    else some { s with
      heap := Function.update s.heap s.memtable (s.active.put key value)
      reading := i :: s.reading }
  | .check i =>
    if i ∈ s.reading then
      if s.active.binarySize ≤ cfg.memtableMaxSize then
        some { s with reading := s.reading.erase i }
      else some { s with reading := s.reading.erase i, overLimit := i :: s.overLimit }
    else none
  | .swap i =>
    if i ∈ s.overLimit ∧ s.reading = [] then
      if s.active.binarySize > cfg.memtableMaxSize then
        some { s.renew with
          overLimit := s.overLimit.erase i
          pendingFlush := s.pendingFlush ++ [(i, s.memtable)] }
      else some { s with overLimit := s.overLimit.erase i }
    else none
  | .enqueue i =>
    match s.pendingFlush.lookup i with
    | none => none
    | some a => some { s with
        flushQueue := s.flushQueue ++ [a]
        pendingFlush := s.pendingFlush.eraseP (·.1 == i)
        queued := s.queued ++ [a] }
  | .dequeue =>
    match s.flushing, s.flushQueue with
    | none, a :: q =>
      if s.teardown = .joined then none else some { s with flushQueue := q, flushing := some a }
    | _, _ => none
  | .toSST =>
    match s.flushing with
    | none => none
    | some a => (s.db.toSST cfg (s.heap a)).map fun r =>
        { s with
          manifest := r.1.manifest
          sstId := r.1.sstId
          files := r.1.files
          flushing := none }
  | .take =>
    if s.teardown = .alive ∧ s.reading = [] then
      if s.active.size > 0 then some { s.renew with teardown := .taken (some s.memtable) }
      else some { s with teardown := .taken none }
    else none
  | .stop =>
    match s.teardown with
    | .taken p => some { s with
        flushQueue := s.flushQueue ++ p.toList
        queued := s.queued ++ p.toList
        teardown := .stopped }
    | _ => none
  | .join =>
    if s.teardown = .stopped ∧ s.flushing = none ∧ s.flushQueue = [] then
      some { s with teardown := .joined }
    else none

/-! ### What a section can do -/

/-- The effect of one section. -/
inductive Stepped (cfg : DBConfig) (s : Handover) : Move → Handover → Prop
  | put {i : Nat} {key value : Bytes} (hidle : s.busy i = false) :
      Stepped cfg s (.put i key value)
        { s with
          heap := Function.update s.heap s.memtable (s.active.put key value)
          reading := i :: s.reading }
  | check {i : Nat} {overs : List Nat} (hi : i ∈ s.reading)
      (hover : overs = s.overLimit ∨ overs = i :: s.overLimit) :
      Stepped cfg s (.check i) { s with reading := s.reading.erase i, overLimit := overs }
  | keep {i : Nat} (hi : i ∈ s.overLimit) (hle : s.active.binarySize ≤ cfg.memtableMaxSize) :
      Stepped cfg s (.swap i) { s with overLimit := s.overLimit.erase i }
  | swap {i : Nat} (hi : i ∈ s.overLimit) (hlt : cfg.memtableMaxSize < s.active.binarySize) :
      Stepped cfg s (.swap i)
        { s.renew with
          overLimit := s.overLimit.erase i
          pendingFlush := s.pendingFlush ++ [(i, s.memtable)] }
  | enqueue {i a : Nat} {p q : List (Nat × Nat)} (hsplit : s.pendingFlush = p ++ (i, a) :: q) :
      Stepped cfg s (.enqueue i)
        { s with
          flushQueue := s.flushQueue ++ [a]
          pendingFlush := p ++ q
          queued := s.queued ++ [a] }
  | dequeue {a : Nat} {q : List Nat} (hf : s.flushing = none) (hq : s.flushQueue = a :: q) :
      Stepped cfg s .dequeue { s with flushQueue := q, flushing := some a }
  | toSST {a : Nat} {r : DB × List Creation} (hf : s.flushing = some a)
      (hr : s.db.toSST cfg (s.heap a) = some r) :
      Stepped cfg s .toSST
        { s with
          manifest := r.1.manifest, sstId := r.1.sstId, files := r.1.files, flushing := none }
  | take (halive : s.teardown = .alive) (hsize : 0 < s.active.size) :
      Stepped cfg s .take { s.renew with teardown := .taken (some s.memtable) }
  | takeNone (halive : s.teardown = .alive) (hsize : s.active.size = 0) :
      Stepped cfg s .take { s with teardown := .taken none }
  | stop {p : Option Nat} (hp : s.teardown = .taken p) :
      Stepped cfg s .stop
        { s with
          flushQueue := s.flushQueue ++ p.toList
          queued := s.queued ++ p.toList
          teardown := .stopped }
  | join (hstopped : s.teardown = .stopped) :
      Stepped cfg s .join { s with teardown := .joined }

theorem stepped_of_step {cfg : DBConfig} {s t : Handover} {a : Move} (h : s.step cfg a = some t) :
    Stepped cfg s a t := by
  cases a with
  | put i key value =>
    rw [step] at h
    split at h
    · cases h
    · rename_i hidle
      obtain rfl := Option.some.inj h
      exact Stepped.put (by simpa using hidle)
  | check i =>
    rw [step] at h
    split at h
    · rename_i hi
      split at h
      · obtain rfl := Option.some.inj h
        exact Stepped.check hi (Or.inl rfl)
      · obtain rfl := Option.some.inj h
        exact Stepped.check hi (Or.inr rfl)
    · cases h
  | swap i =>
    rw [step] at h
    split at h
    · rename_i hi
      split at h
      · rename_i hlt
        obtain rfl := Option.some.inj h
        exact Stepped.swap hi.1 hlt
      · rename_i hle
        obtain rfl := Option.some.inj h
        exact Stepped.keep hi.1 (Nat.le_of_not_lt hle)
    · cases h
  | enqueue i =>
    rw [step] at h
    split at h
    · cases h
    · rename_i a ha
      obtain ⟨p, q, hsplit, -, he⟩ := exists_split_of_lookup ha
      obtain rfl := Option.some.inj h
      rw [he]
      exact Stepped.enqueue hsplit
  | dequeue =>
    rw [step] at h
    split at h
    · rename_i a q hf hq
      split at h
      · cases h
      · obtain rfl := Option.some.inj h
        exact Stepped.dequeue hf hq
    · cases h
  | toSST =>
    rw [step] at h
    split at h
    · cases h
    · rename_i a hf
      obtain ⟨r, hr, rfl⟩ := Option.map_eq_some_iff.mp h
      exact Stepped.toSST hf hr
  | take =>
    rw [step] at h
    split at h
    · rename_i halive
      split at h
      · rename_i hsize
        obtain rfl := Option.some.inj h
        exact Stepped.take halive.1 hsize
      · rename_i hsize
        obtain rfl := Option.some.inj h
        exact Stepped.takeNone halive.1 (Nat.eq_zero_of_not_pos hsize)
    · cases h
  | stop =>
    rw [step] at h
    split at h
    · rename_i p hp
      obtain rfl := Option.some.inj h
      exact Stepped.stop hp
    · cases h
  | join =>
    rw [step] at h
    split at h
    · rename_i hjoin
      obtain rfl := Option.some.inj h
      exact Stepped.join hjoin.1
    · cases h

/-! ### The invariant -/

/-- The memtables that have left `memtable_`. -/
def out (s : Handover) : List Nat :=
  s.pendingFlush.map Prod.snd ++ (s.teardown.pending ++ s.queued)

/-- The objects are different, and those that have left `memtable_` are not empty. -/
structure Inv (s : Handover) : Prop where
  bound : ∀ a ∈ s.memtable :: s.out, a < s.made
  nodup : (s.memtable :: s.out).Nodup
  nonempty : ∀ a ∈ s.out, (s.heap a).entries ≠ []
  queue : ∀ a ∈ s.flushing.toList ++ s.flushQueue, a ∈ s.queued

theorem inv_init (manifest : Manifest) (sstId : Nat) (files : Files) :
    (init manifest sstId files).Inv where
  bound := by simp [init, out, Teardown.pending]
  nodup := by simp [init, out, Teardown.pending]
  nonempty := by simp [init, out, Teardown.pending]
  queue := by simp [init]

section

variable {cfg : DBConfig} {s t : Handover}

theorem Inv.ne_memtable (h : s.Inv) {a : Nat} (ha : a ∈ s.out) : a ≠ s.memtable := by
  rintro rfl
  exact (List.nodup_cons.mp h.nodup).1 ha

theorem Inv.mem_out_of_queue (h : s.Inv) {a : Nat} (ha : a ∈ s.flushing.toList ++ s.flushQueue) :
    a ∈ s.out :=
  List.mem_append_right _ (List.mem_append_right _ (h.queue a ha))

theorem Inv.of_perm (h : s.Inv) (hheap : t.heap = s.heap) (hmade : t.made = s.made)
    (hmem : t.memtable = s.memtable) (hout : t.out.Perm s.out)
    (hqueue : ∀ a ∈ t.flushing.toList ++ t.flushQueue, a ∈ t.queued) : t.Inv where
  bound := by
    intro a ha
    rw [hmade]
    refine h.bound a ?_
    rw [hmem] at ha
    exact (List.Perm.cons _ hout).subset ha
  nodup := by
    rw [hmem]
    exact (List.Perm.cons _ hout).nodup_iff.mpr h.nodup
  nonempty := by
    intro a ha
    rw [hheap]
    exact h.nonempty a (hout.subset ha)
  queue := hqueue

theorem Inv.renew (h : s.Inv) (hne : s.active.entries ≠ []) (hheap : t.heap = s.renew.heap)
    (hmade : t.made = s.renew.made) (hmem : t.memtable = s.renew.memtable)
    (hout : t.out.Perm (s.memtable :: s.out))
    (hqueue : ∀ a ∈ t.flushing.toList ++ t.flushQueue, a ∈ t.queued) : t.Inv where
  bound := by
    intro a ha
    rw [hmade]
    rw [hmem] at ha
    rcases List.mem_cons.mp ha with rfl | ha
    · exact Nat.lt_succ_self s.made
    · exact Nat.lt_succ_of_lt (h.bound a (hout.subset ha))
  nodup := by
    rw [hmem]
    refine List.nodup_cons.mpr ⟨?_, hout.nodup_iff.mpr h.nodup⟩
    intro hmade
    exact lt_irrefl _ (h.bound _ (hout.subset hmade))
  nonempty := by
    intro a ha
    have hlt : a < s.made := h.bound a (hout.subset ha)
    have hget : t.heap a = s.heap a := by
      rw [hheap]
      exact Function.update_of_ne (ne_of_lt hlt) _ _
    rw [hget]
    rcases List.mem_cons.mp (hout.subset ha) with rfl | ha
    · exact hne
    · exact h.nonempty a ha
  queue := hqueue

theorem Inv.heap_update (h : s.Inv) (m : MemTable) {a : Nat} (ha : a ∈ s.out) :
    Function.update s.heap s.memtable m a = s.heap a :=
  Function.update_of_ne (h.ne_memtable ha) _ _

theorem Inv.step (h : s.Inv) {a : Move} (hstep : s.step cfg a = some t) : t.Inv := by
  cases stepped_of_step hstep with
  | @put i key value hidle =>
    refine ⟨h.bound, h.nodup, ?_, h.queue⟩
    intro b (hb : b ∈ s.out)
    change (Function.update s.heap s.memtable (s.active.put key value) b).entries ≠ []
    rw [h.heap_update _ hb]
    exact h.nonempty b hb
  | check hi hover => exact h.of_perm rfl rfl rfl (List.Perm.refl _) h.queue
  | keep hi hle => exact h.of_perm rfl rfl rfl (List.Perm.refl _) h.queue
  | swap hi hlt =>
    refine h.renew (MemTable.entries_ne_nil_of_binarySize hlt) rfl rfl rfl ?_ h.queue
    simp only [out, List.map_append, List.map_singleton, List.append_assoc,
      List.singleton_append, Handover.renew]
    exact List.perm_middle
  | @enqueue i b p q hsplit =>
    refine h.of_perm rfl rfl rfl ?_ ?_
    · simp only [out, hsplit, List.map_append, List.map_cons, List.append_assoc,
        List.cons_append]
      refine List.Perm.append_left _ ?_
      rw [← List.append_assoc, ← List.append_assoc, ← List.append_assoc]
      exact List.perm_append_singleton _ _
    · intro c hc
      rw [← List.append_assoc] at hc
      exact List.mem_append.mpr ((List.mem_append.mp hc).imp_left (h.queue c))
  | @dequeue b q hf hq =>
    refine h.of_perm rfl rfl rfl (List.Perm.refl _) ?_
    intro c hc
    refine h.queue c ?_
    rw [hf, hq]
    exact hc
  | toSST hf hr =>
    exact h.of_perm rfl rfl rfl (List.Perm.refl _)
      fun c hc => h.queue c (List.mem_append_right _ hc)
  | take halive hsize =>
    refine h.renew (fun he => ?_) rfl rfl rfl ?_ h.queue
    · rw [s.active.size_eq, he] at hsize
      exact lt_irrefl 0 hsize
    · simp only [out, halive, Teardown.pending, Handover.renew, Option.toList_some]
      exact List.perm_middle
  | takeNone halive hsize =>
    refine h.of_perm rfl rfl rfl ?_ h.queue
    simp only [out, halive, Teardown.pending, Option.toList_none]
    exact List.Perm.refl _
  | @stop p hp =>
    refine h.of_perm rfl rfl rfl ?_ ?_
    · simp only [out, hp, Teardown.pending, List.nil_append]
      exact List.Perm.append_left _ List.perm_append_comm
    · intro c hc
      rw [← List.append_assoc] at hc
      exact List.mem_append.mpr ((List.mem_append.mp hc).imp_left (h.queue c))
  | join hstopped =>
    refine h.of_perm rfl rfl rfl ?_ h.queue
    simp only [out, hstopped, Teardown.pending]
    exact List.Perm.refl _

/-! ### The database behind the addresses -/

/-- What a section does to the database, in the terms of `DB`. -/
def DbMove (cfg : DBConfig) (s t : Handover) : Move → Prop
  | .put _ key value => t.db = s.db.write key value
  | .check _ => t.db = s.db
  | .swap _ => t.db = (s.db.swap cfg).1
  | .enqueue i => ∃ a, (i, a) ∈ s.pendingFlush ∧ t.db = s.db.enqueue (s.heap a)
  | .dequeue => ∃ a q, s.db.flushQueue = s.heap a :: q ∧ t.flushing = some a ∧
      t.db = { s.db with flushQueue := q }
  | .toSST => ∃ a cs, s.flushing = some a ∧ s.db.toSST cfg (s.heap a) = some (t.db, cs)
  | .take => t.db = { s.db with memtable := s.db.handOver.memtable }
  | .stop => t.db.flushQueue = s.db.flushQueue ++ s.teardown.pending.map s.heap
  | .join => t.db = s.db

theorem Inv.map_update (h : s.Inv) (m : MemTable) {b : Nat} (hb : b ∉ s.out) :
    s.flushQueue.map (Function.update s.heap b m) = s.flushQueue.map s.heap := by
  refine List.map_congr_left ?_
  intro a ha
  refine Function.update_of_ne ?_ _ _
  rintro rfl
  exact hb (h.mem_out_of_queue (List.mem_append_right _ ha))

theorem Inv.db_renew (h : s.Inv) : s.renew.db = { s.db with memtable := MemTable.empty } := by
  have hmade : s.made ∉ s.out := fun hmem =>
    lt_irrefl _ (h.bound _ (List.mem_cons_of_mem _ hmem))
  have hactive : s.renew.active = MemTable.empty := Function.update_self _ _ _
  simp only [db, hactive, DB.mk.injEq, true_and]
  exact ⟨h.map_update _ hmade, rfl, rfl, rfl⟩

/-- **The sections do to the database what the functions of `DB` do.** -/
theorem Inv.db_step (h : s.Inv) {a : Move} (hstep : s.step cfg a = some t) :
    DbMove cfg s t a := by
  cases stepped_of_step hstep with
  | @put i key value hidle =>
    have hmem : s.memtable ∉ s.out := (List.nodup_cons.mp h.nodup).1
    change DB.mk _ _ _ _ _ = DB.mk _ _ _ _ _
    rw [DB.mk.injEq]
    exact ⟨Function.update_self _ _ _, h.map_update _ hmem, rfl, rfl, rfl⟩
  | check hi hover => rfl
  | keep hi hle =>
    change s.db = (s.db.swap cfg).1
    have hnot : ¬ s.db.memtable.binarySize > cfg.memtableMaxSize := Nat.not_lt.mpr hle
    rw [DB.swap, if_neg hnot]
  | swap hi hlt =>
    change s.renew.db = (s.db.swap cfg).1
    have hover : s.db.memtable.binarySize > cfg.memtableMaxSize := hlt
    rw [DB.swap, if_pos hover, h.db_renew]
  | @enqueue i b p q hsplit =>
    refine ⟨b, ?_, ?_⟩
    · rw [hsplit]
      exact List.mem_append_right _ List.mem_cons_self
    · change DB.mk _ _ _ _ _ = DB.mk _ _ _ _ _
      rw [List.map_append]
      rfl
  | @dequeue b q hf hq =>
    refine ⟨b, q.map s.heap, ?_, rfl, rfl⟩
    change s.flushQueue.map s.heap = _
    rw [hq, List.map_cons]
  | @toSST b r hf hr =>
    obtain ⟨hmem, hqueue⟩ := DB.keeps_of_toSST hr
    refine ⟨b, r.2, hf, ?_⟩
    change s.db.toSST cfg (s.heap b) = some (⟨s.db.memtable, s.db.flushQueue, _, _, _⟩, r.2)
    rw [hr, ← hmem, ← hqueue]
  | take halive hsize =>
    change s.renew.db = _
    have hpos : s.db.memtable.size > 0 := hsize
    rw [h.db_renew, DB.handOver, if_pos hpos]
  | takeNone halive hsize =>
    change s.db = _
    have hzero : ¬ s.db.memtable.size > 0 := Nat.not_lt.mpr (Nat.le_of_eq hsize)
    rw [DB.handOver, if_neg hzero]
  | @stop p hp =>
    change (s.flushQueue ++ p.toList).map s.heap = _
    rw [List.map_append, hp]
    rfl
  | join hstopped => rfl

end

/-! ### Every run -/

theorem run_inv {cfg : DBConfig} {manifest : Manifest} {sstId : Nat} {files : Files}
    {as : List Move} {s : Handover} (hr : run (step cfg) (init manifest sstId files) as = some s) :
    s.Inv :=
  run_invariant (inv_init manifest sstId files) (fun _ _ _ h _ hs => h.step hs) hr
    (stepsOk_true _ as)

/-- **Only memtables with entries are queued, and each is queued once.**  What is in the
queue or with the flush thread is one of them, so the SST constructors find a first entry
and a bloom filter is sized for at least one key. -/
theorem queued_memtables (cfg : DBConfig) (manifest : Manifest) (sstId : Nat) (files : Files)
    (as : List Move) (s : Handover)
    (hr : run (step cfg) (init manifest sstId files) as = some s) :
    (∀ a ∈ s.queued, (s.heap a).entries ≠ [] ∧ 0 < (s.heap a).size) ∧ s.queued.Nodup ∧
    (∀ a ∈ s.flushQueue, a ∈ s.queued) ∧
    ∀ a, s.flushing = some a →
      a ∈ s.queued ∧ ∀ id, (SST.ofMemTable? cfg.fileSize (s.heap a) id).isSome := by
  have hinv := run_inv hr
  have hmem : ∀ a ∈ s.queued, a ∈ s.out := fun a ha =>
    List.mem_append_right _ (List.mem_append_right _ ha)
  refine ⟨?_, ?_, ?_, ?_⟩
  · intro a ha
    have hne := hinv.nonempty a (hmem a ha)
    refine ⟨hne, ?_⟩
    rw [(s.heap a).size_eq]
    exact List.length_pos_of_ne_nil hne
  · have hout := (List.nodup_cons.mp hinv.nodup).2
    exact (List.nodup_append'.mp (List.nodup_append'.mp hout).2.1).2.1
  · intro a ha
    exact hinv.queue a (List.mem_append_right _ ha)
  · intro a hf
    have hq : a ∈ s.queued := hinv.queue a (List.mem_append_left _ (by rw [hf]; simp))
    refine ⟨hq, ?_⟩
    intro id
    obtain ⟨sst, hsst⟩ :=
      SST.exists_ofMemTable? cfg.fileSize (hinv.nonempty a (hmem a hq)) id
    rw [hsst]
    rfl

/-- With a limit of 0 two writers write, one of them an empty value under an empty key.
Both find the memtable over its limit, but only the first swaps it; a third write stays
in the new memtable until the destructor takes it. -/
def twoWriters : List Move :=
  [.put 0 [] [], .put 1 [1] [2], .check 0, .check 1, .swap 1, .swap 0, .put 2 [] [], .check 2,
    .enqueue 1, .take, .dequeue, .stop, .toSST, .dequeue]

theorem queued_memtables_twoWriters :
    ∃ s, run (step ⟨0, plainFileSize fun _ => 152⟩) (init Manifest.new 0 fun _ => none)
        twoWriters = some s ∧ s.queued = [0, 1] ∧ s.flushing = some 1 ∧ s.queued.Nodup ∧
      ∀ a, s.flushing = some a → a ∈ s.queued ∧
        ∀ id, (SST.ofMemTable? (plainFileSize fun _ => 152) (s.heap a) id).isSome := by
  have hrun : (run (step ⟨0, plainFileSize fun _ => 152⟩) (init Manifest.new 0 fun _ => none)
      twoWriters).map (fun s : Handover => (s.queued, s.flushing)) = some ([0, 1], some 1) := by
    decide +kernel
  obtain ⟨s, hs, heq⟩ := Option.map_eq_some_iff.mp hrun
  obtain ⟨-, hnodup, -, hflush⟩ := queued_memtables ⟨0, plainFileSize fun _ => 152⟩ Manifest.new 0
    (fun _ => none) twoWriters s hs
  exact ⟨s, hs, congrArg Prod.fst heq, congrArg Prod.snd heq, hnodup, hflush⟩

end Handover

end Mokv
