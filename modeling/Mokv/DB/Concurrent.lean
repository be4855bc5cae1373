import Mokv.DB.Refinement

/-!
# The database under concurrent writers

Any number of threads are inside `DB::Put` while the flush thread runs.  A step is one
locked section.  Between two sections a memtable may be in nobody's hands but a
thread's: in the local `pending_flush` of a writer after the swap, or in the local
`memtable` of the flush thread after it left the queue.

The state carries the histories that the properties speak about: the writes in the
order in which they were applied, and the memtables in the order in which they were
swapped out, entered the queue and became tables.  `Conc.Inv` ties the histories to the
state and holds in every run; `Conc.KeyInv` adds what the tables read as, and holds as
long as nobody writes the empty key.  The one thing no run is free to assume is that the
two orders agree; `Conc.InOrder` says so, and with it a lookup finds the last write as
soon as no memtable is in transit (`get_eq_lastWritten`).
-/

namespace Mokv

open LSM Lib

/-- The threads of a `DB`. -/
structure Conc where
  db : DB
  /-- The writers that left the first section because the memtable is over its limit. -/
  overLimit : List Nat
  /-- The writers' `pending_flush`, in the order of the swaps. -/
  pendingFlush : List (Nat × MemTable)
  /-- The flush thread's `memtable`. -/
  flushing : Option MemTable
  writes : List Entry
  swapped : List MemTable
  entered : List MemTable
  flushed : List MemTable

/-- The locked sections: of `Put` by some thread, and of the flush thread. -/
inductive Section where
  | write (thread : Nat) (key value : Bytes)
  | swap (thread : Nat)
  | enqueue (thread : Nat)
  | dequeue
  | toSST
deriving DecidableEq

/-- The keys written are not empty. -/
def Section.KeyOk : Section → Prop
  | .write _ key _ => key ≠ []
  | _ => True

instance : DecidablePred Section.KeyOk
  | .write _ key _ => inferInstanceAs (Decidable (key ≠ []))
  | .swap _ => isTrue trivial
  | .enqueue _ => isTrue trivial
  | .dequeue => isTrue trivial
  | .toSST => isTrue trivial

namespace Conc

/-- No thread has started. -/
def init (files : Files) : Conc := ⟨DB.new files, [], [], none, [], [], [], []⟩

/-- The thread is inside a `Put`. -/
def busy (s : Conc) (i : Nat) : Bool := i ∈ s.overLimit ∨ i ∈ s.pendingFlush.map Prod.fst

/-- One section. -/
def step (cfg : DBConfig) (s : Conc) : Section → Option Conc
  | .write i key value =>
    if s.busy i then none
    else
      let db := s.db.write key value
      some { s with
        db := db
        writes := s.writes ++ [(key, value)]
        overLimit :=
          if db.memtable.binarySize ≤ cfg.memtableMaxSize then s.overLimit else i :: s.overLimit }
  | .swap i =>
    if i ∈ s.overLimit then
      match s.db.swap cfg with
      | (db, none) => some { s with db := db, overLimit := s.overLimit.erase i }
      | (db, some t) => some { s with
          db := db
          overLimit := s.overLimit.erase i
          pendingFlush := s.pendingFlush ++ [(i, t)]
          swapped := s.swapped ++ [t] }
    else none
  | .enqueue i =>
    match s.pendingFlush.lookup i with
    | none => none
    | some t => some { s with
        db := s.db.enqueue t
        pendingFlush := s.pendingFlush.eraseP (·.1 == i)
        entered := s.entered ++ [t] }
  | .dequeue =>
    match s.flushing, s.db.flushQueue with
    | none, t :: q => some { s with db := { s.db with flushQueue := q }, flushing := some t }
    | _, _ => none
  | .toSST =>
    match s.flushing with
    | none => none
    | some t => (s.db.toSST cfg t).map fun r =>
        { s with db := r.1, flushing := none, flushed := s.flushed ++ [t] }

/-! ### What a section can do -/

/-- The effect of one section. -/
inductive Stepped (cfg : DBConfig) (s : Conc) : Section → Conc → Prop
  | write {i : Nat} {key value : Bytes} {overs : List Nat} (hidle : s.busy i = false)
      (hover : overs = s.overLimit ∨ overs = i :: s.overLimit) : Stepped cfg s (.write i key value)
      { s with
        db := s.db.write key value
        writes := s.writes ++ [(key, value)]
        overLimit := overs }
  | keep {i : Nat} (hi : i ∈ s.overLimit) (hle : s.db.memtable.binarySize ≤ cfg.memtableMaxSize) :
      Stepped cfg s (.swap i) { s with overLimit := s.overLimit.erase i }
  | swap {i : Nat} (hi : i ∈ s.overLimit) (hlt : cfg.memtableMaxSize < s.db.memtable.binarySize) :
      Stepped cfg s (.swap i)
        { s with
          db := { s.db with memtable := MemTable.empty }
          overLimit := s.overLimit.erase i
          pendingFlush := s.pendingFlush ++ [(i, s.db.memtable)]
          swapped := s.swapped ++ [s.db.memtable] }
  | enqueue {i : Nat} {t : MemTable} {p q : List (Nat × MemTable)}
      (hsplit : s.pendingFlush = p ++ (i, t) :: q) (hp : ∀ x ∈ p, x.1 ≠ i) :
      Stepped cfg s (.enqueue i)
        { s with db := s.db.enqueue t, pendingFlush := p ++ q, entered := s.entered ++ [t] }
  | dequeue {t : MemTable} {q : List MemTable} (hf : s.flushing = none)
      (hq : s.db.flushQueue = t :: q) : Stepped cfg s .dequeue
        { s with db := { s.db with flushQueue := q }, flushing := some t }
  | toSST {t : MemTable} {db : DB} {cs : List Creation} (hf : s.flushing = some t)
      (hdb : s.db.toSST cfg t = some (db, cs)) : Stepped cfg s .toSST
        { s with db := db, flushing := none, flushed := s.flushed ++ [t] }

theorem stepped_of_step {cfg : DBConfig} {s t : Conc} {a : Section} (h : s.step cfg a = some t) :
    Stepped cfg s a t := by
  cases a with
  | write i key value =>
    rw [step] at h
    split at h
    · cases h
    · rename_i hidle
      obtain rfl := Option.some.inj h
      refine Stepped.write (by simpa using hidle) ?_
      split
      · exact Or.inl rfl
      · exact Or.inr rfl
  | swap i =>
    rw [step] at h
    split at h
    · rename_i hi
      rw [DB.swap] at h
      split at h
      · rename_i hs
        split at hs
        · cases hs
        · rename_i hle
          obtain rfl := (Prod.mk.inj hs).1
          obtain rfl := Option.some.inj h
          exact Stepped.keep hi (Nat.le_of_not_lt hle)
      · rename_i hs
        split at hs
        · rename_i hlt
          obtain ⟨rfl, ht⟩ := Prod.mk.inj hs
          obtain rfl := Option.some.inj ht
          obtain rfl := Option.some.inj h
          exact Stepped.swap hi hlt
        · cases hs
    · cases h
  | enqueue i =>
    rw [step] at h
    split at h
    · cases h
    · rename_i u hu
      obtain ⟨p, q, hsplit, hp, he⟩ := exists_split_of_lookup hu
      obtain rfl := Option.some.inj h
      rw [he]
      exact Stepped.enqueue hsplit hp
  | dequeue =>
    rw [step] at h
    split at h
    · rename_i u q hf hq
      obtain rfl := Option.some.inj h
      exact Stepped.dequeue hf hq
    · cases h
  | toSST =>
    rw [step] at h
    split at h
    · cases h
    · rename_i u hf
      obtain ⟨r, hr, rfl⟩ := Option.map_eq_some_iff.mp h
      exact Stepped.toSST hf hr

/-! ### The invariant of every run -/

/-- The value last written to a key. -/
def lastWritten (writes : List Entry) (k : Bytes) : Option Bytes := writes.reverse.lookup k

theorem lastWritten_concat (ws : List Entry) (k v j : Bytes) :
    lastWritten (ws ++ [(k, v)]) j = if j = k then some v else lastWritten ws j := by
  rw [lastWritten, List.reverse_append, List.reverse_singleton, List.singleton_append, lookup_cons]
  rfl

/-- The memtables in transit, the flush thread's first. -/
def inTransit (s : Conc) : List MemTable := s.flushing.toList ++ s.pendingFlush.map Prod.snd

/-- The histories and the state. -/
structure Inv (s : Conc) : Prop where
  shaped : s.db.manifest.Shaped
  queue : ∀ t ∈ s.db.flushQueue, t.entries ≠ []
  transit : ∀ t ∈ s.inTransit, t.entries ≠ []
  /-- What entered the queue is a table by now, with the flush thread, or still there. -/
  entered_eq : s.entered = s.flushed ++ (s.flushing.toList ++ s.db.flushQueue)
  /-- What was swapped out has entered the queue or is with a writer. -/
  swapped_perm : s.swapped.Perm (s.entered ++ s.pendingFlush.map Prod.snd)
  untouched : s.flushed = [] → s.db.manifest = Manifest.new
  /-- The memtables read as the writes, in the order of the swaps. -/
  reads : ∀ k, (s.db.memtable.get k).or (DB.pendingGet s.swapped k) = lastWritten s.writes k

theorem inv_init (files : Files) : (init files).Inv where
  shaped := (DB.valid_new files).manifest.toShaped
  queue := by simp [init, DB.new]
  transit := by simp [init, inTransit]
  entered_eq := rfl
  swapped_perm := by simp [init]
  untouched _ := rfl
  reads _ := rfl

theorem Inv.step {cfg : DBConfig} {s t : Conc} {a : Section} (h : s.Inv)
    (hstep : s.step cfg a = some t) : t.Inv := by
  cases stepped_of_step hstep with
  | @write i key value overs hidle hover =>
    refine ⟨h.shaped, h.queue, h.transit, h.entered_eq, h.swapped_perm, h.untouched, ?_⟩
    intro k
    rw [lastWritten_concat, DB.write, MemTable.get_put, ← h.reads k]
    split <;> rfl
  | keep hi hle =>
    exact ⟨h.shaped, h.queue, h.transit, h.entered_eq, h.swapped_perm, h.untouched, h.reads⟩
  | @swap i hi hlt =>
    refine ⟨h.shaped, h.queue, ?_, h.entered_eq, ?_, h.untouched, ?_⟩
    · intro u hu
      simp only [inTransit, List.map_append, List.map_singleton, ← List.append_assoc] at hu
      rcases List.mem_append.mp hu with hu | hu
      · exact h.transit u hu
      · rw [List.mem_singleton.mp hu]
        exact MemTable.entries_ne_nil_of_binarySize hlt
    · simp only [List.map_append, List.map_singleton, ← List.append_assoc]
      exact h.swapped_perm.append_right _
    · intro k
      rw [DB.pendingGet_concat, ← h.reads k]
      rfl
  | @enqueue i u p q hsplit hp =>
    have hmap : s.pendingFlush.map Prod.snd = p.map Prod.snd ++ u :: q.map Prod.snd := by
      rw [hsplit, List.map_append, List.map_cons]
    refine ⟨h.shaped, ?_, fun v hv => h.transit v ?_, ?_, ?_, h.untouched, h.reads⟩
    · intro v hv
      rcases List.mem_append.mp hv with hv | hv
      · exact h.queue v hv
      · rw [List.mem_singleton.mp hv]
        refine h.transit u (List.mem_append_right _ ?_)
        rw [hmap]
        simp
    · simp only [inTransit, List.map_append, List.mem_append] at hv
      simp only [inTransit, hmap, List.mem_append, List.mem_cons]
      tauto
    · simp [DB.enqueue, h.entered_eq]
    · refine h.swapped_perm.trans ?_
      rw [hmap, List.map_append, List.append_assoc]
      exact List.Perm.append_left _ List.perm_middle
  | @dequeue u q hf hq =>
    have hu : u ∈ s.db.flushQueue := by rw [hq]; exact List.mem_cons_self
    refine ⟨h.shaped, fun v hv => h.queue v ?_, ?_, ?_, h.swapped_perm, h.untouched,
      h.reads⟩
    · rw [hq]
      exact List.mem_cons_of_mem _ hv
    · intro v hv
      simp only [inTransit, Option.toList_some, List.singleton_append] at hv
      rcases List.mem_cons.mp hv with rfl | hv
      · exact h.queue v hu
      · exact h.transit v (List.mem_append_right _ hv)
    · rw [h.entered_eq, hf, hq]
      rfl
  | @toSST u db cs hf hdb =>
    have hu : u.entries ≠ [] := h.transit u (List.mem_append_left _ (by rw [hf]; simp))
    obtain ⟨db', cs', heq, hfl⟩ := DB.exists_flushed cfg _ h.shaped hu
    obtain ⟨rfl, rfl⟩ := Prod.mk.inj (Option.some.inj (hdb.symm.trans heq))
    refine ⟨hfl.shaped h.shaped, ?_, ?_, ?_, h.swapped_perm, by simp, ?_⟩
    · rw [hfl.flushQueue_eq]
      exact h.queue
    · intro v hv
      exact h.transit v (List.mem_append_right _ hv)
    · rw [h.entered_eq, hf, hfl.flushQueue_eq]
      simp
    · intro k
      rw [hfl.memtable_eq]
      exact h.reads k

theorem run_inv {cfg : DBConfig} {files : Files} {as : List Section} {s : Conc}
    (hr : run (step cfg) (init files) as = some s) : s.Inv :=
  run_invariant (inv_init files) (fun _ _ _ h _ hs => h.step hs) hr (stepsOk_true _ as)

/-! ### Reads of the tables -/

/-- What lookups in the tables rely on: no empty key anywhere. -/
structure KeyInv (s : Conc) : Prop where
  manifest : s.db.manifest.WellFormed
  memtable : ∀ e ∈ s.db.memtable.entries, e.1 ≠ []
  tables : ∀ t, t ∈ s.inTransit ∨ t ∈ s.db.flushQueue → ∀ e ∈ t.entries, e.1 ≠ []
  /-- The tables read as the flushed memtables, the last one first. -/
  manifest_get : ∀ k, s.db.manifest.get k = DB.pendingGet s.flushed k

theorem keyInv_init (files : Files) : (init files).KeyInv where
  manifest := (DB.valid_new files).manifest
  memtable := DB.empty_keys
  tables := by simp [init, inTransit, DB.new]
  manifest_get _ := rfl

theorem KeyInv.step {cfg : DBConfig} {s t : Conc} {a : Section} (h : s.KeyInv) (hi : s.Inv)
    (ha : a.KeyOk) (hstep : s.step cfg a = some t) : t.KeyInv := by
  cases stepped_of_step hstep with
  | @write i key value overs hidle hover =>
    exact ⟨h.manifest, DB.memtable_put_keys h.memtable ha value, h.tables, h.manifest_get⟩
  | keep hi hle => exact ⟨h.manifest, h.memtable, h.tables, h.manifest_get⟩
  | @swap i hi hlt =>
    refine ⟨h.manifest, DB.empty_keys, ?_, h.manifest_get⟩
    intro u hu
    simp only [inTransit, List.map_append, List.map_singleton, ← List.append_assoc] at hu
    rcases hu with hu | hu
    · rcases List.mem_append.mp hu with hu | hu
      · exact h.tables u (Or.inl hu)
      · rw [List.mem_singleton.mp hu]
        exact h.memtable
    · exact h.tables u (Or.inr hu)
  | @enqueue i u p q hsplit hp =>
    refine ⟨h.manifest, h.memtable, fun v hv => h.tables v ?_, h.manifest_get⟩
    simp only [inTransit, List.map_append, List.mem_append, DB.enqueue, List.mem_singleton] at hv
    simp only [inTransit, hsplit, List.map_append, List.map_cons, List.mem_append, List.mem_cons]
    tauto
  | @dequeue u q hf hq =>
    refine ⟨h.manifest, h.memtable, fun v hv => h.tables v ?_, h.manifest_get⟩
    simp only [inTransit, Option.toList_some, List.mem_append, List.mem_singleton] at hv
    simp only [inTransit, hf, hq, List.mem_append, List.mem_cons]
    tauto
  | @toSST u db cs hf hdb =>
    have hmem : u ∈ s.inTransit := List.mem_append_left _ (by rw [hf]; simp)
    have hu : DB.Flushable u := ⟨hi.transit u hmem, h.tables u (Or.inl hmem)⟩
    obtain ⟨db', cs', heq, hfl⟩ := DB.exists_flushed cfg _ h.manifest.toShaped hu.1
    obtain ⟨rfl, rfl⟩ := Prod.mk.inj (Option.some.inj (hdb.symm.trans heq))
    obtain ⟨hwf, hget⟩ := hfl.reads h.manifest hu
    refine ⟨hwf, ?_, fun v hv => h.tables v ?_, ?_⟩
    · rw [hfl.memtable_eq]
      exact h.memtable
    · rw [hfl.flushQueue_eq] at hv
      exact hv.imp_left (List.mem_append_right _)
    · intro k
      rw [hget, DB.pendingGet_concat, h.manifest_get]

theorem run_keyInv {cfg : DBConfig} {files : Files} {as : List Section} {s : Conc}
    (hr : run (step cfg) (init files) as = some s) (hk : ∀ a ∈ as, a.KeyOk) : s.KeyInv := by
  induction as using List.reverseRecOn generalizing s with
  | nil =>
    obtain rfl := Option.some.inj hr
    exact keyInv_init files
  | append_singleton as a ih =>
    obtain ⟨t, ht, hstep⟩ := run_concat.mp hr
    exact (ih ht fun b hb => hk b (List.mem_append_left _ hb)).step (run_inv ht)
      (hk a (List.mem_append_right _ (List.mem_singleton_self a))) hstep

/-! ### Order -/

/-- The memtables entered the queue in the order of their swaps: those still with a
writer are the last ones. -/
def InOrder (s : Conc) : Prop := s.swapped = s.entered ++ s.pendingFlush.map Prod.snd

/-- A writer enqueues only when no earlier swap is still waiting. -/
def EnqueueOk (s : Conc) : Section → Prop
  | .enqueue i => s.pendingFlush.head?.map Prod.fst = some i
  | _ => True

instance (s : Conc) : DecidablePred s.EnqueueOk
  | .write _ _ _ => isTrue trivial
  | .swap _ => isTrue trivial
  | .enqueue i => inferInstanceAs (Decidable (s.pendingFlush.head?.map Prod.fst = some i))
  | .dequeue => isTrue trivial
  | .toSST => isTrue trivial

/-- What lookups rely on: nobody writes the empty key, and no flush writes over a file that it
reads. -/
def LookupOk (cfg : DBConfig) (s : Conc) : Section → Prop
  | .write _ key _ => key ≠ []
  | .toSST => ∀ t ∈ s.flushing, s.db.ToSSTOk cfg t
  | _ => True

instance (cfg : DBConfig) (s : Conc) : DecidablePred (s.LookupOk cfg)
  | .write _ key _ => inferInstanceAs (Decidable (key ≠ []))
  | .swap _ => isTrue trivial
  | .enqueue _ => isTrue trivial
  | .dequeue => isTrue trivial
  | .toSST => inferInstanceAs (Decidable (∀ t ∈ s.flushing, s.db.ToSSTOk cfg t))

theorem LookupOk.keyOk {cfg : DBConfig} {s : Conc} {a : Section} (h : s.LookupOk cfg a) :
    a.KeyOk := by
  cases a with
  | write i key value => exact h
  | _ => trivial

theorem InOrder.step {cfg : DBConfig} {s t : Conc} {a : Section} (h : s.InOrder)
    (ha : s.EnqueueOk a) (hstep : s.step cfg a = some t) : t.InOrder := by
  cases stepped_of_step hstep with
  | write hidle hover => exact h
  | keep hi hle => exact h
  | swap hi hlt =>
    rw [InOrder] at h ⊢
    simp [h]
  | @enqueue i u p q hsplit hp =>
    -- the thread at the head of the list is the one that enqueues, so nothing precedes it
    have hnil : p = [] := by
      cases p with
      | nil => rfl
      | cons x p =>
        rw [EnqueueOk, hsplit] at ha
        exact absurd (by simpa using ha) (hp x List.mem_cons_self)
    subst hnil
    rw [InOrder, hsplit] at h
    rw [InOrder]
    simp [h]
  | dequeue hf hq => exact h
  | toSST hf hdb => exact h

theorem run_inOrder {cfg : DBConfig} {files : Files} {as : List Section} {s : Conc}
    (hr : run (step cfg) (init files) as = some s)
    (hok : StepsOk (step cfg) EnqueueOk (init files) as) :
    s.InOrder :=
  run_invariant (show InOrder (init files) from rfl) (fun _ _ _ hi ha hs => hi.step ha hs) hr hok

/-- **With the orders equal and nothing in transit a lookup finds the last write.** -/
theorem get_eq_lastWritten {s : Conc} (h : s.Inv) (ho : s.InOrder) (ht : s.inTransit = [])
    (hm : ∀ k, s.db.manifest.get k = DB.pendingGet s.flushed k) (k : Bytes) :
    s.db.get k = (lastWritten s.writes k).bind DB.hide := by
  obtain ⟨hf, hp⟩ := List.append_eq_nil_iff.mp ht
  have hswapped : s.swapped = s.flushed ++ s.db.flushQueue := by
    rw [ho, h.entered_eq, hf, hp]
    simp
  rw [DB.get_eq, ← h.reads k, DB.raw, hm, hswapped, DB.pendingGet_append]

end Conc

end Mokv
