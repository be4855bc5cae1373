import Mokv.DB.Concurrent

/-!
# Custody and order of swapped-out memtables

A memtable that was swapped out should be where a lookup can see it, and the memtables
should reach level 0 in the order of the swaps.  Neither is so in every run.

* Right after a swap the memtable is only in the writer's `pending_flush`, and right
  after it left the queue only with the flush thread.  A run keeps every memtable in
  custody exactly when no swap happens (`custody_in_every_state_iff`); a single state
  does exactly when no memtable is in transit (`Conc.Inv.custody_iff`).
* The swap is under `memtable_lock_` and the enqueue under `flush_mutex_`, so a second
  writer can overtake the first in between, and its older values then hide newer ones.
  Runs without overtaking keep the order (`flush_order_of_no_overtaking`).
-/

namespace Mokv

open LSM Lib

namespace Conc

/-! ### Custody -/

/-- Every swapped-out memtable is in the queue or has become a table of the newest
manifest. -/
def Custody (s : Conc) : Prop := s.swapped.Perm (s.flushed ++ s.db.flushQueue)

theorem Inv.custody_iff {s : Conc} (h : s.Inv) : s.Custody ↔ s.inTransit = [] := by
  have hp := h.swapped_perm
  rw [h.entered_eq] at hp
  constructor
  · intro hc
    have hlen := (hc.symm.trans hp).length_eq
    simp only [List.length_append] at hlen
    refine List.append_eq_nil_iff.mpr ⟨List.length_eq_zero_iff.mp ?_, List.length_eq_zero_iff.mp ?_⟩
    · omega
    · omega
  · intro ht
    obtain ⟨hf, hq⟩ := List.append_eq_nil_iff.mp ht
    rw [hf, hq] at hp
    simpa [Custody] using hp

/-- The section swaps the memtable out. -/
def Swaps (cfg : DBConfig) (s : Conc) (a : Section) : Prop :=
  ∃ i, a = .swap i ∧ i ∈ s.overLimit ∧ cfg.memtableMaxSize < s.db.memtable.binarySize

theorem Swaps.exists_step {cfg : DBConfig} {s : Conc} {a : Section} (h : Swaps cfg s a) :
    ∃ t, s.step cfg a = some t ∧ t.inTransit ≠ [] := by
  obtain ⟨i, rfl, hi, hlt⟩ := h
  refine ⟨_, by rw [step, if_pos hi, DB.swap, if_pos hlt], ?_⟩
  simp [inTransit]

theorem swapped_eq_nil_step {cfg : DBConfig} {s t : Conc} {a : Section} (h : s.swapped = [])
    (ha : ¬ Swaps cfg s a) (hstep : s.step cfg a = some t) : t.swapped = [] := by
  cases stepped_of_step hstep with
  | swap hi hlt => exact absurd ⟨_, rfl, hi, hlt⟩ ha
  | write hidle hover => exact h
  | keep hi hle => exact h
  | enqueue hsplit hp => exact h
  | dequeue hf hq => exact h
  | toSST hf hdb => exact h

theorem Inv.inTransit_eq_nil {s : Conc} (h : s.Inv) (hs : s.swapped = []) :
    s.inTransit = [] := by
  have hp := h.swapped_perm
  rw [hs, h.entered_eq, List.nil_perm] at hp
  obtain ⟨hp1, hp2⟩ := List.append_eq_nil_iff.mp hp
  obtain ⟨hp3, -⟩ := List.append_eq_nil_iff.mp (List.append_eq_nil_iff.mp hp1).2
  exact List.append_eq_nil_iff.mpr ⟨hp3, hp2⟩

/-! ### One writer -/

end Conc

/-- The writer is thread 0. -/
def Section.Solo : Section → Prop
  | .write i _ _ => i = 0
  | .swap i => i = 0
  | .enqueue i => i = 0
  | .dequeue => True
  | .toSST => True

instance : DecidablePred Section.Solo
  | .write i _ _ => inferInstanceAs (Decidable (i = 0))
  | .swap i => inferInstanceAs (Decidable (i = 0))
  | .enqueue i => inferInstanceAs (Decidable (i = 0))
  | .dequeue => isTrue trivial
  | .toSST => isTrue trivial

namespace Conc

/-- The one writer holds at most one memtable, and none before the swap. -/
structure OneWriter (s : Conc) : Prop where
  limit : ∀ i ∈ s.overLimit, i = 0
  pending : ∀ p ∈ s.pendingFlush, p.1 = 0
  place : s.overLimit.length + s.pendingFlush.length ≤ 1

theorem OneWriter.enqueueOk {cfg : DBConfig} {s t : Conc} {a : Section} (h : s.OneWriter)
    (hstep : s.step cfg a = some t) : s.EnqueueOk a := by
  cases stepped_of_step hstep with
  | @enqueue i u p q hsplit hp =>
    have hlen := h.place
    rw [hsplit, List.length_append, List.length_cons] at hlen
    obtain rfl : p = [] := List.length_eq_zero_iff.mp (by omega)
    simp [EnqueueOk, hsplit]
  | write hidle hover => trivial
  | keep hi hle => trivial
  | swap hi hlt => trivial
  | dequeue hf hq => trivial
  | toSST hf hdb => trivial

theorem OneWriter.idle {s : Conc} (h : s.OneWriter) (hidle : s.busy 0 = false) :
    s.overLimit = [] ∧ s.pendingFlush = [] := by
  simp only [busy, List.mem_map, Bool.decide_or, Bool.or_eq_false_iff,
    decide_eq_false_iff_not] at hidle
  constructor
  · refine List.eq_nil_iff_forall_not_mem.mpr fun i hi => hidle.1 ?_
    rw [← h.limit i hi]
    exact hi
  · exact List.eq_nil_iff_forall_not_mem.mpr fun p hp => hidle.2 ⟨p, hp, h.pending p hp⟩

theorem OneWriter.step {cfg : DBConfig} {s t : Conc} {a : Section} (h : s.OneWriter)
    (ha : a.Solo) (hstep : s.step cfg a = some t) : t.OneWriter := by
  cases stepped_of_step hstep with
  | write hidle hover =>
    obtain rfl : _ = 0 := ha
    obtain ⟨h1, h2⟩ := h.idle hidle
    rw [h1] at hover
    rcases hover with rfl | rfl
    · exact ⟨by simp, h.pending, by simp [h2]⟩
    · exact ⟨by simp, h.pending, by simp [h2]⟩
  | keep hi hle =>
    refine ⟨fun j hj => h.limit j (List.mem_of_mem_erase hj), h.pending, ?_⟩
    exact Nat.le_trans (Nat.add_le_add_right (List.length_erase_le ..) _) h.place
  | swap hi hlt =>
    obtain rfl : _ = 0 := ha
    refine ⟨fun j hj => h.limit j (List.mem_of_mem_erase hj), ?_, ?_⟩
    · intro p hp
      rcases List.mem_append.mp hp with hp | hp
      · exact h.pending p hp
      · rw [List.mem_singleton.mp hp]
    · have hpos := List.length_pos_of_mem hi
      have hplace := h.place
      simp only [List.length_erase_of_mem hi, List.length_append, List.length_singleton]
      omega
  | @enqueue i u p q hsplit hp =>
    have hplace := h.place
    rw [hsplit, List.length_append, List.length_cons] at hplace
    refine ⟨h.limit, fun x hx => h.pending x ?_, ?_⟩
    · rw [hsplit]
      simp only [List.mem_append, List.mem_cons] at hx ⊢
      tauto
    · simp only [List.length_append]
      omega
  | dequeue hf hq => exact ⟨h.limit, h.pending, h.place⟩
  | toSST hf hdb => exact ⟨h.limit, h.pending, h.place⟩

/-- **With one writer the orders agree.** -/
theorem run_inOrder_of_solo {cfg : DBConfig} {files : Files} {as : List Section} {s : Conc}
    (hr : run (step cfg) (init files) as = some s) (hsolo : ∀ a ∈ as, a.Solo) :
    s.OneWriter ∧ s.InOrder := by
  induction as using List.reverseRecOn generalizing s with
  | nil =>
    obtain rfl := Option.some.inj hr
    exact ⟨⟨by simp [init], by simp [init], by simp [init]⟩, rfl⟩
  | append_singleton as a ih =>
    obtain ⟨t, ht, hstep⟩ := run_concat.mp hr
    obtain ⟨h1, h2⟩ := ih ht fun b hb => hsolo b (List.mem_append_left _ hb)
    exact ⟨h1.step (hsolo a (List.mem_append_right _ (List.mem_singleton_self a))) hstep,
      h2.step (h1.enqueueOk hstep) hstep⟩

/-- The state keeps custody, and a lookup finds the last write applied. -/
def InCustody (s : Conc) : Prop :=
  s.Custody ∧ ∀ k, s.db.get k = (lastWritten s.writes k).bind DB.hide

theorem Inv.manifest_get_of_swapped {s : Conc} (h : s.Inv) (hs : s.swapped = []) (k : Bytes) :
    s.db.manifest.get k = DB.pendingGet s.flushed k := by
  have hp := h.swapped_perm
  rw [hs, h.entered_eq, List.nil_perm, List.append_assoc] at hp
  have hnil : s.flushed = [] := (List.append_eq_nil_iff.mp hp).1
  rw [h.untouched hnil, hnil]
  rfl

/-- **When a run keeps custody.**  With one writer, all states of a run keep every
swapped-out memtable in custody exactly when no swap happens in it.  In a single state
custody means that no memtable is in transit, and then lookups are right (the empty key
aside, which a compaction takes for an unset bound). -/
theorem custody_in_every_state_iff (cfg : DBConfig) (files : Files) (as : List Section)
    (hsolo : ∀ a ∈ as, a.Solo) :
    ((∀ p s, p <+: as → run (step cfg) (init files) p = some s → s.InCustody) ↔
      StepsOk (step cfg) (fun s a => ¬ Swaps cfg s a) (init files) as) ∧
    ∀ s, run (step cfg) (init files) as = some s →
      (s.Custody ↔ s.inTransit = []) ∧
      ((∀ a ∈ as, a.KeyOk) → s.inTransit = [] →
        ∀ k, s.db.get k = (lastWritten s.writes k).bind DB.hide) := by
  refine ⟨⟨?_, ?_⟩, ?_⟩
  · intro hall
    -- a swap would leave the next state without custody
    clear hsolo
    induction as using List.reverseRecOn with
    | nil => trivial
    | append_singleton as a ih =>
      refine stepsOk_concat.mpr
        ⟨ih fun p s hp => hall p s (hp.trans (List.prefix_append _ _)), ?_⟩
      intro t ht hsw
      obtain ⟨u, hu, htr⟩ := hsw.exists_step
      have hr : run (step cfg) (init files) (as ++ [a]) = some u := run_concat.mpr ⟨t, ht, hu⟩
      exact htr ((run_inv hr).custody_iff.mp (hall _ u (List.prefix_refl _) hr).1)
  · intro hok p s hp hr
    have hinv := run_inv hr
    obtain ⟨-, hord⟩ := run_inOrder_of_solo hr fun a ha => hsolo a (hp.subset ha)
    obtain ⟨rest, rfl⟩ := hp
    have hnil : s.swapped = [] := run_invariant (I := fun s : Conc => s.swapped = []) rfl
      (fun _ _ _ hi ha hs => swapped_eq_nil_step hi ha hs) hr (stepsOk_append.mp hok).1
    have ht := hinv.inTransit_eq_nil hnil
    exact ⟨hinv.custody_iff.mpr ht,
      get_eq_lastWritten hinv hord ht (hinv.manifest_get_of_swapped hnil)⟩
  · intro s hr
    have hinv := run_inv hr
    obtain ⟨-, hord⟩ := run_inOrder_of_solo hr hsolo
    exact ⟨hinv.custody_iff, fun hk ht =>
      get_eq_lastWritten hinv hord ht (run_keyInv hr hk).manifest_get⟩

/-- A put that stays below its limit, and one that crosses it. -/
def crossing : List Section := [.write 0 [1] [10], .write 0 [2] [20, 21, 22], .swap 0]

/-- A limit of four bytes, and the plain format, whose bloom filter for up to two keys
takes 152 bytes. -/
def smallConfig : DBConfig := ⟨4, plainFileSize fun _ => 152⟩

theorem custody_in_every_state_iff_crossing :
    (∀ a ∈ crossing, a.Solo) ∧
    ((∀ p s, p <+: crossing → run (step smallConfig) (init fun _ => none) p = some s →
        s.InCustody) ↔
      StepsOk (step smallConfig) (fun s a => ¬ Swaps smallConfig s a) (init fun _ => none)
        crossing) ∧
    ∀ s, run (step smallConfig) (init fun _ => none) crossing = some s →
      (s.Custody ↔ s.inTransit = []) ∧
      ((∀ a ∈ crossing, a.KeyOk) → s.inTransit = [] →
        ∀ k, s.db.get k = (lastWritten s.writes k).bind DB.hide) :=
  ⟨by decide, custody_in_every_state_iff smallConfig (fun _ => none) crossing (by decide)⟩

/-- **A lookup between swap and enqueue misses the last write.** -/
theorem custody_lost_after_swap :
    ∃ s, run (step smallConfig) (init fun _ => none) crossing = some s ∧ ¬ s.Custody ∧
      lastWritten s.writes [1] = some [10] ∧ [10] ≠ tombstoneValue ∧ s.db.get [1] = none := by
  refine ⟨_, rfl, ?_, by decide, by decide, by decide⟩
  intro hc
  exact absurd hc.length_eq (by decide)

/-! ### Flush order -/

/-- No `Put` and no flush is under way, and the queue is empty. -/
def Done (s : Conc) : Prop :=
  s.overLimit = [] ∧ s.pendingFlush = [] ∧ s.flushing = none ∧ s.db.flushQueue = []

theorem mem_of_lastWritten {pre post : List Entry} {k v w : Bytes}
    (h : lastWritten (pre ++ (k, v) :: post) k = some w) : (k, w) ∈ (k, v) :: post := by
  induction post using List.reverseRecOn with
  | nil =>
    rw [lastWritten_concat, if_pos rfl] at h
    rw [Option.some.inj h]
    exact List.mem_singleton_self _
  | append_singleton post e ih =>
    obtain ⟨k', v'⟩ := e
    rw [← List.cons_append, ← List.append_assoc, lastWritten_concat] at h
    rw [← List.cons_append]
    split at h
    · subst_vars
      rw [Option.some.inj h]
      exact List.mem_append_right _ (List.mem_singleton_self _)
    · exact List.mem_append_left _ (ih h)

/-- **Without overtaking the flush order is the swap order.**  The memtables enter the
queue and become tables in the order of the swaps.  Once everything is done a lookup
finds the last write, not a value that a later write replaced, if nobody wrote the empty key and
no flush wrote over a file that it read. -/
theorem flush_order_of_no_overtaking (cfg : DBConfig) (files : Files) (as : List Section)
    (s : Conc) (hr : run (step cfg) (init files) as = some s)
    (hok : StepsOk (step cfg) EnqueueOk (init files) as) :
    s.entered <+: s.swapped ∧ s.flushed <+: s.swapped ∧
      (StepsOk (step cfg) (LookupOk cfg) (init files) as → s.Done →
        ∀ k, s.db.get k = (lastWritten s.writes k).bind DB.hide ∧
          ∀ v₁ v₂ pre post, s.writes = pre ++ (k, v₂) :: post → (k, v₁) ∉ (k, v₂) :: post →
            s.db.get k ≠ some v₁) := by
  have hinv := run_inv hr
  have hord := run_inOrder hr hok
  have hentered : s.entered <+: s.swapped := by
    rw [hord]
    exact List.prefix_append _ _
  refine ⟨hentered, ?_, ?_⟩
  · refine List.IsPrefix.trans ?_ hentered
    rw [hinv.entered_eq]
    exact List.prefix_append _ _
  · intro hlookup hdone k
    have hk : ∀ a ∈ as, a.KeyOk := hlookup.forall_mem (fun _ _ ha => ha.keyOk) hr
    have hget : s.db.get k = (lastWritten s.writes k).bind DB.hide :=
      get_eq_lastWritten hinv hord (by rw [inTransit, hdone.2.1, hdone.2.2.1]; rfl)
        (run_keyInv hr hk).manifest_get k
    refine ⟨hget, ?_⟩
    intro v₁ v₂ pre post hw hnot hv
    rw [hget, hw] at hv
    obtain ⟨w, hlast, hhide⟩ := Option.bind_eq_some_iff.mp hv
    rw [DB.hide] at hhide
    split at hhide
    · cases hhide
    · rw [← Option.some.inj hhide] at hnot
      exact hnot (mem_of_lastWritten hlast)

/-- Two writers cross the limit one after the other; then both enqueue, in the order
given, and both memtables are flushed. -/
def twoCrossings (first second : Nat) : List Section :=
  [.write 0 [1] [10], .write 1 [2] [20, 21, 22], .swap 1, .write 2 [1] [11, 12, 13, 14], .swap 2,
    .enqueue first, .enqueue second, .dequeue, .toSST, .dequeue, .toSST]

theorem flush_order_twoCrossings :
    ∃ s, run (step smallConfig) (init fun _ => none) (twoCrossings 1 2) = some s ∧
      s.entered <+: s.swapped ∧ s.flushed <+: s.swapped ∧
      (StepsOk (step smallConfig) (LookupOk smallConfig) (init fun _ => none) (twoCrossings 1 2) →
        s.Done →
        ∀ k, s.db.get k = (lastWritten s.writes k).bind DB.hide ∧
          ∀ v₁ v₂ pre post, s.writes = pre ++ (k, v₂) :: post → (k, v₁) ∉ (k, v₂) :: post →
            s.db.get k ≠ some v₁) ∧
      StepsOk (step smallConfig) (LookupOk smallConfig) (init fun _ => none) (twoCrossings 1 2) ∧
      s.Done :=
  ⟨_, rfl,
    (flush_order_of_no_overtaking smallConfig (fun _ => none) (twoCrossings 1 2) _ rfl
      (by decide)).1,
    (flush_order_of_no_overtaking smallConfig (fun _ => none) (twoCrossings 1 2) _ rfl
      (by decide)).2.1,
    (flush_order_of_no_overtaking smallConfig (fun _ => none) (twoCrossings 1 2) _ rfl
      (by decide)).2.2, by decide, rfl, rfl, rfl, rfl⟩

/-- **A writer that overtakes brings an old value back.**  The put of `[10]` is complete
before the put of `[11, 12, 13, 14]` starts, and with everything done the lookup finds
`[10]`. -/
theorem overtaken_flush_resurrects :
    ∃ s, run (step smallConfig) (init fun _ => none) (twoCrossings 2 1) = some s ∧ s.Done ∧
      ¬ s.entered <+: s.swapped ∧
      s.writes = [([1], [10]), ([2], [20, 21, 22]), ([1], [11, 12, 13, 14])] ∧
      s.db.get [1] = some [10] := by
  refine ⟨_, rfl, ⟨rfl, rfl, rfl, rfl⟩, ?_, rfl, by decide⟩
  intro hp
  exact absurd (hp.map MemTable.entries) (by decide)

end Conc

end Mokv
