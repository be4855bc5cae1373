import Mokv.DB.Custody

/-!
# Lookups among concurrent writers

`DB::Get` has three sections of its own: it reads the active memtable under
`memtable_lock_`, then the queue under `flush_mutex_`, then the newest manifest under
`manifest_lock_`.  Between them writers and the flush thread go on, so the three sections
find three states of a run.

Memtables move in the direction in which a lookup reads, and the states of a run in which
the active memtable was just swapped out read as the beginnings of the swapped ones
(`exists_moment`).  So a lookup finds what was last written to its key at some moment of
the run, which may lie before the lookup began (`get_at_some_moment`).  It is one of the
lookup itself as long as no memtable with the key is out of its sight: with a writer, or
with the flush thread.
-/

namespace Mokv

open LSM Lib

namespace Conc

variable {cfg : DBConfig} {files : Files} {s t : Conc} {as : List Section} {key : Bytes}

/-- `DB::Get`, whose sections find the states `s₁`, `s₂` and `s₃`. -/
def getAcross (s₁ s₂ s₃ : Conc) (key : Bytes) : Option Bytes :=
  match s₁.db.memtable.get key with
  | some value => DB.hide value
  | none =>
    match DB.pendingGet s₂.db.flushQueue key with
    | some value => DB.hide value
    | none =>
      match s₃.db.manifest.get key with
      | some value => DB.hide value
      | none => none

theorem getAcross_self (s : Conc) (key : Bytes) : getAcross s s s key = s.db.get key := rfl

/-- What the writers still have at the second section does not have the key, and what the
flush thread has then does not, or is a table at the third. -/
structure InSight (s₂ s₃ : Conc) (key : Bytes) : Prop where
  pending : ∀ m ∈ s₂.pendingFlush.map Prod.snd, m.get key = none
  flushing : (∀ m ∈ s₂.flushing, m.get key = none) ∨ s₂.flushed.length < s₃.flushed.length

/-! ### Moments of a run -/

theorem history_of_step {a : Section} (h : s.step cfg a = some t) :
    s.swapped <+: t.swapped ∧ s.flushed <+: t.flushed := by
  cases stepped_of_step h with
  | write hidle hover => exact ⟨List.prefix_refl _, List.prefix_refl _⟩
  | keep hi hle => exact ⟨List.prefix_refl _, List.prefix_refl _⟩
  | swap hi hlt => exact ⟨List.prefix_append _ _, List.prefix_refl _⟩
  | enqueue hsplit hp => exact ⟨List.prefix_refl _, List.prefix_refl _⟩
  | dequeue hf hq => exact ⟨List.prefix_refl _, List.prefix_refl _⟩
  | toSST hf hdb => exact ⟨List.prefix_refl _, List.prefix_append _ _⟩

theorem history_of_run (h : run (step cfg) s as = some t) :
    s.swapped <+: t.swapped ∧ s.flushed <+: t.flushed :=
  run_invariant (I := fun t : Conc => s.swapped <+: t.swapped ∧ s.flushed <+: t.flushed)
    ⟨List.prefix_refl _, List.prefix_refl _⟩
    (fun _ _ _ hi _ hs => ⟨hi.1.trans (history_of_step hs).1, hi.2.trans (history_of_step hs).2⟩)
    h (stepsOk_true s as)

theorem Inv.run (h : s.Inv) (hr : Lib.run (Conc.step cfg) s as = some t) : t.Inv :=
  run_invariant h (fun _ _ _ hi _ hs => hi.step hs) hr (stepsOk_true s as)

/-- Each beginning of the swapped memtables was once all of them, with nothing of the key in
the active one: after the swap of its last memtable, or at the start. -/
theorem exists_moment (hs : s.db.memtable.get key = none) (h : run (step cfg) s as = some t)
    {q : List MemTable} (hsq : s.swapped <+: q) (hq : q <+: t.swapped) :
    ∃ p u, p <+: as ∧ run (step cfg) s p = some u ∧ u.swapped = q ∧
      u.db.memtable.get key = none := by
  induction as using List.reverseRecOn generalizing t with
  | nil =>
    obtain rfl := Option.some.inj h
    exact ⟨[], s, List.prefix_refl _, rfl, hsq.eq_of_length_le hq.length_le, hs⟩
  | append_singleton as a ih =>
    obtain ⟨v, hv, hstep⟩ := run_concat.mp h
    by_cases hold : q <+: v.swapped
    · obtain ⟨p, u, hp, hu⟩ := ih hv hold
      exact ⟨p, u, hp.trans (List.prefix_append _ _), hu⟩
    · cases stepped_of_step hstep with
      | swap hi hlt =>
        refine ⟨_, _, List.prefix_refl _, h, ?_, rfl⟩
        rcases List.prefix_concat_iff.mp hq with rfl | hq
        · rfl
        · exact absurd hq hold
      | write hidle hover => exact absurd hq hold
      | keep hi hle => exact absurd hq hold
      | enqueue hsplit hp => exact absurd hq hold
      | dequeue hf hdq => exact absurd hq hold
      | toSST hf hdb => exact absurd hq hold

theorem pendingGet_append_of_none (q : List MemTable) {rest : List MemTable}
    (h : ∀ m ∈ rest, m.get key = none) :
    DB.pendingGet (q ++ rest) key = DB.pendingGet q key := by
  have hnone : DB.pendingGet rest key = none := by
    rw [DB.pendingGet, List.findSome?_eq_none_iff]
    exact fun m hm => h m (List.mem_reverse.mp hm)
  rw [DB.pendingGet_append, hnone, Option.none_or]

/-- Where a lookup has read a beginning of the swapped memtables, it found the last write of
some moment: of one before it began only if it missed the key in those swapped by then. -/
theorem exists_moment_of_pendingGet (hinv : s.Inv) (hs : s.db.memtable.get key = none)
    (h : run (step cfg) s as = some t) {q : List MemTable}
    (hq : q <+: t.swapped)
    (hrest : ∀ rest, s.swapped = q ++ rest → ∀ m ∈ rest, m.get key = none) :
    ∃ p u, p <+: as ∧ run (step cfg) s p = some u ∧
      DB.pendingGet q key = lastWritten u.writes key := by
  rcases List.prefix_or_prefix_of_prefix (history_of_run h).1 hq with hsq | ⟨rest, heq⟩
  · obtain ⟨p, u, hp, hu, rfl, hmem⟩ := exists_moment hs h hsq hq
    refine ⟨p, u, hp, hu, ?_⟩
    rw [← (hinv.run hu).reads key, hmem, Option.none_or]
  · refine ⟨[], s, List.nil_prefix, rfl, ?_⟩
    rw [← hinv.reads key, hs, Option.none_or, ← heq,
      pendingGet_append_of_none q (hrest rest heq.symm)]

/-! ### What a lookup reads -/

theorem Inv.flushed_isPrefix (h : s.Inv) (ho : s.InOrder) : s.flushed <+: s.swapped := by
  rw [ho, h.entered_eq, List.append_assoc]
  exact List.prefix_append _ _

/-- A lookup that misses the active memtable has read what entered the queue by its second
section, or what was flushed by its third. -/
theorem getAcross_of_none {s₁ s₂ s₃ : Conc} (h₂ : s₂.Inv) (h₃ : s₃.KeyInv)
    (hm : s₁.db.memtable.get key = none) :
    getAcross s₁ s₂ s₃ key = (DB.pendingGet s₂.entered key).bind DB.hide ∨
      DB.pendingGet s₂.db.flushQueue key = none ∧
        getAcross s₁ s₂ s₃ key = (DB.pendingGet s₃.flushed key).bind DB.hide := by
  rw [getAcross, hm]
  cases hq : DB.pendingGet s₂.db.flushQueue key with
  | some value =>
    rw [h₂.entered_eq, ← List.append_assoc, DB.pendingGet_append, hq]
    exact Or.inl rfl
  | none =>
    rw [h₃.manifest_get]
    refine Or.inr ⟨rfl, ?_⟩
    cases DB.pendingGet s₃.flushed key <;> rfl

/-- What was swapped out by the second section and is no table at the third does not have
the key, if the lookup missed it in the queue. -/
theorem InSight.none_of_mem {s₂ s₃ : Conc} (h : InSight s₂ s₃ key) (hinv : s₂.Inv)
    (ho : s₂.InOrder) (hq : DB.pendingGet s₂.db.flushQueue key = none)
    (hfl : s₂.flushed <+: s₃.flushed) (hsw : s₂.swapped <+: s₃.swapped)
    (hfs : s₃.flushed <+: s₃.swapped) {rest : List MemTable}
    (hrest : s₃.flushed ++ rest <+: s₂.swapped) : ∀ m ∈ rest, m.get key = none := by
  have hswapped : s₂.swapped = s₂.flushed ++ (s₂.flushing.toList ++ (s₂.db.flushQueue ++
      s₂.pendingFlush.map Prod.snd)) := by
    rw [ho, hinv.entered_eq]
    simp only [List.append_assoc]
  have hlate : ∀ m ∈ s₂.db.flushQueue ++ s₂.pendingFlush.map Prod.snd, m.get key = none := by
    intro m hm
    rcases List.mem_append.mp hm with hm | hm
    · exact List.findSome?_eq_none_iff.mp hq m (List.mem_reverse.mpr hm)
    · exact h.pending m hm
  have hmem : ∀ {base late : List MemTable}, base <+: s₃.flushed → s₂.swapped = base ++ late →
      ∀ m ∈ rest, m ∈ late := by
    rintro base late ⟨w, hw⟩ heq m hm
    rw [heq, ← hw, List.append_assoc, List.prefix_append_right_inj] at hrest
    exact hrest.subset (List.mem_append_right w hm)
  intro m hm
  rcases h.flushing with hnone | hlt
  · rcases List.mem_append.mp (hmem hfl hswapped m hm) with hm | hm
    · exact hnone m (Option.mem_toList.mp hm)
    · exact hlate m hm
  · -- the flush thread has finished its memtable
    have hdone : s₂.flushed ++ s₂.flushing.toList <+: s₂.swapped := by
      rw [hswapped, ← List.append_assoc]
      exact List.prefix_append _ _
    refine hlate m (hmem (List.prefix_of_prefix_length_le (hdone.trans hsw) hfs ?_) ?_ m hm)
    · have hone : s₂.flushing.toList.length ≤ 1 := by
        cases s₂.flushing <;> simp
      rw [List.length_append]
      omega
    · rw [hswapped, List.append_assoc]

/-- **A lookup finds what was written last at some moment.**  Whatever writers and the flush
thread do between its sections, it finds what was last written to the key at some moment of the
run until its end; and at a moment between its first and its last section, if no memtable with
the key is out of its sight (as long as no writer overtakes another, nobody writes the empty key
and no flush writes over a file that it reads). -/
theorem get_at_some_moment (cfg : DBConfig) (files : Files) (pre as bs : List Section)
    (s₁ s₂ s₃ : Conc) (h₁ : run (step cfg) (init files) pre = some s₁)
    (h₂ : run (step cfg) s₁ as = some s₂) (h₃ : run (step cfg) s₂ bs = some s₃)
    (hok : StepsOk (step cfg) EnqueueOk (init files) (pre ++ as ++ bs))
    (hlookup : StepsOk (step cfg) (LookupOk cfg) (init files) (pre ++ as ++ bs)) (key : Bytes) :
    (∃ p u, p <+: pre ++ as ++ bs ∧ run (step cfg) (init files) p = some u ∧
      getAcross s₁ s₂ s₃ key = (lastWritten u.writes key).bind DB.hide) ∧
    (InSight s₂ s₃ key → ∃ p u, p <+: as ++ bs ∧ run (step cfg) s₁ p = some u ∧
      getAcross s₁ s₂ s₃ key = (lastWritten u.writes key).bind DB.hide) := by
  have hr₂ : run (step cfg) (init files) (pre ++ as) = some s₂ := by
    rw [run_append, h₁, Option.bind_some, h₂]
  have hr₃ : run (step cfg) (init files) (pre ++ as ++ bs) = some s₃ := by
    rw [run_append, hr₂, Option.bind_some, h₃]
  have hr₁₃ : run (step cfg) s₁ (as ++ bs) = some s₃ := by
    rw [run_append, h₂, Option.bind_some, h₃]
  have hkeys : ∀ a ∈ pre ++ as ++ bs, a.KeyOk := hlookup.forall_mem (fun _ _ ha => ha.keyOk) hr₃
  have hinv₁ : s₁.Inv := run_inv h₁
  have hinv₂ : s₂.Inv := run_inv hr₂
  have ho₂ : s₂.InOrder := run_inOrder hr₂ (stepsOk_append.mp hok).1
  have ho₃ : s₃.InOrder := run_inOrder hr₃ hok
  -- at the start nothing was swapped out
  have hstart : ∀ q rest : List MemTable, (init files).swapped = q ++ rest →
      ∀ m ∈ rest, m.get key = none := by
    intro q rest hrest m hm
    rw [(List.append_eq_nil_iff.mp hrest.symm).2] at hm
    cases hm
  cases hm : s₁.db.memtable.get key with
  | some value =>
    have hlast : getAcross s₁ s₂ s₃ key = (lastWritten s₁.writes key).bind DB.hide := by
      rw [← hinv₁.reads key, getAcross, hm]
      rfl
    refine ⟨⟨pre, s₁, ?_, h₁, hlast⟩, fun _ => ⟨[], s₁, List.nil_prefix, rfl, hlast⟩⟩
    rw [List.append_assoc]
    exact List.prefix_append _ _
  | none =>
    rcases getAcross_of_none hinv₂ (run_keyInv hr₃ hkeys) hm with hget | ⟨hq, hget⟩
    · -- found in the queue, or before it
      have hq : s₂.entered <+: s₂.swapped := by
        rw [ho₂]
        exact List.prefix_append _ _
      refine ⟨?_, fun hsight => ?_⟩
      · obtain ⟨p, u, hp, hu, hlast⟩ := exists_moment_of_pendingGet (inv_init files) rfl hr₂ hq
          (hstart s₂.entered)
        exact ⟨p, u, hp.trans (List.prefix_append _ _), hu, by rw [hget, hlast]⟩
      · have hrest : ∀ rest, s₁.swapped = s₂.entered ++ rest → ∀ m ∈ rest, m.get key = none := by
          intro rest hrest m hm
          have hpre := (history_of_run h₂).1
          rw [hrest, ho₂, List.prefix_append_right_inj] at hpre
          exact hsight.pending m (hpre.subset hm)
        obtain ⟨p, u, hp, hu, hlast⟩ := exists_moment_of_pendingGet hinv₁ hm h₂ hq hrest
        exact ⟨p, u, hp.trans (List.prefix_append _ _), hu, by rw [hget, hlast]⟩
    · -- found in a table, or nowhere
      have hfs := (run_inv hr₃).flushed_isPrefix ho₃
      refine ⟨?_, fun hsight => ?_⟩
      · obtain ⟨p, u, hp, hu, hlast⟩ := exists_moment_of_pendingGet (inv_init files) rfl hr₃ hfs
          (hstart s₃.flushed)
        exact ⟨p, u, hp, hu, by rw [hget, hlast]⟩
      · have hrest : ∀ rest, s₁.swapped = s₃.flushed ++ rest → ∀ m ∈ rest, m.get key = none := by
          intro rest hrest
          obtain ⟨hsw, hfl⟩ := history_of_run h₃
          refine hsight.none_of_mem hinv₂ ho₂ hq hfl hsw hfs ?_
          rw [← hrest]
          exact (history_of_run h₂).1
        obtain ⟨p, u, hp, hu, hlast⟩ := exists_moment_of_pendingGet hinv₁ hm hr₁₃ hfs hrest
        exact ⟨p, u, hp, hu, by rw [hget, hlast]⟩

/-- A lookup of `[1]` that begins right after the swap, while the memtable is on its way. -/
theorem get_at_some_moment_crossing :
    ∃ s₁ s₂ s₃, run (step smallConfig) (init fun _ => none) crossing = some s₁ ∧
      run (step smallConfig) s₁ [.enqueue 0, .write 0 [1] [11]] = some s₂ ∧
      run (step smallConfig) s₂ [.dequeue, .toSST] = some s₃ ∧
      (∃ p u, p <+: crossing ++ [.enqueue 0, .write 0 [1] [11]] ++ [.dequeue, .toSST] ∧
        run (step smallConfig) (init fun _ => none) p = some u ∧
        getAcross s₁ s₂ s₃ [1] = (lastWritten u.writes [1]).bind DB.hide) ∧
      (InSight s₂ s₃ [1] →
        ∃ p u, p <+: [.enqueue 0, .write 0 [1] [11]] ++ [.dequeue, .toSST] ∧
          run (step smallConfig) s₁ p = some u ∧
          getAcross s₁ s₂ s₃ [1] = (lastWritten u.writes [1]).bind DB.hide) ∧
      InSight s₂ s₃ [1] ∧ getAcross s₁ s₂ s₃ [1] = some [10] ∧
      lastWritten s₃.writes [1] = some [11] :=
  ⟨_, _, _, rfl, rfl, rfl,
    (get_at_some_moment smallConfig (fun _ => none) crossing _ _ _ _ _ rfl rfl rfl (by decide)
      (by decide) [1]).1,
    (get_at_some_moment smallConfig (fun _ => none) crossing _ _ _ _ _ rfl rfl rfl (by decide)
      (by decide) [1]).2, ⟨by decide, Or.inl nofun⟩, by decide, by decide⟩

end Conc

end Mokv
