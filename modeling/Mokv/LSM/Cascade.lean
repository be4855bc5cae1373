import Mokv.LSM.Compaction

/-!
# The compaction cascade

`SizeTieredCompaction(id)` compacts level 0 and goes on to the next level as long as
that one is over its limit.  Every turn writes its table under the same id.

`Cascade` is the cascade as a chain of compactions; `exists_cascade` says that the
code follows one.  What a user needs is read off the chain: the lookups stay
(`Cascade.reads`), the tables left are old ones or carry the id (`Cascade.mem_ssts`),
and if no table carried the id at the start, the last file written under it is the
only one still in use (`Cascade.stored`).
-/

namespace Mokv.LSM

/-- A table being written, and the manifest that is being modified at that moment. -/
structure Creation where
  into : Manifest
  sst : SST

/-- `levels_[i].binary_size() > level_max_binary_size(i)`, for a level that exists. -/
def Manifest.overLimit (m : Manifest) (i : Nat) : Bool :=
  (m.levels[i]?).any fun l => l.binarySize > levelMaxBinarySize i

theorem Manifest.canDoCompaction_eq (m : Manifest) : m.canDoCompaction = m.overLimit 0 := by
  rw [Manifest.canDoCompaction, Manifest.overLimit]

/-- The loop of `SizeTieredCompaction(id)`, from level `i` on and for `n` turns. -/
def compactFrom (fileSize : FileSize) (id : Int) :
    Nat → Nat → Manifest → Option (Manifest × List Creation)
  | 0, _, m => some (m, [])
  | n + 1, i, m =>
    if m.overLimit i then do
      let (m₁, sst) ← m.sizeTieredCompaction fileSize i id
      let (m', cs) ← compactFrom fileSize id n (i + 1) m₁
      some (m', ⟨m, sst⟩ :: cs)
    else some (m, [])

/-- `SizeTieredCompaction(id)`: the manifest it leaves and the tables it writes. -/
def Manifest.sizeTieredCompactionAll (fileSize : FileSize) (m : Manifest) (id : Int) :
    Option (Manifest × List Creation) := compactFrom fileSize id maxLevelSize 0 m

/-! ### The chain of compactions -/

/-- Compactions of the levels from `i` on, each over its limit when its turn comes. -/
inductive Cascade (fileSize : FileSize) (id : Int) :
    Nat → Manifest → Manifest → List Creation → Prop
  | stop (i : Nat) (m : Manifest) : Cascade fileSize id i m m []
  | turn {i : Nat} {m m₁ m' : Manifest} {N : SST} {cs : List Creation} (hi : i < maxLevelSize)
      (hover : m.overLimit i = true) (heq : m.sizeTieredCompaction fileSize i id = some (m₁, N))
      (hm : Moved fileSize m i id m₁ N) (rest : Cascade fileSize id (i + 1) m₁ m' cs) :
      Cascade fileSize id i m m' (⟨m, N⟩ :: cs)

theorem Manifest.exists_of_over {m : Manifest} {i : Nat} (h : m.overLimit i = true) :
    ∃ l, m.levels[i]? = some l ∧ l.ssts ≠ [] := by
  rw [Manifest.overLimit, Option.any_eq_true] at h
  obtain ⟨l, hl, hover⟩ := h
  refine ⟨l, hl, ?_⟩
  intro hn
  rw [Level.binarySize, hn] at hover
  simp at hover

/-- **The code follows the chain.** -/
theorem Manifest.Shaped.exists_cascade {m : Manifest} (h : m.Shaped)
    (fileSize : FileSize) (id : Int) {n i : Nat} (hi : i + n ≤ maxLevelSize) :
    ∃ m' cs, compactFrom fileSize id n i m = some (m', cs) ∧ Cascade fileSize id i m m' cs := by
  induction n generalizing m i with
  | zero => exact ⟨m, [], rfl, Cascade.stop i m⟩
  | succ n ih =>
    by_cases hover : m.overLimit i = true
    · obtain ⟨l, hl, hne⟩ := Manifest.exists_of_over hover
      obtain ⟨m₁, N, heq, hm⟩ := h.exists_moved fileSize hl hne id
      obtain ⟨m', cs, heq', hrest⟩ := ih hm.shaped (i := i + 1) (by omega)
      refine ⟨m', ⟨m, N⟩ :: cs, ?_, Cascade.turn (by omega) hover heq hm hrest⟩
      rw [compactFrom, if_pos hover, heq]
      simp [heq']
    · exact ⟨m, [], by rw [compactFrom, if_neg hover], Cascade.stop i m⟩

section

variable {fileSize : FileSize} {id : Int} {i : Nat} {m m' : Manifest} {cs : List Creation}

theorem Cascade.shaped (h : Cascade fileSize id i m m' cs) (hs : m.Shaped) : m'.Shaped := by
  induction h with
  | stop i m => exact hs
  | turn hi hover heq hm rest ih => exact ih hm.shaped

/-- **A cascade preserves every lookup.** -/
theorem Cascade.reads (h : Cascade fileSize id i m m' cs) (hwf : m.WellFormed) :
    m'.WellFormed ∧ ∀ k, m'.get k = m.get k := by
  induction h with
  | stop i m => exact ⟨hwf, fun _ => rfl⟩
  | turn hi hover heq hm rest ih =>
    obtain ⟨l, hl, hne⟩ := Manifest.exists_of_over hover
    obtain ⟨hwf₁, hreads₁⟩ := hwf.compacted hl hne heq
    obtain ⟨hwf', hreads'⟩ := ih hwf₁
    exact ⟨hwf', fun k => (hreads' k).trans (hreads₁ k)⟩

theorem Cascade.id_eq (h : Cascade fileSize id i m m' cs) : ∀ c ∈ cs, c.sst.id = id := by
  induction h with
  | stop i m => simp
  | turn hi hover heq hm rest ih =>
    intro c hmem
    rcases List.mem_cons.mp hmem with rfl | hmem
    · exact hm.id_eq
    · exact ih c hmem

theorem Cascade.mem_ssts (h : Cascade fileSize id i m m' cs) {s : SST} (hs : s ∈ m'.ssts) :
    (s.id = id ∧ cs ≠ []) ∨ s ∈ m.ssts := by
  induction h with
  | stop i m => exact Or.inr hs
  | turn hi hover heq hm rest ih =>
    rcases ih hs with ⟨he, -⟩ | hs
    · exact Or.inl ⟨he, List.cons_ne_nil _ _⟩
    · rcases hm.mem_ssts hs with rfl | ⟨j, -, hs⟩
      · exact Or.inl ⟨hm.id_eq, List.cons_ne_nil _ _⟩
      · exact Or.inr (Manifest.mem_ssts_iff.mpr ⟨j, hs⟩)

theorem raiseMaxSstId_eq_max (a : Nat) (id : Int) : raiseMaxSstId a id = max a (toSizeT id) := by
  rw [raiseMaxSstId]
  split <;> omega

theorem Cascade.length_le (h : Cascade fileSize id i m m' cs)
    (hlen : m.levels.length ≤ maxLevelSize + 1) : m'.levels.length ≤ maxLevelSize + 1 := by
  induction h with
  | stop i m => exact hlen
  | turn hi hover heq hm rest ih =>
    have := hm.length_le
    exact ih (by omega)

end

/-! ### The files -/

/-- The `.sst` files of a directory, by id: what reading one gives, and its size. -/
abbrev Files := Int → Option (Table × Nat)

/-- Writing the file of a table replaces the file of that id. -/
def Files.write (files : Files) (s : SST) : Files :=
  fun id => if id = s.id then some (s.table, s.fileSize) else files id

/-- The files after a list of creations. -/
def Files.writeAll (files : Files) (cs : List Creation) : Files :=
  cs.foldl (fun f c => f.write c.sst) files

/-- Every table of the manifest is in its file. -/
def Manifest.Stored (m : Manifest) (files : Files) : Prop :=
  ∀ s ∈ m.ssts, files s.id = some (s.table, s.fileSize)

theorem Files.write_self (files : Files) (s : SST) :
    files.write s s.id = some (s.table, s.fileSize) := if_pos rfl

theorem Files.write_ne (files : Files) {s : SST} {id : Int} (h : id ≠ s.id) :
    files.write s id = files id := if_neg h

theorem Files.writeAll_ne {files : Files} {cs : List Creation} {id : Int}
    (h : ∀ c ∈ cs, id ≠ c.sst.id) : files.writeAll cs id = files id := by
  induction cs generalizing files with
  | nil => rfl
  | cons c cs ih =>
    rw [Files.writeAll, List.foldl_cons, ← Files.writeAll]
    rw [ih fun d hd => h d (List.mem_cons_of_mem _ hd)]
    exact files.write_ne (h c List.mem_cons_self)

/-- A compaction whose id is carried by tables of the compacted level only. -/
theorem Moved.stored {fileSize : FileSize} {m m₁ : Manifest} {level : Nat} {id : Int} {N : SST}
    (h : Moved fileSize m level id m₁ N) {files : Files} (hst : m.Stored files)
    (hfresh : ∀ j, j ≠ level → ∀ s ∈ m.at j, s.id ≠ id) :
    m₁.Stored (files.write N) ∧ ∀ j, j ≠ level + 1 → ∀ s ∈ m₁.at j, s.id ≠ id := by
  constructor
  · intro s hs
    rcases h.mem_ssts hs with rfl | ⟨j, hj, hs⟩
    · exact files.write_self s
    · rw [Files.write_ne _ (by rw [h.id_eq]; exact hfresh j hj s hs)]
      exact hst s (Manifest.mem_ssts_iff.mpr ⟨j, hs⟩)
  · intro j hj s hs
    by_cases hjl : j = level
    · rw [Manifest.at, hjl, h.emptied] at hs
      simp at hs
    · rw [Manifest.at, h.others j hjl hj] at hs
      exact hfresh j hjl s hs

/-- **What a cascade leaves is on disk.**  A turn writes over the file of the turn before,
but that table is an input of this turn and no longer in the manifest. -/
theorem Cascade.stored {fileSize : FileSize} {id : Int} {i : Nat} {m m' : Manifest}
    {cs : List Creation} (h : Cascade fileSize id i m m' cs) {files : Files}
    (hst : m.Stored files) (hfresh : ∀ j, j ≠ i → ∀ s ∈ m.at j, s.id ≠ id) :
    m'.Stored (files.writeAll cs) := by
  induction h generalizing files with
  | stop i m => exact hst
  | turn hi hover heq hm rest ih =>
    obtain ⟨h1, h2⟩ := hm.stored hst hfresh
    exact ih h1 h2

/-! ### Inserting a flushed table -/

theorem Manifest.Shaped.exists_cons {m : Manifest} (h : m.Shaped) :
    ∃ l ls, m.levels = l :: ls ∧ l.level = 0 := by
  obtain ⟨l, ls, hl⟩ := List.exists_cons_of_ne_nil h.nonempty
  exact ⟨l, ls, hl, h.level_eq 0 l (by rw [hl]; rfl)⟩

theorem Manifest.levels_insertAndUpdate {m : Manifest} {l : Level} {ls : List Level}
    (hl : m.levels = l :: ls) (sst : SST) :
    (m.insertAndUpdate sst).levels = { l with ssts := l.ssts ++ [sst] } :: ls := by
  rw [Manifest.insertAndUpdate, Manifest.insert]
  simp only [hl]

theorem Manifest.Shaped.insertAndUpdate {m : Manifest} (h : m.Shaped) (sst : SST) :
    (m.insertAndUpdate sst).Shaped := by
  obtain ⟨l, ls, hl, h0⟩ := h.exists_cons
  have hlevels := Manifest.levels_insertAndUpdate hl sst
  refine ⟨by rw [hlevels]; simp, ?_⟩
  intro i l' hi
  rw [hlevels] at hi
  cases i with
  | zero =>
    obtain rfl : { l with ssts := l.ssts ++ [sst] } = l' := by simpa using hi
    exact h0
  | succ i => exact h.level_eq (i + 1) l' (by rw [hl]; exact hi)

theorem Manifest.WellFormed.insertAndUpdate {m : Manifest} (h : m.WellFormed) {sst : SST}
    (hk : ∀ e ∈ sst.entries, e.1 ≠ []) : (m.insertAndUpdate sst).WellFormed := by
  obtain ⟨l, ls, hl, h0⟩ := h.exists_cons
  have hmem : ∀ l' ∈ (m.insertAndUpdate sst).levels,
      l' = { l with ssts := l.ssts ++ [sst] } ∨ l' ∈ m.levels := by
    intro l' hl'
    rw [Manifest.levels_insertAndUpdate hl sst] at hl'
    rw [hl]
    exact (List.mem_cons.mp hl').imp_right (List.mem_cons_of_mem _)
  refine ⟨h.toShaped.insertAndUpdate sst, ?_, ?_⟩
  · intro l' hl' s hs e he
    rcases hmem l' hl' with rfl | hl'
    · rcases List.mem_append.mp hs with hs | hs
      · exact h.keys l (by rw [hl]; exact List.mem_cons_self) s hs e he
      · rw [List.mem_singleton.mp hs] at he
        exact hk e he
    · exact h.keys l' hl' s hs e he
  · intro l' hl' h1
    rcases hmem l' hl' with rfl | hl'
    · exact absurd h0 h1
    · exact h.ascending l' hl' h1

theorem Manifest.Shaped.mem_ssts_insertAndUpdate {m : Manifest} (h : m.Shaped) {sst s : SST} :
    s ∈ (m.insertAndUpdate sst).ssts ↔ s = sst ∨ s ∈ m.ssts := by
  obtain ⟨l, ls, hl, -⟩ := h.exists_cons
  simp only [Manifest.insertAndUpdate, Manifest.insert, Manifest.ssts, hl, List.flatMap_cons,
    List.mem_append, List.mem_singleton]
  tauto

/-- **The inserted table is read first.** -/
theorem Manifest.WellFormed.get_insertAndUpdate {m : Manifest} (h : m.WellFormed) {sst : SST}
    (hk : ∀ e ∈ sst.entries, e.1 ≠ []) (k : Bytes) :
    (m.insertAndUpdate sst).get k = (sst.entries.lookup k).or (m.get k) := by
  obtain ⟨l, ls, hl, -⟩ := h.exists_cons
  rw [(h.insertAndUpdate hk).get_eq_newest, h.get_eq_newest, ← Lib.newest_cons]
  simp [Manifest.insertAndUpdate, Manifest.insert, Manifest.tables, hl, Level.tables]

end Mokv.LSM
