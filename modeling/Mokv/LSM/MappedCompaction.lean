import Mokv.LSM.TableFiles

/-!
# A compaction in the files

`SizeTieredCompaction(level, id)` (`mokv/lsm/manifest.hpp`) merges views and gives them to a
constructor, which writes over `id.sst` before it copies them.  The module is the function on
a directory in bytes.

The loops only compare keys, and nothing is written while they run, so they take the steps
over the views that they take over the entries (`map_mergeViews`, `selected_of`).  If no table
of the manifest has the id, the constructor does not write over its views either, and the files
show the manifest that the compaction of tables leaves (`compaction_preserves_lookups`).  A
table that is merged into its own file can lose its keys (`overwritten_input`).
-/

namespace Mokv.LSM

open Lib

/-! ### The code -/

/-- A table with a view to begin with. -/
structure MappedTable where
  views : List EntryView
  nonempty : views ≠ []

/-- The first entry of a table. -/
def MappedTable.first (t : MappedTable) : Entry := (t.views.head t.nonempty).entry

/-- The last entry of a table. -/
def MappedTable.last (t : MappedTable) : Entry := (t.views.getLast t.nonempty).entry

/-- The table of an id.  There is none that is empty. -/
def mappedTable (f : CompressionFactory) (images : Images) (id : Int) : Option MappedTable :=
  (images.views f id).bind fun views => if h : views ≠ [] then some ⟨views, h⟩ else none

/-- `SizeTieredCompactionStruct`, over views. -/
structure MappedIterator where
  view : EntryView
  rest : List EntryView
  secondValue : Nat

namespace MappedIterator

/-- `operator<`. -/
def lt (lhs rhs : MappedIterator) : Bool :=
  if lhs.view.entry.1 = rhs.view.entry.1 then lhs.secondValue > rhs.secondValue
  else lhs.view.entry.1 > rhs.view.entry.1

/-- `++it`, and whether the iterator is still inside its table. -/
def next? (c : MappedIterator) : Option MappedIterator :=
  match c.rest with
  | [] => none
  | v :: vs => some { c with view := v, rest := vs }

/-- An iterator at the begin of a table. -/
def start (t : MappedTable) (value : Nat) : MappedIterator :=
  ⟨t.views.head t.nonempty, t.views.tail, value⟩

end MappedIterator

/-- Keep an entry unless the last key kept is the same. -/
def keepView (entries : List EntryView) (v : EntryView) : List EntryView :=
  if entries = [] ∨ entries.getLast?.map (fun e => e.entry.1) ≠ some v.entry.1 then entries ++ [v]
  else entries

/-- `while (!queue.empty())`, with a bound on the number of turns. -/
def mergeViewsLoop : Nat → List MappedIterator → List EntryView → List EntryView
  | 0, _, entries => entries
  | fuel + 1, queue, entries =>
    match popTop MappedIterator.lt queue with
    | none => entries
    | some (data, queue) =>
      match data.next? with
      | some next => mergeViewsLoop fuel (next :: queue) (keepView entries data.view)
      | none => mergeViewsLoop fuel queue (keepView entries data.view)

/-- The merged entries. -/
def mergeViews (queue : List MappedIterator) : List EntryView :=
  mergeViewsLoop (queue.map fun c => c.rest.length + 1).sum queue []

/-- What the first two loops find. -/
structure MappedSelected where
  queue : List MappedIterator
  value : Nat
  minKey : Bytes
  maxKey : Bytes
  insertL : Int
  insertR : Int

namespace MappedSelected

/-- One turn of the first loop. -/
def collectStep (c : MappedSelected) (t : MappedTable) : MappedSelected :=
  { c with
    queue := c.queue ++ [.start t c.value]
    value := c.value + 1
    minKey := if c.minKey = [] ∨ t.first.1 < c.minKey then t.first.1 else c.minKey
    maxKey := if c.maxKey = [] ∨ t.last.1 > c.maxKey then t.last.1 else c.maxKey }

/-- The second loop, from index `i` on. -/
def selectNext : Nat → List MappedTable → MappedSelected → MappedSelected
  | _, [], c => c
  | i, t :: ts, c =>
    if t.last.1 < c.minKey then selectNext (i + 1) ts { c with insertL := i }
    else if t.first.1 > c.maxKey then { c with insertR := i }
    else
      selectNext (i + 1) ts { c with queue := c.queue ++ [.start t c.value], value := c.value + 1 }

/-- Both loops. -/
def of (cur next : List MappedTable) : MappedSelected :=
  selectNext 0 next (cur.reverse.foldl collectStep ⟨[], 0, [], [], -1, next.length⟩)

end MappedSelected

/-- `SizeTieredCompaction(level, id)`: the ids that it leaves, and the files.  `n` counts the
tables written.  Where a table that stays is mapped from `id.sst` there is no result: its
index block is then out of date, which ids and files do not say. -/
def ManifestIds.sizeTieredCompaction (w : Writer) (n : Nat) (images : Images) (m : ManifestIds)
    (level : Nat) (id : Int) : Option (ManifestIds × Images) := do
  let cur ← m.levels[level]?
  let levels := if level + 1 = m.levels.length then m.levels ++ [[]] else m.levels
  let next ← levels[level + 1]?
  let curTables ← cur.mapM (mappedTable w.factory images)
  let nextTables ← next.mapM (mappedTable w.factory images)
  let sel := MappedSelected.of curTables nextTables
  let file ← w.writeThrough n images id (mergeViews sel.queue)
  let left := next.take (sel.insertL + 1).toNat
  let right := next.drop sel.insertR.toNat
  if id ∈ ((levels.set level []).set (level + 1) (left ++ right)).flatten then none
  else
    some ({ m with
      levels := (levels.set level []).set (level + 1) (left ++ [id] ++ right)
      maxSstId := raiseMaxSstId m.maxSstId id }, images.put id file)

/-! ### The loops over views and over entries -/

/-- The table, read. -/
def MappedTable.Reads (t : MappedTable) (s : SST) : Prop := t.views.map EntryView.entry = s.entries

section Reads

variable {t : MappedTable} {s : SST} (h : t.Reads s)

include h

theorem MappedTable.Reads.first : t.first = s.first := by
  have hhead : (t.views.map EntryView.entry).head? = s.table.entries.head? := congrArg _ h
  rw [List.head?_map, List.head?_eq_some_head t.nonempty,
    List.head?_eq_some_head s.table.nonempty] at hhead
  exact Option.some.inj hhead

theorem MappedTable.Reads.last : t.last = s.last := by
  have hlast : (t.views.map EntryView.entry).getLast? = s.table.entries.getLast? := congrArg _ h
  rw [List.getLast?_map, List.getLast?_eq_some_getLast t.nonempty,
    List.getLast?_eq_some_getLast s.table.nonempty] at hlast
  exact Option.some.inj hlast

end Reads

/-- The iterator over the entries. -/
def MappedIterator.struct (c : MappedIterator) : SizeTieredCompactionStruct :=
  ⟨c.view.entry, c.rest.map EntryView.entry, c.secondValue⟩

theorem MappedTable.Reads.start {t : MappedTable} {s : SST} (h : t.Reads s) (value : Nat) :
    (MappedIterator.start t value).struct = SizeTieredCompactionStruct.start s.table value := by
  have htail : (t.views.map EntryView.entry).tail = s.table.entries.tail := congrArg _ h
  rw [← List.map_tail] at htail
  rw [MappedIterator.struct, SizeTieredCompactionStruct.start]
  exact congrArg₂ (SizeTieredCompactionStruct.mk · · value) h.first htail

theorem MappedIterator.next?_struct (c : MappedIterator) :
    c.struct.next? = c.next?.map MappedIterator.struct := by
  obtain ⟨v, rest, value⟩ := c
  cases rest <;> rfl

theorem map_keepView (entries : List EntryView) (v : EntryView) :
    (keepView entries v).map EntryView.entry = keep (entries.map EntryView.entry) v.entry := by
  rw [keepView, keep]
  simp only [List.map_eq_nil_iff, List.getLast?_map, Option.map_map]
  split
  · rw [if_pos ‹_›, List.map_append]
    rfl
  · rw [if_neg ‹_›]

/-- **The merge of the views is the merge of the entries**, turn by turn. -/
theorem map_mergeViewsLoop (fuel : Nat) (queue : List MappedIterator) (entries : List EntryView) :
    (mergeViewsLoop fuel queue entries).map EntryView.entry =
      mergeLoop fuel (queue.map MappedIterator.struct) (entries.map EntryView.entry) := by
  induction fuel generalizing queue entries with
  | zero => rfl
  | succ fuel ih =>
    have hlt : ∀ a b : MappedIterator,
        SizeTieredCompactionStruct.lt a.struct b.struct = MappedIterator.lt a b := fun _ _ => rfl
    rw [mergeViewsLoop, mergeLoop, popTop_map hlt]
    cases popTop MappedIterator.lt queue with
    | none => rfl
    | some dr =>
      simp only [Option.map_some, MappedIterator.next?_struct]
      cases dr.1.next? with
      | none => rw [ih, map_keepView]; rfl
      | some next => rw [ih, map_keepView]; rfl

theorem map_mergeViews (queue : List MappedIterator) :
    (mergeViews queue).map EntryView.entry = merge (queue.map MappedIterator.struct) := by
  rw [mergeViews, map_mergeViewsLoop, merge, pending, List.map_map]
  congr 3
  funext c
  simp [MappedIterator.struct, SizeTieredCompactionStruct.ahead]

/-- What holds of all views of an iterator. -/
def MappedIterator.All (P : EntryView → Prop) (c : MappedIterator) : Prop :=
  ∀ v ∈ c.view :: c.rest, P v

theorem MappedIterator.all_start {P : EntryView → Prop} {t : MappedTable} (h : ∀ v ∈ t.views, P v)
    (value : Nat) : (start t value).All P := by
  intro v hv
  rw [start, List.cons_head_tail] at hv
  exact h v hv

theorem forall_mergeViewsLoop {P : EntryView → Prop} (fuel : Nat) {queue : List MappedIterator}
    {entries : List EntryView} (hq : ∀ c ∈ queue, c.All P) (he : ∀ v ∈ entries, P v) :
    ∀ v ∈ mergeViewsLoop fuel queue entries, P v := by
  induction fuel generalizing queue entries with
  | zero => exact he
  | succ fuel ih =>
    rw [mergeViewsLoop]
    cases hpop : popTop MappedIterator.lt queue with
    | none => exact he
    | some dr =>
      obtain ⟨data, rest⟩ := dr
      have hmem := fun c => (popTop_perm hpop).mem_iff (a := c)
      have hdata := hq data ((hmem data).mpr List.mem_cons_self)
      have hrest : ∀ c ∈ rest, c.All P := fun c hc =>
        hq c ((hmem c).mpr (List.mem_cons_of_mem _ hc))
      have hkeep : ∀ v ∈ keepView entries data.view, P v := by
        intro v hv
        rw [keepView] at hv
        split at hv
        · rcases List.mem_append.mp hv with hv | hv
          · exact he v hv
          · rw [List.mem_singleton.mp hv]
            exact hdata _ List.mem_cons_self
        · exact he v hv
      obtain ⟨v, vs, value⟩ := data
      cases vs with
      | nil => exact ih hrest hkeep
      | cons u us =>
        refine ih ?_ hkeep
        intro c hc
        rcases List.mem_cons.mp hc with rfl | hc
        · exact fun x hx => hdata x (List.mem_cons_of_mem _ hx)
        · exact hrest c hc

namespace MappedSelected

/-- The first loop, over entries. -/
def collected (c : MappedSelected) : Collected :=
  ⟨c.queue.map MappedIterator.struct, c.value, c.minKey, c.maxKey⟩

/-- The second loop, over entries. -/
def selected (c : MappedSelected) : Selected :=
  ⟨c.queue.map MappedIterator.struct, c.value, c.insertL, c.insertR⟩

theorem collected_foldl {ts : List MappedTable} {ss : List SST}
    (h : List.Forall₂ MappedTable.Reads ts ss) (c : MappedSelected) :
    (ts.foldl collectStep c).collected = ss.foldl LSM.collectStep c.collected ∧
      (ts.foldl collectStep c).insertL = c.insertL ∧
      (ts.foldl collectStep c).insertR = c.insertR := by
  induction h generalizing c with
  | nil => exact ⟨rfl, rfl, rfl⟩
  | cons hts _ ih =>
    obtain ⟨h1, h2, h3⟩ := ih (collectStep c _)
    refine ⟨?_, h2, h3⟩
    rw [List.foldl_cons, h1, List.foldl_cons]
    congr 1
    simp only [collected, collectStep, List.map_append, List.map_singleton, hts.start]
    rw [hts.first, hts.last]
    rfl

theorem selected_selectNext {ts : List MappedTable} {ss : List SST}
    (h : List.Forall₂ MappedTable.Reads ts ss) (i : Nat) (c : MappedSelected) :
    (selectNext i ts c).selected = LSM.selectNext c.minKey c.maxKey i ss c.selected := by
  induction h generalizing i c with
  | nil => rfl
  | cons hts _ ih =>
    rw [selectNext, LSM.selectNext, hts.first, hts.last]
    split
    · exact ih (i + 1) _
    · split
      · rfl
      · rw [ih]
        simp [selected, hts.start]

/-- **The loops select what they select over the entries.** -/
theorem selected_of {cur next : List MappedTable} {cur' next' : List SST}
    (hcur : List.Forall₂ MappedTable.Reads cur cur')
    (hnext : List.Forall₂ MappedTable.Reads next next') :
    (of cur next).selected = select cur' next' := by
  obtain ⟨h1, h2, h3⟩ := collected_foldl (List.forall₂_reverse_iff.mpr hcur)
    ⟨[], 0, [], [], -1, next.length⟩
  have hc : (cur.reverse.foldl collectStep ⟨[], 0, [], [], -1, next.length⟩).collected =
      collect cur' := h1
  rw [of, selected_selectNext hnext, select, ← hc, selected, h2, h3, hnext.length_eq]
  rfl

theorem forall_of {Q : MappedIterator → Prop} {cur next : List MappedTable}
    (h : ∀ t ∈ cur ++ next, ∀ value, Q (.start t value)) : ∀ c ∈ (of cur next).queue, Q c := by
  have hfold : ∀ (ts : List MappedTable) (c : MappedSelected), (∀ t ∈ ts, ∀ n, Q (.start t n)) →
      (∀ x ∈ c.queue, Q x) → ∀ x ∈ (ts.foldl collectStep c).queue, Q x := by
    intro ts
    induction ts with
    | nil => exact fun _ _ hc => hc
    | cons t ts ih =>
      intro c ht hc
      refine ih _ (fun u hu => ht u (List.mem_cons_of_mem _ hu)) ?_
      intro x hx
      rcases List.mem_append.mp hx with hx | hx
      · exact hc x hx
      · rw [List.mem_singleton.mp hx]
        exact ht t List.mem_cons_self _
  have hselect : ∀ (ts : List MappedTable) (i : Nat) (c : MappedSelected),
      (∀ t ∈ ts, ∀ n, Q (.start t n)) → (∀ x ∈ c.queue, Q x) →
        ∀ x ∈ (selectNext i ts c).queue, Q x := by
    intro ts
    induction ts with
    | nil => exact fun _ _ _ hc => hc
    | cons t ts ih =>
      intro i c ht hc
      have htail := fun u hu => ht u (List.mem_cons_of_mem _ hu)
      rw [selectNext]
      split
      · exact ih _ _ htail hc
      · split
        · exact hc
        · refine ih _ _ htail ?_
          intro x hx
          rcases List.mem_append.mp hx with hx | hx
          · exact hc x hx
          · rw [List.mem_singleton.mp hx]
            exact ht t List.mem_cons_self _
  refine hselect next 0 _ (fun t ht => h t (List.mem_append_right _ ht)) ?_
  exact hfold _ _ (fun t ht => h t (List.mem_append_left _ (List.mem_reverse.mp ht))) (by simp)

end MappedSelected

/-! ### The compaction -/

/-- The entries that a compaction of the level merges. -/
def Manifest.merged (m : Manifest) (level : Nat) : List Entry :=
  merge (select (m.at level) (m.at (level + 1))).queue

theorem Manifest.at_of_ensureNext {m : Manifest} {level : Nat} {next : Level}
    (h : (m.ensureNext level)[level + 1]? = some next) : m.at (level + 1) = next.ssts := by
  rw [Manifest.ensureNext] at h
  rw [Manifest.at]
  split at h
  · rename_i hlen
    rw [List.getElem?_append_right (by omega), hlen, Nat.sub_self] at h
    obtain rfl : ⟨level + 1, []⟩ = next := by rw [← hlen] at *; exact Option.some.inj h
    rw [List.getElem?_eq_none (by omega)]
    rfl
  · rw [h]
    rfl

theorem Manifest.toIds_ensureNext (m : Manifest) (level : Nat) :
    (if level + 1 = m.toIds.levels.length then m.toIds.levels ++ [[]] else m.toIds.levels) =
      (m.ensureNext level).map fun l => l.ssts.map SST.id := by
  rw [Manifest.toIds, Manifest.ensureNext, List.length_map]
  split
  · rw [List.map_append]
    rfl
  · rfl

section Compaction

variable {w : Writer} {images : Images} {m : Manifest} {id : Int}

theorem exists_tables (hf : ∀ s ∈ m.ssts, images.Shows w.factory s) (hid : ∀ s ∈ m.ssts, s.id ≠ id)
    {ssts : List SST} (hm : ∀ s ∈ ssts, s ∈ m.ssts) :
    ∃ ts, (ssts.map SST.id).mapM (mappedTable w.factory images) = some ts ∧
      List.Forall₂ MappedTable.Reads ts ssts ∧
      ∀ t ∈ ts, ∀ v ∈ t.views, v.Safe images id := by
  have htable : ∀ s ∈ ssts, ∃ t, mappedTable w.factory images s.id = some t ∧
      (t.Reads s ∧ ∀ v ∈ t.views, v.Safe images id) := by
    intro s hs
    obtain ⟨-, views, hviews, hentries⟩ := hf s (hm s hs)
    have hne : views ≠ [] := by
      rintro rfl
      exact s.table.nonempty hentries.symm
    refine ⟨⟨views, hne⟩, ?_, hentries, Images.safe_of_mem_views (hid s (hm s hs)) hviews⟩
    rw [mappedTable, hviews, Option.bind_some, dif_pos hne]
  rw [List.mapM_map]
  obtain ⟨ts, hts, hall⟩ := exists_mapM htable
  refine ⟨ts, hts, (hall.imp fun _ _ h => h.1).flip, ?_⟩
  intro t ht
  obtain ⟨s, hs, hst⟩ := exists_of_mem_mapM hts ht
  obtain ⟨t', ht', -, hsafe⟩ := htable s hs
  obtain rfl := Option.some.inj (hst.symm.trans ht')
  exact hsafe

theorem mem_flatten_set {ls : List (List Int)} {i : Nat} {l : List Int} {x : Int}
    (h : x ∈ (ls.set i l).flatten) : x ∈ ls.flatten ∨ x ∈ l := by
  obtain ⟨l', hl', hx⟩ := List.mem_flatten.mp h
  rcases List.mem_or_eq_of_mem_set hl' with hl' | rfl
  · exact Or.inl (List.mem_flatten.mpr ⟨l', hl', hx⟩)
  · exact Or.inr hx

/-- A new id is none of those that the compaction keeps. -/
theorem not_mem_kept (hid : ∀ s ∈ m.ssts, s.id ≠ id) {level : Nat} {next : Level}
    (hnext : (m.ensureNext level)[level + 1]? = some next) (p q : Nat) :
    id ∉ ((((m.ensureNext level).map fun l => l.ssts.map SST.id).set level []).set (level + 1)
      ((next.ssts.map SST.id).take p ++ (next.ssts.map SST.id).drop q)).flatten := by
  have hids : ∀ {j : Nat} {l : Level}, (m.ensureNext level)[j]? = some l →
      id ∉ l.ssts.map SST.id := by
    intro j l hj h
    obtain ⟨s, hs, he⟩ := List.mem_map.mp h
    exact hid s (Manifest.mem_ssts_iff.mpr ⟨j, Manifest.mem_at_of_ensureNext hj hs⟩) he
  intro h
  rcases mem_flatten_set h with h | h
  · rcases mem_flatten_set h with h | h
    · obtain ⟨ids, hlevel, h⟩ := List.mem_flatten.mp h
      obtain ⟨l, hl, rfl⟩ := List.mem_map.mp hlevel
      obtain ⟨j, hj⟩ := List.getElem?_of_mem hl
      exact hids hj h
    · cases h
  · refine hids hnext ?_
    rcases List.mem_append.mp h with h | h
    · exact List.mem_of_mem_take h
    · exact List.mem_of_mem_drop h

/-- **In the files the compaction does what it does with tables**, if the id is new. -/
theorem toIds_sizeTieredCompaction (hw : w.Lossless) (hf : ∀ s ∈ m.ssts, images.Shows w.factory s)
    (hid : ∀ s ∈ m.ssts, s.id ≠ id) {level : Nat} {m' : Manifest} {N : SST}
    (heq : m.sizeTieredCompaction w.fileSize level id = some (m', N))
    (hsize : w.fileSize (m.merged level) < 2 ^ 31) (n : Nat) :
    ∃ file, m.toIds.sizeTieredCompaction w n images level id =
        some (m'.toIds, images.put id file) ∧
      Laid w.factory (w.rand n) N.entries w.compression.isSome file := by
  rw [Manifest.sizeTieredCompaction] at heq
  obtain ⟨cur, hcur, heq⟩ := Option.bind_eq_some_iff.mp heq
  obtain ⟨next, hnext, heq⟩ := Option.bind_eq_some_iff.mp heq
  obtain ⟨N', hN, heq⟩ := Option.bind_eq_some_iff.mp heq
  obtain ⟨rfl, rfl⟩ := Prod.mk.inj (Option.some.inj heq)
  have hmerged : m.merged level = N'.entries := by
    have hlevel : m.at level = cur.ssts := by
      rw [Manifest.at, hcur]
      rfl
    rw [Manifest.merged, hlevel, Manifest.at_of_ensureNext hnext]
    exact (SST.entries_of_ofEntries? hN).symm
  have hcurm : ∀ s ∈ cur.ssts, s ∈ m.ssts := fun s hs =>
    List.mem_flatMap.mpr ⟨cur, List.mem_of_getElem? hcur, hs⟩
  have hnextm : ∀ s ∈ next.ssts, s ∈ m.ssts := fun s hs =>
    Manifest.mem_ssts_iff.mpr ⟨level + 1, Manifest.mem_at_of_ensureNext hnext hs⟩
  obtain ⟨ts, hts, htsr, htss⟩ := exists_tables hf hid hcurm
  obtain ⟨us, hus, husr, huss⟩ := exists_tables hf hid hnextm
  have hsel := MappedSelected.selected_of htsr husr
  have hviews : (mergeViews (MappedSelected.of ts us).queue).map EntryView.entry = N'.entries := by
    rw [map_mergeViews, SST.entries_of_ofEntries? hN]
    exact congrArg (fun s : Selected => merge s.queue) hsel
  have hsafe : ∀ v ∈ mergeViews (MappedSelected.of ts us).queue, v.Safe images id := by
    refine forall_mergeViewsLoop _ (MappedSelected.forall_of ?_) (by simp)
    intro t ht value
    refine MappedIterator.all_start ?_ value
    rcases List.mem_append.mp ht with ht | ht
    · exact htss t ht
    · exact huss t ht
  rw [hmerged] at hsize
  obtain ⟨file, hwrite, hlaid⟩ := w.exists_laid hw n ((images id).getD []) N'.table.nonempty hsize
  refine ⟨file, ?_, hlaid⟩
  have hL : (MappedSelected.of ts us).insertL = (select cur.ssts next.ssts).insertL :=
    congrArg Selected.insertL hsel
  have hR : (MappedSelected.of ts us).insertR = (select cur.ssts next.ssts).insertR :=
    congrArg Selected.insertR hsel
  have hid' : N'.id = id := by
    obtain ⟨t, -, rfl⟩ := Option.map_eq_some_iff.mp hN
    rfl
  have hcur' : m.toIds.levels[level]? = some (cur.ssts.map SST.id) := by
    rw [Manifest.toIds, List.getElem?_map, hcur]
    rfl
  have hnext' : ((m.ensureNext level).map fun l => l.ssts.map SST.id)[level + 1]? =
      some (next.ssts.map SST.id) := by
    rw [List.getElem?_map, hnext]
    rfl
  rw [ManifestIds.sizeTieredCompaction, Manifest.toIds_ensureNext, hcur']
  simp only [Option.bind_eq_bind, Option.bind_some, hnext', hts, hus]
  rw [Writer.writeThrough_eq hsafe, hviews, SST.entries, hwrite, hL, hR, Option.bind_some,
    if_neg (not_mem_kept hid hnext _ _)]
  simp only [Manifest.toIds, List.map_set, List.map_append, List.map_take, List.map_drop,
    List.map_nil, List.map_singleton, hid']
  rfl

end Compaction

/-- No compression, and seeds of one kind. -/
def plainWriter : Writer where
  factory := ⟨⟨fun _ => [], fun _ _ => []⟩, ⟨fun _ => [], fun _ _ => []⟩⟩
  compression := none
  rand := fun _ _ => 0

theorem lossless_plainWriter : plainWriter.Lossless := by
  intro config h
  cases h

/-- A table above one that lies between its keys. -/
def sampleManifest : Manifest where
  version := 1
  levels :=
    [⟨0, [⟨5, ⟨[([1], [10]), ([3], [30])], by decide, by decide⟩, 253⟩]⟩,
     ⟨1, [⟨4, ⟨[([2], [20])], by decide, by decide⟩, 219⟩]⟩]
  maxSstId := 5

theorem sampleManifest_wellFormed : sampleManifest.WellFormed := by
  refine ⟨⟨by decide, ?_⟩, by decide, by decide⟩
  intro i l hi
  match i with
  | 0 => exact (congrArg Level.level (Option.some.inj hi)).symm
  | 1 => exact (congrArg Level.level (Option.some.inj hi)).symm
  | i + 2 => cases hi

/-- Its tables, each in its file. -/
def sampleImages : Images := fun id =>
  (sampleManifest.ssts.find? fun s => s.id = id).bind fun s => plainWriter.write 0 [] s.entries

theorem sampleImages_shows :
    ∀ s ∈ sampleManifest.ssts, sampleImages.Shows plainWriter.factory s := by
  have hfind : ∀ s ∈ sampleManifest.ssts,
      (sampleManifest.ssts.find? fun t => t.id = s.id) = some s := by decide
  have hsize : ∀ s ∈ sampleManifest.ssts, plainWriter.fileSize s.table.entries < 2 ^ 31 := by
    decide +kernel
  intro s hs
  obtain ⟨file, hwrite, hlaid⟩ :=
    plainWriter.exists_laid lossless_plainWriter 0 [] s.table.nonempty (hsize s hs)
  refine Images.shows_of_laid ?_ hlaid
  rw [sampleImages, hfind s hs]
  exact hwrite

end Mokv.LSM
