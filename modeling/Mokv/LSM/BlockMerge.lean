import Mokv.LSM.Compaction
import Mokv.LSM.SSTFile

/-!
# The merge over blocks

`LSM/Merge.lean` takes an iterator for the entries it has still to give.  The iterator
of the code (`SST::Iterator`, `mokv/lsm/sst.hpp`) is a block and an entry in it, and it
steps from the last entry of a block to the first of the next one.  This module is the
loop of `SizeTieredCompaction` over these iterators.

`remaining` is what an iterator has still to give: the rest of its block and the blocks
after it.  A step takes one entry off it, whether or not it crosses a block
(`remaining_next`), so the two loops go turn by turn (`blockLoop_eq`), and what
`merge` promises holds of the loop over blocks (`blockLoop_merge`).
-/

namespace Mokv.LSM

open Lib

/-! ### Tables of blocks -/

/-- The entries of the blocks, one after another. -/
def IndexBlockIndex.entries (b : IndexBlockIndex) : List Entry :=
  b.dataBlockIndexs.flatMap fun d => d.dataBlockIndex.entries

/-- A loaded table: at least one block, no block empty, and the keys increase over all of
them. -/
structure BlockTable where
  index : IndexBlockIndex
  blocks : index.dataBlockIndexs ≠ []
  nonempty : ∀ d ∈ index.dataBlockIndexs, d.dataBlockIndex.entries ≠ []
  sorted : SortedKeys index.entries

namespace BlockTable

/-- The entries of the table. -/
def entries (t : BlockTable) : List Entry := t.index.entries

theorem entries_ne_nil (t : BlockTable) : t.entries ≠ [] := by
  obtain ⟨d, ds, hd⟩ := List.exists_cons_of_ne_nil t.blocks
  have hne := t.nonempty d (by rw [hd]; exact List.mem_cons_self)
  rw [entries, IndexBlockIndex.entries, hd, List.flatMap_cons]
  exact List.append_ne_nil_of_left_ne_nil hne _

/-- The table as a list of entries. -/
def table (t : BlockTable) : Table := ⟨t.entries, t.sorted, t.entries_ne_nil⟩

end BlockTable

/-! ### The iterator -/

namespace TableIterator

variable {b : IndexBlockIndex} {it : TableIterator}

/-- `operator *`. -/
def deref? (b : IndexBlockIndex) (it : TableIterator) : Option Entry :=
  (entriesOf b it.block)[it.entry]?

/-- What the iterator has still to give. -/
def remaining (b : IndexBlockIndex) (it : TableIterator) : List Entry :=
  (entriesOf b it.block).drop it.entry ++
    (b.dataBlockIndexs.drop (it.block + 1)).flatMap fun d => d.dataBlockIndex.entries

/-- The iterator is at an entry of its table. -/
def Inside (b : IndexBlockIndex) (it : TableIterator) : Prop :=
  it.entry < (entriesOf b it.block).length

theorem Inside.block_lt (h : Inside b it) : it.block < b.dataBlockIndexs.length := by
  by_contra hn
  rw [Inside, entriesOf, List.getElem?_eq_none (not_lt.mp hn)] at h
  exact absurd h (Nat.not_lt_zero _)

theorem Inside.atEnd (h : Inside b it) : it.atEnd b = false :=
  decide_eq_false (Nat.ne_of_lt h.block_lt)

theorem Inside.deref? (h : Inside b it) : ∃ e, it.deref? b = some e :=
  ⟨_, List.getElem?_eq_getElem h⟩

theorem remaining_of_deref? {e : Entry} (h : it.deref? b = some e) :
    it.remaining b = e :: ((entriesOf b it.block).drop (it.entry + 1) ++
      (b.dataBlockIndexs.drop (it.block + 1)).flatMap fun d => d.dataBlockIndex.entries) := by
  obtain ⟨hlt, rfl⟩ := List.getElem?_eq_some_iff.mp h
  rw [remaining, List.drop_eq_getElem_cons hlt, List.cons_append]

theorem entriesOf_eq {block : Nat} (h : block < b.dataBlockIndexs.length) :
    entriesOf b block = (b.dataBlockIndexs[block]).dataBlockIndex.entries := by
  rw [entriesOf, List.getElem?_eq_getElem h]
  rfl

/-- The first entry of a block: the block and those after it remain. -/
theorem remaining_block {block : Nat} (h : block < b.dataBlockIndexs.length) :
    remaining b ⟨block, 0⟩ =
      (b.dataBlockIndexs.drop block).flatMap fun d => d.dataBlockIndex.entries := by
  rw [remaining, List.drop_eq_getElem_cons h, List.flatMap_cons, List.drop_zero, entriesOf_eq h]

/-- **A step takes one entry.**  The iterator ends exactly when nothing remains, and else
it is inside again, be it in the same block or in the next. -/
theorem remaining_next (hb : ∀ d ∈ b.dataBlockIndexs, d.dataBlockIndex.entries ≠ [])
    (h : Inside b it) :
    ((it.next b).atEnd b = true ∧ (it.remaining b).tail = []) ∨
      (Inside b (it.next b) ∧ (it.next b).remaining b = (it.remaining b).tail) := by
  obtain ⟨e, he⟩ := h.deref?
  have htail := congrArg List.tail (remaining_of_deref? he)
  rw [List.tail_cons] at htail
  rw [htail, next, if_neg (by rw [h.atEnd]; exact Bool.false_ne_true)]
  have hlt := h.block_lt
  by_cases hlast : it.entry + 1 = (entriesOf b it.block).length
  · rw [if_pos hlast, hlast, List.drop_length, List.nil_append]
    by_cases hend : it.block + 1 = b.dataBlockIndexs.length
    · -- the last entry of the last block
      left
      rw [if_pos hend, hend, List.drop_length]
      exact ⟨decide_eq_true rfl, rfl⟩
    · -- the last entry of a block: on to the next one, which is not empty
      right
      have hnext : it.block + 1 < b.dataBlockIndexs.length := by omega
      rw [if_neg hend, remaining_block hnext, Inside, entriesOf_eq hnext]
      exact ⟨List.length_pos_of_ne_nil (hb _ (List.getElem_mem hnext)), rfl⟩
  · right
    have hin : it.entry < (entriesOf b it.block).length := h
    rw [if_neg hlast]
    refine ⟨?_, rfl⟩
    show it.entry + 1 < (entriesOf b it.block).length
    omega

theorem start_eq (t : BlockTable) : start t.index = ⟨0, 0⟩ := by
  have h0 : 0 < t.index.dataBlockIndexs.length := List.length_pos_of_ne_nil t.blocks
  have hne : entriesOf t.index 0 ≠ [] := by
    rw [entriesOf_eq h0]
    exact t.nonempty _ (List.getElem_mem h0)
  rw [start, if_neg (by rintro (h | h); exacts [t.blocks h, hne h])]

theorem inside_start (t : BlockTable) : Inside t.index (start t.index) := by
  have h0 : 0 < t.index.dataBlockIndexs.length := List.length_pos_of_ne_nil t.blocks
  rw [start_eq, Inside, entriesOf_eq h0]
  exact List.length_pos_of_ne_nil (t.nonempty _ (List.getElem_mem h0))

theorem remaining_start (t : BlockTable) : (start t.index).remaining t.index = t.entries := by
  rw [start_eq, remaining_block (List.length_pos_of_ne_nil t.blocks), List.drop_zero]
  rfl

end TableIterator

/-! ### The loop -/

/-- `SizeTieredCompactionStruct` over the iterator of a table of blocks. -/
structure BlockCompactionStruct where
  sst : IndexBlockIndex
  it : TableIterator
  secondValue : Nat

namespace BlockCompactionStruct

/-- What `*it` reads; an iterator outside its table is ruled out by the loop. -/
def deref (c : BlockCompactionStruct) : Entry := (c.it.deref? c.sst).getD ([], [])

/-- `operator<`. -/
def lt (lhs rhs : BlockCompactionStruct) : Bool :=
  if lhs.deref.1 = rhs.deref.1 then lhs.secondValue > rhs.secondValue
  else lhs.deref.1 > rhs.deref.1

/-- `SizeTieredCompactionStruct(sst, value)`. -/
def start (t : BlockTable) (value : Nat) : BlockCompactionStruct :=
  ⟨t.index, TableIterator.start t.index, value⟩

end BlockCompactionStruct

open BlockCompactionStruct

/-- `while (!queue.empty())`, with a bound on the number of turns.  There is no result when
the bound does not do, nor when the queue compares an iterator outside its table. -/
def blockLoop : Nat → List BlockCompactionStruct → List Entry → Option (List Entry)
  | fuel, queue, entries =>
    if queue.all fun c => (c.it.deref? c.sst).isSome then
      match popTop BlockCompactionStruct.lt queue with
      | none => some entries
      | some (data, queue) =>
        match fuel with
        | 0 => none
        | fuel + 1 =>
          let next := data.it.next data.sst
          if next.atEnd data.sst then blockLoop fuel queue (keep entries data.deref)
          else blockLoop fuel ({ data with it := next } :: queue) (keep entries data.deref)
    else none

/-- The queue before the loop: the tables numbered from `n` on. -/
def blockStarts : Nat → List BlockTable → List BlockCompactionStruct
  | _, [] => []
  | n, t :: ts => BlockCompactionStruct.start t n :: blockStarts (n + 1) ts

/-- An iterator of blocks as the entries it has still to give. -/
def BlockCompactionStruct.flat (c : BlockCompactionStruct) : SizeTieredCompactionStruct :=
  ⟨c.deref, (c.it.remaining c.sst).tail, c.secondValue⟩

/-- The iterator is inside a table without empty blocks. -/
structure BlockCompactionStruct.Ok (c : BlockCompactionStruct) : Prop where
  nonempty : ∀ d ∈ c.sst.dataBlockIndexs, d.dataBlockIndex.entries ≠ []
  inside : c.it.Inside c.sst

theorem BlockCompactionStruct.Ok.remaining_eq {c : BlockCompactionStruct} (h : c.Ok) :
    c.it.remaining c.sst = c.deref :: (c.it.remaining c.sst).tail := by
  obtain ⟨e, he⟩ := h.inside.deref?
  rw [TableIterator.remaining_of_deref? he, deref, he]
  rfl

theorem lt_flat (a b : BlockCompactionStruct) :
    SizeTieredCompactionStruct.lt a.flat b.flat = BlockCompactionStruct.lt a b := rfl

/-- The queue after a turn. -/
def afterTurn (data : BlockCompactionStruct) (queue : List BlockCompactionStruct) :
    List BlockCompactionStruct :=
  if (data.it.next data.sst).atEnd data.sst then queue
  else { data with it := data.it.next data.sst } :: queue

/-- **One turn.**  The iterators stay inside, and they stand for the queue that the other
loop gets. -/
theorem afterTurn_flat {d : BlockCompactionStruct} {r : List BlockCompactionStruct}
    (hd : d.Ok) (hr : ∀ c ∈ r, c.Ok) :
    (∀ c ∈ afterTurn d r, c.Ok) ∧ (afterTurn d r).map flat = afterPop d.flat (r.map flat) := by
  rcases TableIterator.remaining_next hd.nonempty hd.inside with ⟨hend, hnil⟩ | ⟨hin, hrem⟩
  · rw [afterTurn, if_pos hend, afterPop, SizeTieredCompactionStruct.next?, flat, hnil]
    exact ⟨hr, rfl⟩
  · have hok : BlockCompactionStruct.Ok { d with it := d.it.next d.sst } := ⟨hd.nonempty, hin⟩
    rw [afterTurn, if_neg (by rw [hin.atEnd]; exact Bool.false_ne_true)]
    refine ⟨?_, ?_⟩
    · intro c hc
      rcases List.mem_cons.mp hc with rfl | hc
      · exact hok
      · exact hr c hc
    · have hahead := hok.remaining_eq
      rw [hrem] at hahead
      rw [afterPop, SizeTieredCompactionStruct.next?, List.map_cons]
      simp only [flat, hrem]
      rw [hahead]
      rfl

theorem blockLoop_succ {fuel : Nat} {q r : List BlockCompactionStruct} {d : BlockCompactionStruct}
    (hq : ∀ c ∈ q, c.Ok) (h : popTop BlockCompactionStruct.lt q = some (d, r))
    (entries : List Entry) :
    blockLoop (fuel + 1) q entries = blockLoop fuel (afterTurn d r) (keep entries d.deref) := by
  have hall : (q.all fun c => (c.it.deref? c.sst).isSome) = true := by
    rw [List.all_eq_true]
    intro c hc
    obtain ⟨e, he⟩ := (hq c hc).inside.deref?
    rw [he]
    rfl
  rw [blockLoop, if_pos hall, h, afterTurn]
  dsimp only
  split <;> rfl

/-- **The two loops agree.** -/
theorem blockLoop_eq : ∀ (fuel : Nat) (q : List BlockCompactionStruct) (entries : List Entry),
    (∀ c ∈ q, c.Ok) → pending (q.map flat) ≤ fuel →
    blockLoop fuel q entries = some (mergeLoop fuel (q.map flat) entries) := by
  intro fuel
  induction fuel with
  | zero =>
    intro q entries hq hf
    cases q with
    | nil => rfl
    | cons c q => simp [pending, SizeTieredCompactionStruct.ahead] at hf
  | succ fuel ih =>
    intro q entries hq hf
    cases hp : popTop BlockCompactionStruct.lt q with
    | none =>
      obtain rfl := popTop_eq_none.mp hp
      rfl
    | some dr =>
      obtain ⟨d, r⟩ := dr
      have hmap : popTop SizeTieredCompactionStruct.lt (q.map flat) =
          some (d.flat, r.map flat) := by
        rw [popTop_map lt_flat, hp]
        rfl
      have hperm := popTop_perm hp
      have hd : d.Ok := hq d (hperm.mem_iff.mpr List.mem_cons_self)
      have hr : ∀ c ∈ r, c.Ok := fun c hc => hq c (hperm.mem_iff.mpr (List.mem_cons_of_mem _ hc))
      obtain ⟨hok, hflat⟩ := afterTurn_flat hd hr
      have hpend : pending ((afterTurn d r).map flat) ≤ fuel := by
        have h1 := pending_perm (popTop_perm hmap)
        rw [pending_afterPop] at h1
        rw [hflat]
        omega
      rw [blockLoop_succ hq hp, ih _ _ hok hpend, hflat, mergeLoop_succ hmap]
      rfl

/-! ### Merging tables of blocks -/

theorem ok_blockStarts (n : Nat) (ts : List BlockTable) : ∀ c ∈ blockStarts n ts, c.Ok := by
  induction ts generalizing n with
  | nil => simp [blockStarts]
  | cons t ts ih =>
    intro c hc
    rcases List.mem_cons.mp hc with rfl | hc
    · exact ⟨t.nonempty, TableIterator.inside_start t⟩
    · exact ih (n + 1) c hc

theorem blockStarts_flat (n : Nat) (ts : List BlockTable) :
    (blockStarts n ts).map flat = starts n (ts.map BlockTable.table) := by
  induction ts generalizing n with
  | nil => rfl
  | cons t ts ih =>
    have hok : (BlockCompactionStruct.start t n).Ok :=
      ok_blockStarts n (t :: ts) _ List.mem_cons_self
    have hrem := hok.remaining_eq
    have hstart : (BlockCompactionStruct.start t n).it.remaining
        (BlockCompactionStruct.start t n).sst = t.entries := TableIterator.remaining_start t
    rw [hstart] at hrem
    rw [blockStarts, List.map_cons, ih, List.map_cons, starts]
    refine congrArg (· :: _) ?_
    rw [flat, hstart]
    show _ = (⟨t.entries.head _, t.entries.tail, n⟩ : SizeTieredCompactionStruct)
    congr 1
    exact (List.head_eq_of_cons_eq ((List.cons_head_tail t.entries_ne_nil).trans hrem)).symm

theorem pending_starts (n : Nat) (ts : List Table) :
    pending (starts n ts) = (ts.map fun t => t.entries.length).sum := by
  induction ts generalizing n with
  | nil => rfl
  | cons t ts ih =>
    rw [starts, List.map_cons, List.sum_cons, ← ih (n + 1), pending, List.map_cons,
      List.sum_cons, SizeTieredCompactionStruct.ahead_start]
    rfl

theorem blockLoop_merge (ts : List BlockTable) (fuel : Nat)
    (hf : (ts.map fun t => t.entries.length).sum ≤ fuel) :
    blockLoop fuel (blockStarts 0 ts) [] = some (merge (starts 0 (ts.map BlockTable.table))) := by
  have hpend : pending ((blockStarts 0 ts).map flat) = (ts.map fun t => t.entries.length).sum := by
    rw [blockStarts_flat, pending_starts, List.map_map]
    rfl
  rw [blockLoop_eq fuel _ [] (ok_blockStarts 0 ts) (by rw [hpend]; exact hf),
    mergeLoop_eq_merge (by rw [hpend]; exact hf), blockStarts_flat]

/-- **The table of a compaction.**  What it writes is the result of the loop over the blocks
of the level, from its last table to its first, and of the tables chosen from the next
level. -/
theorem sizeTieredCompaction_blockLoop {fileSize : FileSize} {m m' : Manifest} {level : Nat}
    {id : Int} {sst : SST} {cur : Level} (hcur : m.levels[level]? = some cur)
    (h : m.sizeTieredCompaction fileSize level id = some (m', sst)) {load : SST → BlockTable}
    (hload : ∀ s, (load s).table = s.table) :
    ∃ ts : List SST, ∀ fuel,
      (((cur.ssts.reverse ++ ts).map load).map fun t => t.entries.length).sum ≤ fuel →
      blockLoop fuel (blockStarts 0 ((cur.ssts.reverse ++ ts).map load)) [] =
        some sst.entries := by
  rw [Manifest.sizeTieredCompaction, hcur] at h
  simp only [Option.bind_eq_bind, Option.bind_some] at h
  obtain ⟨next, -, h⟩ := Option.bind_eq_some_iff.mp h
  obtain ⟨sst', hsst, h⟩ := Option.bind_eq_some_iff.mp h
  obtain rfl : sst' = sst := congrArg Prod.snd (Option.some.inj h)
  obtain ⟨h1, h2⟩ := foldl_collectStep_queue cur.ssts.reverse ⟨[], 0, [], []⟩
  obtain ⟨ts, -, hsel⟩ := selectNext_queue (collect cur.ssts).minKey (collect cur.ssts).maxKey
    next.ssts 0 ⟨(collect cur.ssts).queue, (collect cur.ssts).value, -1, next.ssts.length⟩
  refine ⟨ts, fun fuel hf => ?_⟩
  have htables : ((cur.ssts.reverse ++ ts).map load).map BlockTable.table =
      (cur.ssts.reverse ++ ts).map SST.table := by
    rw [List.map_map]
    exact List.map_congr_left fun s _ => hload s
  have hqueue : (collect cur.ssts).queue ++ starts (collect cur.ssts).value (ts.map SST.table) =
      starts 0 ((cur.ssts.reverse ++ ts).map SST.table) := by
    rw [collect, h1, h2, List.map_append, starts_append, List.length_map]
    rfl
  rw [hsel, hqueue] at hsst
  rw [blockLoop_merge _ fuel hf, htables, SST.entries_of_ofEntries? hsst]

theorem newest_tables {ts : List BlockTable} {k v : Bytes} :
    newest ((ts.map BlockTable.table).map Table.entries) k = some v ↔
      ∃ newer t older, ts = newer ++ t :: older ∧ (k, v) ∈ t.entries ∧
        ∀ s ∈ newer, k ∉ s.entries.map Prod.fst := by
  have hnone : ∀ s : BlockTable, s.entries.lookup k = none ↔ k ∉ s.entries.map Prod.fst := by
    intro s
    simp only [List.lookup_eq_none_iff, bne_iff_ne, List.mem_map, not_exists, not_and]
    exact forall₂_congr fun p _ => ne_comm
  have hsome : ∀ s : BlockTable, s.entries.lookup k = some v ↔ (k, v) ∈ s.entries :=
    fun s => s.sorted.lookup_eq_some
  rw [List.map_map, newest, List.findSome?_map, List.findSome?_eq_some_iff]
  simp only [Function.comp_def]
  refine exists_congr fun newer => exists_congr fun t => exists_congr fun older => ?_
  exact and_congr_right fun _ => and_congr (hsome t) (forall₂_congr fun s _ => hnone s)

/-- Some table has the key exactly when a newest one does. -/
theorem exists_newest_iff {ts : List BlockTable} {k : Bytes} :
    (∃ v, newest ((ts.map BlockTable.table).map Table.entries) k = some v) ↔
      ∃ t ∈ ts, k ∈ t.entries.map Prod.fst := by
  have hkey : ∀ t : BlockTable,
      (t.entries.lookup k).isSome = true ↔ k ∈ t.entries.map Prod.fst := by
    intro t
    simp only [List.lookup_isSome_iff, beq_iff_eq, List.mem_map]
    exact exists_congr fun p => and_congr_right fun _ => eq_comm
  rw [← Option.isSome_iff_exists, List.map_map, newest, List.findSome?_map,
    List.findSome?_isSome_iff]
  exact exists_congr fun t => and_congr_right fun _ => hkey t

/-- **The merge is the union in which the newest table wins.**  However the tables are cut
into blocks, the loop ends within one turn for each entry; its entries increase strictly,
hold each key of the tables exactly once, and give it the value of the newest table that
has it. -/
theorem blockLoop_newest_wins (ts : List BlockTable) :
    ∃ entries : List Entry,
      (∀ fuel, (ts.map fun t => t.entries.length).sum ≤ fuel →
        blockLoop fuel (blockStarts 0 ts) [] = some entries) ∧
      SortedKeys entries ∧
      (∀ k, (entries.map Prod.fst).count k =
        if ∃ t ∈ ts, k ∈ t.entries.map Prod.fst then 1 else 0) ∧
      ∀ k v, (k, v) ∈ entries ↔
        ∃ newer t older, ts = newer ++ t :: older ∧ (k, v) ∈ t.entries ∧
          ∀ s ∈ newer, k ∉ s.entries.map Prod.fst := by
  obtain ⟨hsorted, hmem⟩ := merge_starts_spec (ts.map BlockTable.table)
  refine ⟨_, blockLoop_merge ts, hsorted, ?_, fun k v => (hmem k v).trans newest_tables⟩
  intro k
  have hkey : k ∈ (merge (starts 0 (ts.map BlockTable.table))).map Prod.fst ↔
      ∃ t ∈ ts, k ∈ t.entries.map Prod.fst := by
    rw [← exists_newest_iff]
    simp only [← hmem, List.mem_map, Prod.exists, exists_and_right, exists_eq_right]
  have hnodup : ((merge (starts 0 (ts.map BlockTable.table))).map Prod.fst).Nodup :=
    (List.pairwise_map.mpr hsorted).imp ne_of_lt
  rw [hnodup.count]
  exact if_congr hkey rfl rfl

/-- A block with keys and values of one byte each. -/
def smallBlock (memory : Bytes) : DataBlockIndexIndex where
  offset := 0
  key := memory.take 1
  dataBlockIndex :=
    ⟨0, memory, (List.range (memory.length / 2)).map fun i => ⟨⟨2 * i, 1⟩, ⟨2 * i + 1, 1⟩, i⟩,
      ⟨0, 0, [], []⟩, false, 0⟩

/-- The newer table has two blocks, and the key 1 of the older one is dropped. -/
example :
    blockLoop 4 (blockStarts 0
      [⟨⟨0, 2, [smallBlock [1, 10], smallBlock [3, 30]]⟩, by decide, by decide, by decide⟩,
        ⟨⟨0, 1, [smallBlock [1, 11, 2, 20]]⟩, by decide, by decide, by decide⟩]) [] =
      some [([1], [10]), ([2], [20]), ([3], [30])] := by decide

end Mokv.LSM
