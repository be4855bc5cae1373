import Mathlib.Data.List.Nodup
import Mokv.Lib.PriorityQueue
import Mokv.LSM.SST

/-!
# The merge of a compaction

`SizeTieredCompaction` (`mokv/lsm/manifest.hpp`) puts an iterator over each input
table into a priority queue, each with a number that grows from the newest table
to the oldest, and then repeats: take the top, keep its entry unless the last key
kept is the same, advance the iterator and put it back.

The invariant of the loop is about what the queue still owes.  `Live q k v` says
that `v` is the value of `k` in the newest iterator of `q` that has `k` ahead of
it.  A turn takes the least key `k₀` with the least number, so it is the live
value of `k₀`; the other iterators at `k₀` come next and are dropped, and no
other key changes (`mergeLoop_spec`).  Over the whole loop the entries are sorted
and hold, for every key, the value of the newest table that has it
(`merge_sorted`, `lookup_merge`).
-/

namespace Mokv.LSM

open Lib

/-- `SizeTieredCompactionStruct`: an iterator, as the entry it is at and those
after it, and the number of its table. -/
structure SizeTieredCompactionStruct where
  entry : Entry
  rest : List Entry
  secondValue : Nat
deriving DecidableEq

namespace SizeTieredCompactionStruct

/-- `operator<`: the top of the queue is the least key, and of those the least number. -/
def lt (lhs rhs : SizeTieredCompactionStruct) : Bool :=
  if lhs.entry.1 = rhs.entry.1 then lhs.secondValue > rhs.secondValue
  else lhs.entry.1 > rhs.entry.1

/-- `++it`, and whether the iterator is still inside its table. -/
def next? (c : SizeTieredCompactionStruct) : Option SizeTieredCompactionStruct :=
  match c.rest with
  | [] => none
  | e :: es => some { c with entry := e, rest := es }

/-- The entries the iterator has still to give. -/
def ahead (c : SizeTieredCompactionStruct) : List Entry := c.entry :: c.rest

/-- An iterator at the begin of a table. -/
def start (t : Table) (value : Nat) : SizeTieredCompactionStruct :=
  ⟨t.entries.head t.nonempty, t.entries.tail, value⟩

theorem ahead_start (t : Table) (value : Nat) : (start t value).ahead = t.entries :=
  List.cons_head_tail t.nonempty

theorem lt_self (a : SizeTieredCompactionStruct) : lt a a = false := by
  rw [lt, if_pos rfl]
  simp

theorem lt_eq_false {a b : SizeTieredCompactionStruct} :
    lt a b = false ↔
      a.entry.1 < b.entry.1 ∨ (a.entry.1 = b.entry.1 ∧ a.secondValue ≤ b.secondValue) := by
  rw [lt]
  by_cases h : a.entry.1 = b.entry.1
  · rw [if_pos h]
    simp [h]
  · rw [if_neg h]
    simp only [gt_iff_lt, decide_eq_false_iff_not, not_lt, h, false_and, or_false]
    exact ⟨fun hle => lt_of_le_of_ne hle h, le_of_lt⟩

theorem lt_trans_false (a b c : SizeTieredCompactionStruct) (hab : lt a b = false)
    (hbc : lt b c = false) : lt a c = false := by
  rw [lt_eq_false] at *
  rcases hab with hab | ⟨hab, hab'⟩ <;> rcases hbc with hbc | ⟨hbc, hbc'⟩
  · exact Or.inl (lt_trans hab hbc)
  · exact Or.inl (hbc ▸ hab)
  · exact Or.inl (hab ▸ hbc)
  · exact Or.inr ⟨hab.trans hbc, Nat.le_trans hab' hbc'⟩

theorem lt_asymm_false (a b : SizeTieredCompactionStruct) (h : lt a b = true) :
    lt b a = false := by
  rw [lt] at h
  rw [lt_eq_false]
  by_cases he : a.entry.1 = b.entry.1
  · rw [if_pos he] at h
    exact Or.inr ⟨he.symm, le_of_lt (by simpa using h)⟩
  · rw [if_neg he] at h
    exact Or.inl (by simpa using h)

end SizeTieredCompactionStruct

open SizeTieredCompactionStruct

/-! ### The loop -/

/-- The number of entries the queue has still to give. -/
def pending (q : List SizeTieredCompactionStruct) : Nat := (q.map fun c => c.ahead.length).sum

/-- Keep an entry unless the last key kept is the same. -/
def keep (entries : List Entry) (e : Entry) : List Entry :=
  if entries = [] ∨ entries.getLast?.map Prod.fst ≠ some e.1 then entries ++ [e] else entries

/-- `while (!queue.empty())`, with a bound on the number of turns. -/
def mergeLoop : Nat → List SizeTieredCompactionStruct → List Entry → List Entry
  | 0, _, entries => entries
  | fuel + 1, queue, entries =>
    match popTop lt queue with
    | none => entries
    | some (data, queue) =>
      match data.next? with
      | some next => mergeLoop fuel (next :: queue) (keep entries data.entry)
      | none => mergeLoop fuel queue (keep entries data.entry)

/-- The merged entries.  Every turn takes one entry, so the loop ends within `pending`
turns. -/
def merge (queue : List SizeTieredCompactionStruct) : List Entry :=
  mergeLoop (pending queue) queue []

/-- What the queue owes for a key: the value in the newest table that has it ahead. -/
def Live (q : List SizeTieredCompactionStruct) (k v : Bytes) : Prop :=
  ∃ c ∈ q, (k, v) ∈ c.ahead ∧
    ∀ c' ∈ q, (∃ v', (k, v') ∈ c'.ahead) → c.secondValue ≤ c'.secondValue

/-- The iterators run over sorted entries and their numbers differ. -/
structure QueueOk (q : List SizeTieredCompactionStruct) : Prop where
  sorted : ∀ c ∈ q, SortedKeys c.ahead
  numbers : (q.map secondValue).Nodup

theorem QueueOk.perm {q q' : List SizeTieredCompactionStruct} (h : QueueOk q) (hp : q.Perm q') :
    QueueOk q' :=
  ⟨fun c hc => h.sorted c (hp.mem_iff.mpr hc), (hp.map _).nodup_iff.mp h.numbers⟩

theorem pending_perm {q q' : List SizeTieredCompactionStruct} (hp : q.Perm q') :
    pending q = pending q' := (hp.map _).sum_nat

theorem live_perm {q q' : List SizeTieredCompactionStruct} (hp : q.Perm q') (k v : Bytes) :
    Live q k v ↔ Live q' k v := by
  simp only [Live, hp.mem_iff]

/-- The queue after the iterator at the top has moved. -/
def afterPop (data : SizeTieredCompactionStruct) (queue : List SizeTieredCompactionStruct) :
    List SizeTieredCompactionStruct :=
  match data.next? with
  | some data => data :: queue
  | none => queue

theorem mergeLoop_succ {fuel : Nat} {q r : List SizeTieredCompactionStruct}
    {d : SizeTieredCompactionStruct} (h : popTop lt q = some (d, r)) (entries : List Entry) :
    mergeLoop (fuel + 1) q entries =
      mergeLoop fuel (afterPop d r) (keep entries d.entry) := by
  rw [mergeLoop, h, afterPop]
  dsimp only
  cases d.next? <;> rfl

/-! ### One turn -/

section Turn

variable {d : SizeTieredCompactionStruct} {r : List SizeTieredCompactionStruct}

theorem mem_afterPop {c : SizeTieredCompactionStruct} (hc : c ∈ afterPop d r) :
    c ∈ r ∨ (c.ahead = d.rest ∧ c.secondValue = d.secondValue) := by
  rw [afterPop, next?] at hc
  cases hr : d.rest with
  | nil => rw [hr] at hc; exact Or.inl hc
  | cons e es =>
    rw [hr] at hc
    rcases List.mem_cons.mp hc with rfl | hc
    · exact Or.inr ⟨rfl, rfl⟩
    · exact Or.inl hc

theorem mem_afterPop_of_mem {c : SizeTieredCompactionStruct} (hc : c ∈ r) : c ∈ afterPop d r := by
  rw [afterPop]
  cases d.next? with
  | none => exact hc
  | some d' => exact List.mem_cons_of_mem _ hc

theorem exists_mem_afterPop {e : Entry} (he : e ∈ d.rest) :
    ∃ c ∈ afterPop d r, c.ahead = d.rest ∧ c.secondValue = d.secondValue := by
  rw [afterPop, next?]
  cases hr : d.rest with
  | nil => rw [hr] at he; simp at he
  | cons e' es => exact ⟨_, List.mem_cons_self, rfl, rfl⟩

theorem pending_afterPop : pending (d :: r) = pending (afterPop d r) + 1 := by
  rw [afterPop, next?]
  cases hr : d.rest with
  | nil => simp [pending, ahead, hr]; omega
  | cons e es => simp [pending, ahead, hr]; omega

theorem queueOk_afterPop (h : QueueOk (d :: r)) : QueueOk (afterPop d r) := by
  refine ⟨?_, ?_⟩
  · intro c hc
    rcases mem_afterPop hc with hc | ⟨hc, -⟩
    · exact h.sorted c (List.mem_cons_of_mem _ hc)
    · rw [hc]
      exact (sortedKeys_cons.mp (h.sorted d List.mem_cons_self)).2
  · have hn := h.numbers
    rw [afterPop, next?]
    cases d.rest with
    | nil => exact (List.nodup_cons.mp hn).2
    | cons e es => exact hn

variable (hmin : ∀ c ∈ d :: r, lt d c = false)

include hmin

theorem top_key_le {c : SizeTieredCompactionStruct} (hc : c ∈ d :: r) : d.entry.1 ≤ c.entry.1 := by
  rcases lt_eq_false.mp (hmin c hc) with h | ⟨h, -⟩
  · exact le_of_lt h
  · exact le_of_eq h

theorem key_eq_of_mem (h : QueueOk (d :: r)) {c : SizeTieredCompactionStruct} (hc : c ∈ d :: r)
    {v : Bytes} (hv : (d.entry.1, v) ∈ c.ahead) : c.entry.1 = d.entry.1 := by
  rcases List.mem_cons.mp hv with he | he
  · rw [← he]
  · have := (sortedKeys_cons.mp (h.sorted c hc)).1 _ he
    exact absurd (top_key_le hmin hc) (not_le.mpr this)

/-- **The top is the live entry of its key.** -/
theorem live_top (h : QueueOk (d :: r)) (v : Bytes) :
    Live (d :: r) d.entry.1 v ↔ v = d.entry.2 := by
  have hleast : ∀ c ∈ d :: r, (∃ v', (d.entry.1, v') ∈ c.ahead) →
      d.secondValue ≤ c.secondValue := by
    rintro c hc ⟨v', hv'⟩
    have hk := key_eq_of_mem hmin h hc hv'
    rcases lt_eq_false.mp (hmin c hc) with hlt | ⟨-, hle⟩
    · exact absurd hlt (by rw [hk]; exact lt_irrefl _)
    · exact hle
  constructor
  · rintro ⟨c, hc, hv, hcmin⟩
    have hdc : c.secondValue = d.secondValue :=
      Nat.le_antisymm (hcmin d List.mem_cons_self ⟨_, List.mem_cons_self⟩)
        (hleast c hc ⟨v, hv⟩)
    have hcd : c = d := List.inj_on_of_nodup_map h.numbers hc List.mem_cons_self hdc
    subst hcd
    exact (h.sorted c hc).eq_of_mem hv List.mem_cons_self
  · rintro rfl
    exact ⟨d, List.mem_cons_self, List.mem_cons_self, hleast⟩

omit hmin in
/-- **A turn changes nothing for the other keys.** -/
theorem live_afterPop {k : Bytes} (hk : k ≠ d.entry.1) (v : Bytes) :
    Live (afterPop d r) k v ↔ Live (d :: r) k v := by
  have hd : ∀ w, (k, w) ∈ d.ahead ↔ (k, w) ∈ d.rest := by
    intro w
    rw [ahead, List.mem_cons]
    exact ⟨fun h => h.resolve_left fun he => hk (congrArg Prod.fst he), Or.inr⟩
  constructor
  · rintro ⟨c, hc, hv, hmin⟩
    have hle : ∀ c' ∈ d :: r, (∃ v', (k, v') ∈ c'.ahead) → c.secondValue ≤ c'.secondValue := by
      rintro c' hc' ⟨v', hv'⟩
      rcases List.mem_cons.mp hc' with rfl | hc'
      · have hr := (hd v').mp hv'
        obtain ⟨c'', h1, h2, h3⟩ := exists_mem_afterPop (r := r) hr
        exact h3 ▸ hmin c'' h1 ⟨v', by rw [h2]; exact hr⟩
      · exact hmin c' (mem_afterPop_of_mem hc') ⟨v', hv'⟩
    rcases mem_afterPop hc with hc | ⟨h1, h2⟩
    · exact ⟨c, List.mem_cons_of_mem _ hc, hv, hle⟩
    · exact ⟨d, List.mem_cons_self, (hd v).mpr (h1 ▸ hv), fun c' hc' hv' => h2 ▸ hle c' hc' hv'⟩
  · rintro ⟨c, hc, hv, hmin⟩
    have hle : ∀ c' ∈ afterPop d r, (∃ v', (k, v') ∈ c'.ahead) →
        c.secondValue ≤ c'.secondValue := by
      rintro c' hc' ⟨v', hv'⟩
      rcases mem_afterPop hc' with hc' | ⟨h1, h2⟩
      · exact hmin c' (List.mem_cons_of_mem _ hc') ⟨v', hv'⟩
      · exact h2 ▸ hmin d List.mem_cons_self ⟨v', (hd v').mpr (h1 ▸ hv')⟩
    rcases List.mem_cons.mp hc with rfl | hc
    · have hr := (hd v).mp hv
      obtain ⟨c', h1, h2, h3⟩ := exists_mem_afterPop (r := r) hr
      exact ⟨c', h1, by rw [h2]; exact hr, fun c'' hc'' hv'' => h3 ▸ hle c'' hc'' hv''⟩
    · exact ⟨c, mem_afterPop_of_mem hc, hv, hle⟩

end Turn

/-! ### The whole loop -/

/-- What the kept entries and the queue promise together. -/
structure LoopInv (q : List SizeTieredCompactionStruct) (acc : List Entry) : Prop where
  queue : QueueOk q
  sorted : SortedKeys acc
  /-- No iterator is behind the last key kept. -/
  behind : ∀ e ∈ acc.getLast?, ∀ c ∈ q, e.1 ≤ c.entry.1

theorem le_getLast {acc : List Entry} (hs : SortedKeys acc) {e b : Entry}
    (he : e ∈ acc.getLast?) (hb : b ∈ acc) : b.1 ≤ e.1 := by
  obtain ⟨l, rfl⟩ := List.getLast?_eq_some_iff.mp he
  rcases List.mem_append.mp hb with hb | hb
  · exact le_of_lt ((List.pairwise_append.mp hs).2.2 b hb e (List.mem_singleton_self e))
  · rw [List.mem_singleton.mp hb]

/-- A turn keeps an entry exactly when its key is new. -/
theorem mem_keep {acc : List Entry} (hs : SortedKeys acc) {e : Entry}
    (hlast : ∀ b ∈ acc.getLast?, b.1 ≤ e.1) :
    (keep acc e = acc ++ [e] ∧ ∀ b ∈ acc, b.1 < e.1) ∨
      (keep acc e = acc ∧ ∃ w, (e.1, w) ∈ acc) := by
  rw [keep]
  cases hl : acc.getLast? with
  | none =>
    obtain rfl := List.getLast?_eq_none_iff.mp hl
    exact Or.inl ⟨rfl, by simp⟩
  | some b =>
    by_cases hb : b.1 = e.1
    · have hne : acc ≠ [] := by
        rintro rfl
        simp at hl
      refine Or.inr ⟨if_neg ?_, b.2, ?_⟩
      · simpa [hne] using hb
      · rw [← hb]
        exact List.mem_of_getLast? hl
    · refine Or.inl ⟨if_pos (Or.inr (by simpa using hb)), ?_⟩
      intro c hc
      exact lt_of_le_of_lt (le_getLast hs hl hc) (lt_of_le_of_ne (hlast b hl) hb)

theorem LoopInv.turn {q r : List SizeTieredCompactionStruct} {acc : List Entry}
    {d : SizeTieredCompactionStruct} (h : LoopInv q acc) (hp : popTop lt q = some (d, r)) :
    LoopInv (afterPop d r) (keep acc d.entry) ∧
      ∀ k v, ((k, v) ∈ keep acc d.entry ∨
          ((∀ w, (k, w) ∉ keep acc d.entry) ∧ Live (afterPop d r) k v)) ↔
        ((k, v) ∈ acc ∨ ((∀ w, (k, w) ∉ acc) ∧ Live q k v)) := by
  have hperm := popTop_perm hp
  have hq := h.queue.perm hperm
  have hmin : ∀ c ∈ d :: r, lt d c = false := fun c hc =>
    popTop_max lt_self lt_trans_false lt_asymm_false hp c (hperm.mem_iff.mpr hc)
  have hd : d ∈ q := hperm.mem_iff.mpr List.mem_cons_self
  have hafter : ∀ c ∈ afterPop d r, d.entry.1 ≤ c.entry.1 := by
    intro c hc
    rcases mem_afterPop hc with hc | ⟨hc, -⟩
    · exact top_key_le hmin (List.mem_cons_of_mem _ hc)
    · refine le_of_lt ((sortedKeys_cons.mp (hq.sorted d List.mem_cons_self)).1 _ ?_)
      rw [← hc]
      exact List.mem_cons_self
  rcases mem_keep h.sorted (fun b hb => h.behind b hb d hd) with ⟨hk, hlt⟩ | ⟨hk, w₀, hw₀⟩
  · -- a new key: the entry is appended
    have hnew : ∀ w, (d.entry.1, w) ∉ acc := fun w hw => lt_irrefl d.entry.1 (hlt (d.entry.1, w) hw)
    rw [hk]
    refine ⟨⟨queueOk_afterPop hq, ?_, ?_⟩, ?_⟩
    · refine List.pairwise_append.mpr ⟨h.sorted, List.pairwise_singleton _ _, ?_⟩
      intro b hb c hc
      rw [List.mem_singleton.mp hc]
      exact hlt b hb
    · intro e he
      rw [List.getLast?_concat] at he
      obtain rfl : d.entry = e := Option.some.inj he
      exact hafter
    · intro k v
      by_cases hkd : k = d.entry.1
      · subst hkd
        rw [live_perm hperm, live_top hmin hq]
        have hv : (d.entry.1, v) = d.entry ↔ v = d.entry.2 :=
          ⟨fun he => congrArg Prod.snd he, fun he => by rw [he]⟩
        simp only [List.mem_append, List.mem_singleton, hv]
        constructor
        · rintro ((ha | ha) | ⟨ha, -⟩)
          · exact Or.inl ha
          · exact Or.inr ⟨hnew, ha⟩
          · exact absurd (Or.inr rfl) (ha d.entry.2)
        · rintro (ha | ⟨-, ha⟩)
          · exact Or.inl (Or.inl ha)
          · exact Or.inl (Or.inr ha)
      · have hmem : ∀ w, (k, w) ∈ acc ++ [d.entry] ↔ (k, w) ∈ acc := by
          intro w
          rw [List.mem_append, List.mem_singleton]
          exact ⟨fun hh => hh.resolve_right fun he => hkd (congrArg Prod.fst he), Or.inl⟩
        simp only [hmem, live_afterPop hkd, live_perm hperm]
  · -- the key of the last entry again: an older value, dropped
    rw [hk]
    refine ⟨⟨queueOk_afterPop hq, h.sorted, ?_⟩, ?_⟩
    · intro e he c hc
      exact le_trans (h.behind e he d hd) (hafter c hc)
    · intro k v
      by_cases hkd : k = d.entry.1
      · subst hkd
        refine or_congr_right (iff_of_false ?_ ?_) <;> exact fun hh => hh.1 w₀ hw₀
      · simp only [live_afterPop hkd, live_perm hperm]

/-- **The loop.**  With turns for everything pending, it keeps the entries sorted and
adds, for each new key, its live value. -/
theorem mergeLoop_spec : ∀ (fuel : Nat) (q : List SizeTieredCompactionStruct) (acc : List Entry),
    LoopInv q acc → pending q ≤ fuel →
    SortedKeys (mergeLoop fuel q acc) ∧
      ∀ k v, (k, v) ∈ mergeLoop fuel q acc ↔
        ((k, v) ∈ acc ∨ ((∀ w, (k, w) ∉ acc) ∧ Live q k v)) := by
  intro fuel
  induction fuel with
  | zero =>
    intro q acc h hf
    have hq : q = [] := by
      cases q with
      | nil => rfl
      | cons c q => simp [pending, ahead] at hf
    subst hq
    exact ⟨h.sorted, fun k v => by simp [mergeLoop, Live]⟩
  | succ fuel ih =>
    intro q acc h hf
    cases hp : popTop lt q with
    | none =>
      obtain rfl := popTop_eq_none.mp hp
      exact ⟨h.sorted, fun k v => by simp [mergeLoop, popTop, Live]⟩
    | some dr =>
      obtain ⟨d, r⟩ := dr
      obtain ⟨hinv, hiff⟩ := h.turn hp
      have hpend : pending (afterPop d r) ≤ fuel := by
        have := pending_perm (popTop_perm hp)
        rw [pending_afterPop] at this
        omega
      obtain ⟨h1, h2⟩ := ih _ _ hinv hpend
      rw [mergeLoop_succ hp]
      exact ⟨h1, fun k v => (h2 k v).trans (hiff k v)⟩

theorem mergeLoop_stable : ∀ (fuel : Nat) (q : List SizeTieredCompactionStruct) (acc : List Entry),
    pending q ≤ fuel → mergeLoop (fuel + 1) q acc = mergeLoop fuel q acc := by
  intro fuel
  induction fuel with
  | zero =>
    intro q acc hf
    cases q with
    | nil => rfl
    | cons c q => simp [pending, ahead] at hf
  | succ fuel ih =>
    intro q acc hf
    cases hp : popTop lt q with
    | none =>
      obtain rfl := popTop_eq_none.mp hp
      rfl
    | some dr =>
      obtain ⟨d, r⟩ := dr
      have hpend := pending_perm (popTop_perm hp)
      rw [pending_afterPop] at hpend
      rw [mergeLoop_succ hp, mergeLoop_succ hp, ih _ _ (by omega)]

theorem mergeLoop_eq_merge {fuel : Nat} {q : List SizeTieredCompactionStruct}
    (hf : pending q ≤ fuel) : mergeLoop fuel q [] = merge q := by
  induction fuel, hf using Nat.le_induction with
  | base => rfl
  | succ fuel hf ih => rw [mergeLoop_stable fuel q [] hf, ih]

/-! ### Merging tables -/

/-- Iterators at the begin of the tables, numbered from `n` on. -/
def starts : Nat → List Table → List SizeTieredCompactionStruct
  | _, [] => []
  | n, t :: ts => start t n :: starts (n + 1) ts

theorem starts_append (n : Nat) (ts us : List Table) :
    starts n (ts ++ us) = starts n ts ++ starts (n + ts.length) us := by
  induction ts generalizing n with
  | nil => rfl
  | cons t ts ih =>
    rw [List.cons_append, starts, starts, ih, List.cons_append, List.length_cons]
    rw [show n + 1 + ts.length = n + (ts.length + 1) by omega]

theorem le_secondValue_of_mem_starts {n : Nat} {ts : List Table} {c : SizeTieredCompactionStruct}
    (hc : c ∈ starts n ts) : n ≤ c.secondValue := by
  induction ts generalizing n with
  | nil => simp [starts] at hc
  | cons t ts ih =>
    rcases List.mem_cons.mp hc with rfl | hc
    · exact Nat.le_refl n
    · exact Nat.le_of_succ_le (ih hc)

theorem queueOk_starts (n : Nat) (ts : List Table) : QueueOk (starts n ts) := by
  induction ts generalizing n with
  | nil => exact ⟨by simp [starts], by simp [starts]⟩
  | cons t ts ih =>
    refine ⟨?_, ?_⟩
    · intro c hc
      rcases List.mem_cons.mp hc with rfl | hc
      · rw [ahead_start]
        exact t.sorted
      · exact (ih (n + 1)).sorted c hc
    · rw [starts, List.map_cons, List.nodup_cons]
      refine ⟨?_, (ih (n + 1)).numbers⟩
      intro hm
      obtain ⟨c, hc, he⟩ := List.mem_map.mp hm
      have h1 := le_secondValue_of_mem_starts hc
      rw [he] at h1
      exact absurd h1 (Nat.not_succ_le_self n)

theorem live_starts (n : Nat) (ts : List Table) (k v : Bytes) :
    Live (starts n ts) k v ↔ newest (ts.map Table.entries) k = some v := by
  induction ts generalizing n with
  | nil => simp [starts, Live]
  | cons t ts ih =>
    rw [List.map_cons, newest_cons, starts]
    have hmem : ∀ w, (k, w) ∈ (start t n).ahead ↔ t.entries.lookup k = some w := by
      intro w
      rw [ahead_start, t.sorted.lookup_eq_some]
    cases ht : t.entries.lookup k with
    | some w =>
      rw [Option.some_or, Option.some.injEq]
      constructor
      · rintro ⟨c, hc, hv, hmin⟩
        have hle := hmin _ List.mem_cons_self ⟨w, (hmem w).mpr ht⟩
        rcases List.mem_cons.mp hc with rfl | hc
        · exact Option.some.inj (ht.symm.trans ((hmem v).mp hv))
        · exact absurd hle (Nat.not_le.mpr (le_secondValue_of_mem_starts hc))
      · rintro rfl
        refine ⟨_, List.mem_cons_self, (hmem w).mpr ht, ?_⟩
        intro c hc _
        rcases List.mem_cons.mp hc with rfl | hc
        · exact Nat.le_refl _
        · exact Nat.le_of_lt (le_secondValue_of_mem_starts hc)
    | none =>
      rw [Option.none_or, ← ih (n + 1)]
      have hno : ∀ w, (k, w) ∉ (start t n).ahead := fun w hw => by
        rw [hmem, ht] at hw
        cases hw
      constructor
      · rintro ⟨c, hc, hv, hmin⟩
        rcases List.mem_cons.mp hc with rfl | hc
        · exact absurd hv (hno v)
        · exact ⟨c, hc, hv, fun c' hc' => hmin c' (List.mem_cons_of_mem _ hc')⟩
      · rintro ⟨c, hc, hv, hmin⟩
        refine ⟨c, List.mem_cons_of_mem _ hc, hv, ?_⟩
        intro c' hc' hv'
        rcases List.mem_cons.mp hc' with rfl | hc'
        · exact absurd hv'.choose_spec (hno _)
        · exact hmin c' hc' hv'

theorem merge_starts_spec (ts : List Table) :
    SortedKeys (merge (starts 0 ts)) ∧
      ∀ k v, (k, v) ∈ merge (starts 0 ts) ↔ newest (ts.map Table.entries) k = some v := by
  have h := mergeLoop_spec (pending (starts 0 ts)) (starts 0 ts) []
    ⟨queueOk_starts 0 ts, sortedKeys_nil, by simp⟩ (Nat.le_refl _)
  refine ⟨h.1, ?_⟩
  intro k v
  rw [merge, h.2, live_starts]
  simp

theorem merge_sorted (ts : List Table) : SortedKeys (merge (starts 0 ts)) :=
  (merge_starts_spec ts).1

/-- **The merge reads as the stack of its inputs.** -/
theorem lookup_merge (ts : List Table) (k : Bytes) :
    (merge (starts 0 ts)).lookup k = newest (ts.map Table.entries) k := by
  refine Option.ext ?_
  intro v
  rw [(merge_sorted ts).lookup_eq_some, (merge_starts_spec ts).2]

theorem mem_of_mem_merge {ts : List Table} {e : Entry} (he : e ∈ merge (starts 0 ts)) :
    ∃ t ∈ ts, e ∈ t.entries := by
  obtain ⟨l, hl, hlk⟩ := mem_of_newest (((merge_starts_spec ts).2 e.1 e.2).mp he)
  obtain ⟨t, ht, rfl⟩ := List.mem_map.mp hl
  exact ⟨t, ht, t.sorted.lookup_eq_some.mp hlk⟩

theorem merge_ne_nil {ts : List Table} (h : ts ≠ []) : merge (starts 0 ts) ≠ [] := by
  obtain ⟨t, ts, rfl⟩ := List.exists_cons_of_ne_nil h
  obtain ⟨e, l, hl⟩ := List.exists_cons_of_ne_nil t.nonempty
  intro hn
  have hlk : t.entries.lookup e.1 = some e.2 :=
    t.sorted.lookup_eq_some.mpr (by rw [hl]; exact List.mem_cons_self)
  have hm := ((merge_starts_spec (t :: ts)).2 e.1 e.2).mpr
    (by rw [List.map_cons, newest_cons, hlk]; rfl)
  rw [hn] at hm
  simp at hm

end Mokv.LSM
