import Mathlib.Data.Fintype.Card
import Mathlib.Data.List.Infix

/-!
# Majorities

A majority of a finite set of nodes is a set of more than half of them, and two
majorities share a node (`Majority.inter`).

For logs that only grow, this alone decides what can be held by a majority: two
log prefixes that are each held by a majority are prefixes of one another
(`HeldByMajority.prefix_total`), because the shared node holds both.

A node finds a majority by asking the others one after another and counting.  While it
does, the count is that of a set of nodes which were asked and said yes (`Tally`).  When all
were asked at one time, it is the size of that set (`foldl_count_eq_card`).
-/

namespace Lib

variable {P : Type*} [Fintype P]

/-- More than half of the nodes. -/
def Majority (S : Finset P) : Prop := Fintype.card P < 2 * S.card

instance (S : Finset P) : Decidable (Majority S) := inferInstanceAs (Decidable (_ < _))

/-- **Two majorities share a node.** -/
theorem Majority.inter {S T : Finset P} (hS : Majority S) (hT : Majority T) :
    ∃ p, p ∈ S ∧ p ∈ T := by
  classical
  by_contra hn
  have hd : Disjoint S T := Finset.disjoint_left.mpr fun p hp hq => hn ⟨p, hp, hq⟩
  have hle : (S ∪ T).card ≤ Fintype.card P := Finset.card_le_univ _
  rw [Finset.card_union_of_disjoint hd] at hle
  rw [Majority] at hS hT
  omega

/-! ### Counting -/

variable {α : Type*}

/-- Of the nodes `all`, those of `rest` are still to be asked, and `n - base` of the
others have `P`. -/
def Tally (all : List α) (P : α → Prop) (rest : List α) (base n : Nat) : Prop :=
  rest <:+ all ∧ ∃ S : Finset α, (∀ p ∈ S, p ∈ all ∧ p ∉ rest ∧ P p) ∧ n = base + S.card

namespace Tally

variable {all rest : List α} {P : α → Prop} {base n : Nat}

theorem start (all : List α) (P : α → Prop) (base : Nat) : Tally all P all base base :=
  ⟨List.suffix_refl _, ∅, by simp, by simp⟩

theorem mono {Q : α → Prop} (h : Tally all P rest base n) (hPQ : ∀ p, P p → Q p) :
    Tally all Q rest base n := by
  obtain ⟨hrest, S, hS, hn⟩ := h
  exact ⟨hrest, S, fun p hp => ⟨(hS p hp).1, (hS p hp).2.1, hPQ p (hS p hp).2.2⟩, hn⟩

theorem mem_all {f : α} (h : Tally all P (f :: rest) base n) : f ∈ all :=
  h.1.mem (List.mem_cons_self ..)

theorem skip {f : α} (h : Tally all P (f :: rest) base n) : Tally all P rest base n := by
  obtain ⟨hrest, S, hS, hn⟩ := h
  refine ⟨(List.suffix_cons f rest).trans hrest, S, fun p hp => ⟨(hS p hp).1, ?_,
    (hS p hp).2.2⟩, hn⟩
  intro hr
  exact (hS p hp).2.1 (List.mem_cons_of_mem f hr)

theorem count {f : α} (hall : all.Nodup) (h : Tally all P (f :: rest) base n) (hf : P f) :
    Tally all P rest base (n + 1) := by
  classical
  obtain ⟨hrest, S, hS, hn⟩ := h
  have hnd : (f :: rest).Nodup := hall.sublist hrest.sublist
  have hfS : f ∉ S := fun hp => (hS f hp).2.1 (List.mem_cons_self ..)
  refine ⟨(List.suffix_cons f rest).trans hrest, insert f S, ?_, ?_⟩
  · intro p hp
    rcases Finset.mem_insert.mp hp with rfl | hp
    · exact ⟨hrest.mem (List.mem_cons_self ..), (List.nodup_cons.mp hnd).1, hf⟩
    · exact ⟨(hS p hp).1, fun hr => (hS p hp).2.1 (List.mem_cons_of_mem f hr), (hS p hp).2.2⟩
  · rw [Finset.card_insert_of_notMem hfS, hn]
    omega

/-- A node that answered `b` is counted if `b` says so. -/
theorem step {f : α} {b : Prop} [Decidable b] (hall : all.Nodup)
    (h : Tally all P (f :: rest) base n) (hf : b → P f) :
    Tally all P rest base (if b then n + 1 else n) := by
  split
  · rename_i hb
    exact h.count hall (hf hb)
  · exact h.skip

end Tally

theorem foldl_count (P : α → Prop) [DecidablePred P] (l : List α) (n : Nat) :
    l.foldl (fun n p => if P p then n + 1 else n) n =
      n + (l.filter fun p => decide (P p)).length := by
  induction l generalizing n with
  | nil => rfl
  | cons p l ih =>
    rw [List.foldl_cons, ih]
    by_cases hp : P p
    · rw [if_pos hp, List.filter_cons_of_pos (by simpa using hp), List.length_cons]
      omega
    · rw [if_neg hp, List.filter_cons_of_neg (by simpa using hp)]

/-- **A count is the size of a set**: of the nodes `first`, counted from the beginning, and those
of the list that say yes. -/
theorem foldl_count_eq_card [DecidableEq α] {P : α → Prop} [DecidablePred P] {S : Finset α}
    (first : List α) {l : List α} (hfirst : first.Nodup) (hl : l.Nodup)
    (hd : ∀ p ∈ first, p ∉ l) (hmem : ∀ p, p ∈ S ↔ p ∈ first ∨ p ∈ l ∧ P p) :
    l.foldl (fun n p => if P p then n + 1 else n) first.length = S.card := by
  have heq : S = (first ++ l.filter fun p => decide (P p)).toFinset := by
    ext p
    rw [hmem, List.mem_toFinset, List.mem_append, List.mem_filter, decide_eq_true_eq]
  have hdisj : first.Disjoint (l.filter fun p => decide (P p)) := fun p hp hf =>
    hd p hp (List.mem_filter.mp hf).1
  rw [foldl_count, heq,
    List.toFinset_card_of_nodup (List.nodup_append'.mpr ⟨hfirst, hl.filter _, hdisj⟩),
    List.length_append]

/-! ### Prefixes held by a majority -/

variable {E : Type*}

theorem getElem?_of_isPrefix {l l' : List E} (h : l <+: l') {k : Nat} {x : E}
    (hk : l[k]? = some x) : l'[k]? = some x := by
  obtain ⟨t, rfl⟩ := h
  rw [List.getElem?_append_left (List.getElem?_eq_some_iff.mp hk).1, hk]

/-- A majority of the nodes hold `l` as a prefix of their log. -/
def HeldByMajority (log : P → List E) (l : List E) : Prop :=
  ∃ S : Finset P, Majority S ∧ ∀ p ∈ S, l <+: log p

theorem HeldByMajority.mono {log log' : P → List E} {l : List E} (h : HeldByMajority log l)
    (hg : ∀ p, log p <+: log' p) : HeldByMajority log' l := by
  obtain ⟨S, hS, hl⟩ := h
  exact ⟨S, hS, fun p hp => (hl p hp).trans (hg p)⟩

theorem HeldByMajority.of_isPrefix {log : P → List E} {l l' : List E} (h : HeldByMajority log l)
    (hl : l' <+: l) : HeldByMajority log l' := by
  obtain ⟨S, hS, hh⟩ := h
  exact ⟨S, hS, fun p hp => hl.trans (hh p hp)⟩

/-- **What two majorities hold cannot disagree.** -/
theorem HeldByMajority.prefix_total {log : P → List E} {l l' : List E}
    (h : HeldByMajority log l) (h' : HeldByMajority log l') : l <+: l' ∨ l' <+: l := by
  obtain ⟨S, hS, hl⟩ := h
  obtain ⟨T, hT, hl'⟩ := h'
  obtain ⟨p, hp, hq⟩ := hS.inter hT
  exact List.prefix_or_prefix_of_prefix (hl p hp) (hl' p hq)

end Lib
