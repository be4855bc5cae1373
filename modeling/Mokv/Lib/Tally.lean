import Mathlib.Data.List.Induction
import Mathlib.Order.Lattice

/-!
# Counters that saturate and are halved

A counter counts the items that hit it, up to a limit, and is halved now and then.  The more
items hit it, the higher it is (`tally_mono`): a shared counter never falls below a private
one, however often both saturate or are halved.
-/

namespace Lib

variable {α : Type*} {limit : Nat}

/-- An item is counted, or all counters are halved. -/
inductive TallyOp (α : Type*) where
  | increment (item : α)
  | reset
deriving DecidableEq

/-- What an operation does to the counter of the items that `hit`. -/
def count (limit : Nat) (hit : α → Bool) (c : Nat) : TallyOp α → Nat
  | .increment item => if hit item then min limit (c + 1) else c
  | .reset => c / 2

/-- The counter after some operations. -/
def tally (limit : Nat) (hit : α → Bool) (ops : List (TallyOp α)) : Nat :=
  ops.foldl (count limit hit) 0

theorem tally_concat (hit : α → Bool) (ops : List (TallyOp α)) (op : TallyOp α) :
    tally limit hit (ops ++ [op]) = count limit hit (tally limit hit ops) op := by
  rw [tally, List.foldl_append]
  rfl

theorem count_le {hit : α → Bool} {c : Nat} (h : c ≤ limit) (op : TallyOp α) :
    count limit hit c op ≤ limit := by
  cases op with
  | increment item =>
    rw [count]
    split
    · exact Nat.min_le_left _ _
    · exact h
  | reset => exact (Nat.div_le_self _ _).trans h

theorem count_mono {hit hit' : α → Bool} (hsub : ∀ x, hit x = true → hit' x = true) {c c' : Nat}
    (hc : c ≤ c') (hlimit : c' ≤ limit) (op : TallyOp α) :
    count limit hit c op ≤ count limit hit' c' op := by
  cases op with
  | increment item =>
    rw [count, count]
    by_cases hh : hit item = true
    · rw [if_pos hh, if_pos (hsub item hh)]
      exact Nat.le_min.mpr ⟨Nat.min_le_left _ _, (Nat.min_le_right _ _).trans (Nat.succ_le_succ hc)⟩
    · rw [if_neg hh]
      split
      · exact Nat.le_min.mpr ⟨hc.trans hlimit, hc.trans (Nat.le_succ c')⟩
      · exact hc
  | reset => exact Nat.div_le_div_right hc

theorem tally_le (hit : α → Bool) (ops : List (TallyOp α)) : tally limit hit ops ≤ limit := by
  induction ops using List.reverseRecOn with
  | nil => exact Nat.zero_le _
  | append_singleton ops op ih =>
    rw [tally_concat]
    exact count_le ih op

/-- **The more items hit a counter, the higher it is.** -/
theorem tally_mono {hit hit' : α → Bool} (hsub : ∀ x, hit x = true → hit' x = true)
    (ops : List (TallyOp α)) : tally limit hit ops ≤ tally limit hit' ops := by
  induction ops using List.reverseRecOn with
  | nil => exact Nat.le_refl _
  | append_singleton ops op ih =>
    rw [tally_concat, tally_concat]
    exact count_mono hsub ih (tally_le hit' ops) op

/-! ### The least of some values -/

section

variable {β : Type*} {f g : β → Nat} {a : Nat}

theorem le_foldl_min_iff (b : Nat) (l : List β) :
    b ≤ l.foldl (fun res x => min res (f x)) a ↔ b ≤ a ∧ ∀ x ∈ l, b ≤ f x := by
  induction l generalizing a with
  | nil => simp
  | cons x l ih =>
    rw [List.foldl_cons, ih, Nat.le_min, List.forall_mem_cons, and_assoc]

theorem foldl_min_eq (l : List β) :
    l.foldl (fun res x => min res (f x)) a = a ∨
      ∃ x ∈ l, f x = l.foldl (fun res x => min res (f x)) a := by
  induction l generalizing a with
  | nil => exact .inl rfl
  | cons x l ih =>
    rw [List.foldl_cons]
    rcases ih (a := min a (f x)) with hmin | ⟨y, hy, hfy⟩
    · rcases Nat.le_total a (f x) with hle | hle
      · rw [Nat.min_eq_left hle] at hmin ⊢
        exact .inl hmin
      · rw [Nat.min_eq_right hle] at hmin ⊢
        exact .inr ⟨x, List.mem_cons_self, hmin.symm⟩
    · exact .inr ⟨y, List.mem_cons_of_mem _ hy, hfy⟩

/-- **Values that are read too high** have the right least one exactly if some value that
attains it is read right. -/
theorem foldl_min_eq_iff {l : List β} (hle : ∀ x ∈ l, g x ≤ f x) :
    l.foldl (fun res x => min res (f x)) a = l.foldl (fun res x => min res (g x)) a ↔
      l.foldl (fun res x => min res (g x)) a = a ∨
        ∃ x ∈ l, f x = l.foldl (fun res x => min res (g x)) a := by
  have hf := (le_foldl_min_iff (f := f) (a := a) _ l).mp (Nat.le_refl _)
  have hg := (le_foldl_min_iff (f := g) (a := a) _ l).mp (Nat.le_refl _)
  have hgf := (le_foldl_min_iff (f := f) (a := a) (l.foldl (fun res x => min res (g x)) a) l).mpr
    ⟨hg.1, fun x hx => (hg.2 x hx).trans (hle x hx)⟩
  constructor
  · intro heq
    rw [← heq]
    exact foldl_min_eq l
  · rintro (heq | ⟨x, hx, hfx⟩)
    · refine Nat.le_antisymm ?_ hgf
      rw [heq]
      exact hf.1
    · refine Nat.le_antisymm ?_ hgf
      rw [← hfx]
      exact hf.2 x hx

end

end Lib
