import Mathlib.Data.List.Basic

/-!
# Order of last use

`uses` is the list of keys in the order in which they were used, a key once for each use.
`UsedBefore uses k k'`: the last use of `k` is before one of `k'`.  A list is `ByRecency` when
every key was used after those behind it, as the list of a cache that drops what was not used
for the longest time: a used key goes to the front (`ByRecency.use`), and the last one was not
used for the longest time (`ByRecency.getLast`).
-/

namespace Lib

variable {K : Type*} {uses l : List K} {k k' x : K}

/-- The last use of `k` is before a use of `k'`. -/
def UsedBefore (uses : List K) (k k' : K) : Prop :=
  ∃ a b, uses = a ++ k' :: b ∧ k ∈ a ∧ k ≠ k' ∧ k ∉ b

/-- Every key was used after those behind it. -/
def ByRecency (uses l : List K) : Prop := l.Pairwise fun k k' => UsedBefore uses k' k

theorem usedBefore_concat (hk : k ∈ uses) (hx : k ≠ x) : UsedBefore (uses ++ [x]) k x :=
  ⟨uses, [], rfl, hk, hx, List.not_mem_nil⟩

theorem UsedBefore.concat (h : UsedBefore uses k k') (hx : k ≠ x) :
    UsedBefore (uses ++ [x]) k k' := by
  obtain ⟨a, b, rfl, ha, hne, hb⟩ := h
  refine ⟨a, b ++ [x], by rw [List.append_assoc, List.cons_append], ha, hne, ?_⟩
  rw [List.mem_append, not_or]
  exact ⟨hb, by simpa using hx⟩

theorem byRecency_nil : ByRecency uses [] := List.Pairwise.nil

theorem ByRecency.sublist {l' : List K} (h : ByRecency uses l) (hl : l'.Sublist l) :
    ByRecency uses l' := List.Pairwise.sublist hl h

/-- **A key is used** and comes to the front. -/
theorem ByRecency.use (h : ByRecency uses l) (hmem : ∀ k ∈ l, k ∈ uses) (hx : x ∉ l) :
    ByRecency (uses ++ [x]) (x :: l) := by
  have hne : ∀ k ∈ l, k ≠ x := fun k hk heq => hx (heq ▸ hk)
  refine List.Pairwise.cons ?_ ?_
  · intro k hk
    exact usedBefore_concat (hmem k hk) (hne k hk)
  · exact List.Pairwise.imp_of_mem (fun hk hk' hbefore => hbefore.concat (hne _ hk')) h

/-- **The last key** was not used for the longest time. -/
theorem ByRecency.getLast (h : ByRecency uses l) (hlast : l.getLast? = some k) :
    ∀ k' ∈ l, k' ≠ k → UsedBefore uses k k' := by
  obtain ⟨l, rfl⟩ := List.getLast?_eq_some_iff.mp hlast
  intro k' hk' hne
  have hmem : k' ∈ l := by simpa [hne] using hk'
  exact (List.pairwise_append.mp h).2.2 k' hmem k List.mem_cons_self

end Lib
