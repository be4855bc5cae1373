import Mathlib.Data.List.Basic

/-!
# Writing to the first match

`modifyFirst p f l` applies `f` to the first element of `l` with `p`, as code does that searches
for an element and writes through the iterator.

* `find?_modifyFirst`: the search finds the changed element again.
* `mem_modifyFirst`: what is in the changed list.
* `foldl_last`: a loop that remembers each match ends with the last one.
-/

namespace Lib

variable {α : Type*} {p : α → Bool} {f : α → α}

/-- The list with `f` applied to its first element with `p`. -/
def modifyFirst (p : α → Bool) (f : α → α) : List α → List α
  | [] => []
  | a :: l => if p a then f a :: l else a :: modifyFirst p f l

theorem find?_modifyFirst (hf : ∀ a, p a → p (f a)) (l : List α) :
    (modifyFirst p f l).find? p = (l.find? p).map f := by
  induction l with
  | nil => rfl
  | cons a l ih =>
    rw [modifyFirst]
    split
    · rw [List.find?_cons_of_pos (hf a ‹_›), List.find?_cons_of_pos ‹_›, Option.map_some]
    · rw [List.find?_cons_of_neg ‹_›, List.find?_cons_of_neg ‹_›, ih]

theorem mem_modifyFirst {l : List α} {b : α} (h : b ∈ modifyFirst p f l) :
    b ∈ l ∨ ∃ a, l.find? p = some a ∧ b = f a := by
  induction l with
  | nil => cases h
  | cons a l ih =>
    rw [modifyFirst] at h
    split at h
    · rcases List.mem_cons.mp h with rfl | h
      · exact Or.inr ⟨a, List.find?_cons_of_pos ‹_›, rfl⟩
      · exact Or.inl (List.mem_cons_of_mem _ h)
    · rcases List.mem_cons.mp h with rfl | h
      · exact Or.inl List.mem_cons_self
      · rcases ih h with h | ⟨a', ha', rfl⟩
        · exact Or.inl (List.mem_cons_of_mem _ h)
        · exact Or.inr ⟨a', by rw [List.find?_cons_of_neg ‹_›, ha'], rfl⟩

theorem modifyFirst_eq_self {l : List α} (h : ∀ a, l.find? p = some a → f a = a) :
    modifyFirst p f l = l := by
  induction l with
  | nil => rfl
  | cons a l ih =>
    rw [modifyFirst]
    split
    · rw [h a (List.find?_cons_of_pos ‹_›)]
    · rw [ih fun a' ha' => h a' (by rw [List.find?_cons_of_neg ‹_›, ha'])]

theorem modifyFirst_congr {g : α → α} {l : List α}
    (h : ∀ a, l.find? p = some a → f a = g a) : modifyFirst p f l = modifyFirst p g l := by
  induction l with
  | nil => rfl
  | cons a l ih =>
    rw [modifyFirst, modifyFirst]
    split
    · rw [h a (List.find?_cons_of_pos ‹_›)]
    · rw [ih fun a' ha' => h a' (by rw [List.find?_cons_of_neg ‹_›, ha'])]

/-- **The last match wins.** -/
theorem foldl_last {β : Type*} {g : α → β} (init : β) (l : List α) :
    l.foldl (fun b a => if p a then g a else b) init =
      ((l.reverse.find? p).map g).getD init := by
  induction l generalizing init with
  | nil => rfl
  | cons a l ih =>
    rw [List.foldl_cons, ih, List.reverse_cons, List.find?_append]
    cases l.reverse.find? p with
    | some b => rfl
    | none =>
      rw [Option.none_or]
      split
      · rw [List.find?_cons_of_pos ‹_›]
        rfl
      · rw [List.find?_cons_of_neg ‹_›]
        rfl

end Lib
