import Mathlib.Data.List.Infix

/-!
# Copies of one growing list

Copies of a list that grows, each as far as its holder got, are comparable: of any two one
is a prefix of the other.  Then `longest` extends all of them, and it grows when they do.
-/

namespace Lib

variable {E : Type*} {ls ms : List (List E)} {l : List E}

/-- The longest of some lists, of equally long ones the first. -/
def longest (ls : List (List E)) : List E :=
  ls.foldr (fun l m => if m.length ≤ l.length then l else m) []

theorem longest_cons (l : List E) (ls : List (List E)) :
    longest (l :: ls) = if (longest ls).length ≤ l.length then l else longest ls := rfl

theorem length_le_longest (h : l ∈ ls) : l.length ≤ (longest ls).length := by
  induction ls with
  | nil => cases h
  | cons m ls ih =>
    rw [longest_cons]
    rcases List.mem_cons.mp h with rfl | h
    · split
      · exact le_refl _
      · rename_i hlt
        exact (Nat.lt_of_not_le hlt).le
    · split
      · rename_i hle
        exact (ih h).trans hle
      · exact ih h

theorem longest_mem (ls : List (List E)) : longest ls = [] ∨ longest ls ∈ ls := by
  induction ls with
  | nil => exact Or.inl rfl
  | cons l ls ih =>
    rw [longest_cons]
    split
    · exact Or.inr List.mem_cons_self
    · exact ih.imp_right (List.mem_cons_of_mem l)

/-- Of any two one is a prefix of the other. -/
def Comparable (ls : List (List E)) : Prop := ∀ l ∈ ls, ∀ m ∈ ls, l <+: m ∨ m <+: l

theorem Comparable.isPrefix_longest (h : Comparable ls) (hl : l ∈ ls) : l <+: longest ls := by
  have hlen := length_le_longest hl
  rcases longest_mem ls with hnil | hmem
  · rw [hnil] at hlen ⊢
    rw [List.eq_nil_of_length_eq_zero (Nat.le_zero.mp hlen)]
  · rcases h l hl _ hmem with hp | hp
    · exact hp
    · rw [hp.eq_of_length_le hlen]

/-- When each list is extended, so is the longest. -/
theorem Comparable.longest_isPrefix (h : Comparable ms) (hext : ∀ l ∈ ls, ∃ m ∈ ms, l <+: m) :
    longest ls <+: longest ms := by
  rcases longest_mem ls with hnil | hmem
  · rw [hnil]
    exact List.nil_prefix
  · obtain ⟨m, hm, hp⟩ := hext _ hmem
    exact hp.trans (h.isPrefix_longest hm)

end Lib
