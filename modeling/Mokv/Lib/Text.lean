import Mathlib.Data.List.DropRight
import Mathlib.Data.List.TakeWhile

/-!
# Blanks and lines

Text as bytes in the C locale: `trim` takes the blanks off both ends, `getlinesAt d` cuts a text
at a delimiter as `std::getline` does, which makes no line of what is behind the last delimiter
when that is nothing, and `word?` takes the next word off a text.

* `Trimmed.trim_eq`, `trimmed_trim`: trimming leaves the texts without blanks at the ends.
* `getlinesAt_append`, `getlinesAt_flatMap`: lines with a delimiter behind each are read back.
-/

namespace Lib

/-- `std::isspace`. -/
def isSpace (ch : UInt8) : Bool := ch = 32 || (9 ≤ ch && ch ≤ 13)

/-- The text without the blanks at its ends. -/
def trim (s : List UInt8) : List UInt8 := (s.dropWhile isSpace).rdropWhile isSpace

/-- The lines that repeated `std::getline` reads. -/
def getlinesAt (d : UInt8) : List UInt8 → List (List UInt8)
  | [] => []
  | ch :: s =>
    if ch = d then [] :: getlinesAt d s
    else
      match getlinesAt d s with
      | [] => [[ch]]
      | line :: lines => (ch :: line) :: lines

/-- The next word and the text behind it. -/
def word? (s : List UInt8) : Option (List UInt8 × List UInt8) :=
  let s := s.dropWhile isSpace
  let w := s.takeWhile fun ch => !isSpace ch
  if w = [] then none else some (w, s.dropWhile fun ch => !isSpace ch)

/-! ### Trimming -/

/-- There is no blank at either end. -/
structure Trimmed (s : List UInt8) : Prop where
  head : ∀ ch, s.head? = some ch → isSpace ch = false
  last : ∀ ch, s.getLast? = some ch → isSpace ch = false

theorem mem_of_mem_trim {s : List UInt8} {ch : UInt8} (h : ch ∈ trim s) : ch ∈ s :=
  (List.dropWhile_sublist _).subset ((List.rdropWhile_prefix _ _).subset h)

theorem dropWhile_isSpace {s : List UInt8} (h : ∀ ch, s.head? = some ch → isSpace ch = false) :
    s.dropWhile isSpace = s := by
  cases s with
  | nil => rfl
  | cons ch s => rw [List.dropWhile_cons_of_neg (by rw [h ch rfl]; exact Bool.false_ne_true)]

theorem Trimmed.trim_eq {s : List UInt8} (h : Trimmed s) : trim s = s := by
  rw [trim, dropWhile_isSpace h.head, List.rdropWhile_eq_self_iff]
  intro hne
  rw [h.last _ (List.getLast?_eq_some_getLast hne)]
  exact Bool.false_ne_true

/-- **What is trimmed has no blank at its ends.** -/
theorem trimmed_trim (s : List UInt8) : Trimmed (trim s) := by
  constructor
  · intro ch hch
    obtain ⟨rest, hrest⟩ : trim s <+: s.dropWhile isSpace := List.rdropWhile_prefix _ _
    have hnot := List.head?_dropWhile_not isSpace s
    rw [← hrest, List.head?_append, hch] at hnot
    simpa using hnot
  · intro ch hch
    have hne : trim s ≠ [] := by
      rintro hnil
      rw [hnil] at hch
      cases hch
    have hnot : ¬ isSpace ((trim s).getLast hne) := List.rdropWhile_last_not isSpace _ hne
    rw [List.getLast?_eq_some_getLast hne] at hch
    obtain rfl := Option.some.inj hch
    exact Bool.eq_false_iff.mpr hnot

theorem trimmed_of_forall {s : List UInt8} (h : ∀ ch ∈ s, isSpace ch = false) : Trimmed s :=
  ⟨fun ch hch => h ch (List.mem_of_mem_head? hch), fun ch hch => h ch (List.mem_of_getLast? hch)⟩

theorem Trimmed.append {s u : List UInt8} (hs : Trimmed s) (hu : Trimmed u) :
    Trimmed (s ++ u) := by
  constructor
  · intro ch hch
    cases s with
    | nil => exact hu.head ch hch
    | cons a s => exact hs.head ch hch
  · intro ch hch
    rw [List.getLast?_append] at hch
    cases hlast : u.getLast? with
    | none =>
      rw [hlast, Option.none_or] at hch
      exact hs.last ch hch
    | some a =>
      rw [hlast, Option.some_or] at hch
      exact hu.last ch (hlast.trans hch)

/-! ### Lines -/

section Lines

variable {d : UInt8} {s u line : List UInt8}

theorem getlinesAt_append (hs : d ∉ s) : getlinesAt d (s ++ d :: u) = s :: getlinesAt d u := by
  induction s with
  | nil => rw [List.nil_append, getlinesAt, if_pos rfl]
  | cons ch s ih =>
    rw [List.mem_cons, not_or] at hs
    rw [List.cons_append, getlinesAt, if_neg (Ne.symm hs.1), ih hs.2]

theorem getlinesAt_of_not_mem (hs : d ∉ s) (hne : s ≠ []) : getlinesAt d s = [s] := by
  induction s with
  | nil => exact absurd rfl hne
  | cons ch s ih =>
    rw [List.mem_cons, not_or] at hs
    rw [getlinesAt, if_neg (Ne.symm hs.1)]
    cases s with
    | nil => rfl
    | cons ch' s => rw [ih hs.2 (List.cons_ne_nil _ _)]

theorem getlinesAt_ne_nil (hne : s ≠ []) : getlinesAt d s ≠ [] := by
  cases s with
  | nil => exact absurd rfl hne
  | cons ch s =>
    rw [getlinesAt]
    split
    · exact List.cons_ne_nil _ _
    · split <;> exact List.cons_ne_nil _ _

theorem getlinesAt_append_cons (s u : List UInt8) :
    getlinesAt d (s ++ d :: u) = getlinesAt d (s ++ [d]) ++ getlinesAt d u := by
  induction s with
  | nil =>
    rw [List.nil_append, List.nil_append, getlinesAt, getlinesAt, if_pos rfl, if_pos rfl]
    rfl
  | cons ch s ih =>
    rw [List.cons_append, List.cons_append, getlinesAt, getlinesAt]
    split
    · rw [ih, List.cons_append]
    · rw [ih]
      cases hl : getlinesAt d (s ++ [d]) with
      | nil => exact absurd hl (getlinesAt_ne_nil (by simp))
      | cons line lines => rfl

theorem getlinesAt_flatMap {α : Type*} {f : α → List UInt8} {l : List α}
    (h : ∀ a ∈ l, d ∉ f a) : getlinesAt d (l.flatMap fun a => f a ++ [d]) = l.map f := by
  induction l with
  | nil => rfl
  | cons a l ih =>
    rw [List.flatMap_cons, List.append_assoc, List.singleton_append,
      getlinesAt_append (h a List.mem_cons_self),
      ih fun b hb => h b (List.mem_cons_of_mem _ hb), List.map_cons]

theorem two_le_length_getlinesAt (h : d ∈ s) : 2 ≤ (getlinesAt d (s ++ [d])).length := by
  obtain ⟨u, v, rfl⟩ := List.append_of_mem h
  have hu : getlinesAt d (u ++ [d]) ≠ [] := getlinesAt_ne_nil (by simp)
  have hv : getlinesAt d (v ++ [d]) ≠ [] := getlinesAt_ne_nil (by simp)
  rw [List.append_assoc, List.cons_append, getlinesAt_append_cons, List.length_append]
  have hu' := List.length_pos_iff.mpr hu
  have hv' := List.length_pos_iff.mpr hv
  omega

theorem decide_ne_of_not_mem (hs : d ∉ s) : ∀ ch ∈ s, decide (ch ≠ d) = true := by
  intro ch hch
  rw [decide_eq_true_eq]
  rintro rfl
  exact hs hch

theorem takeWhile_ne_append (hs : d ∉ s) : (s ++ d :: u).takeWhile (· ≠ d) = s := by
  rw [List.takeWhile_append_of_pos (decide_ne_of_not_mem hs), List.takeWhile_cons_of_neg (by simp),
    List.append_nil]

theorem dropWhile_ne_append (hs : d ∉ s) : (s ++ d :: u).dropWhile (· ≠ d) = d :: u := by
  rw [List.dropWhile_append_of_pos (decide_ne_of_not_mem hs), List.dropWhile_cons_of_neg (by simp)]

theorem not_mem_of_mem_getlinesAt (h : line ∈ getlinesAt d s) : d ∉ line := by
  induction s generalizing line with
  | nil => cases h
  | cons ch s ih =>
    rw [getlinesAt] at h
    split at h
    · rcases List.mem_cons.mp h with rfl | h
      · exact List.not_mem_nil
      · exact ih h
    · rename_i hne
      split at h
      · obtain rfl := List.mem_singleton.mp h
        simpa using Ne.symm hne
      · rename_i line' lines hlines
        rcases List.mem_cons.mp h with rfl | h
        · rw [List.mem_cons, not_or]
          exact ⟨Ne.symm hne, ih (by rw [hlines]; exact List.mem_cons_self)⟩
        · exact ih (by rw [hlines]; exact List.mem_cons_of_mem _ h)

theorem mem_of_mem_getlinesAt (h : line ∈ getlinesAt d s) {ch : UInt8} (hch : ch ∈ line) :
    ch ∈ s := by
  induction s generalizing line with
  | nil => cases h
  | cons a s ih =>
    rw [getlinesAt] at h
    split at h
    · rcases List.mem_cons.mp h with rfl | h
      · cases hch
      · exact List.mem_cons_of_mem _ (ih h hch)
    · split at h
      · obtain rfl := List.mem_singleton.mp h
        exact List.mem_singleton.mp hch ▸ List.mem_cons_self
      · rename_i line' lines hlines
        rcases List.mem_cons.mp h with rfl | h
        · rcases List.mem_cons.mp hch with rfl | hch
          · exact List.mem_cons_self
          · exact List.mem_cons_of_mem _ (ih (by rw [hlines]; exact List.mem_cons_self) hch)
        · exact List.mem_cons_of_mem _ (ih (by rw [hlines]; exact List.mem_cons_of_mem _ h) hch)

end Lines

/-! ### Words -/

theorem not_isSpace_of_word {s w rest : List UInt8} (h : word? s = some (w, rest)) :
    w ≠ [] ∧ ∀ ch ∈ w, isSpace ch = false := by
  rw [word?] at h
  split at h
  · cases h
  · rename_i hne
    obtain ⟨rfl, rfl⟩ := Prod.mk.inj (Option.some.inj h)
    refine ⟨hne, ?_⟩
    intro ch hch
    simpa using List.mem_takeWhile_imp hch

end Lib
