import Mathlib.Data.List.Basic

/-!
# Escape codes

Some symbols of an alphabet may not stand in a text as they are.  An `EscapeCode`
writes each of them as two symbols, the escape symbol and a letter, and every other
symbol as itself; the escape symbol is one of those that are escaped.

* `decode_encode`: decoding inverts encoding.
* `not_mem_encode`: an escaped symbol that is no letter does not occur in an encoding.
* `encode_append_inj`: an encoding ends at the first unescaped delimiter, so encoded
  parts with delimiters between them can be told apart again.
* `isPrefix_of_encode`: an encoding starts with another one when the text does.
* `suffix_encode_iff`: an encoding ends with a delimiter and plain symbols when the text
  does.
-/

namespace Lib

variable {α : Type*}

/-- The escape symbol, the letters of the escaped symbols, and what a letter stands for. -/
structure EscapeCode (α : Type*) where
  esc : α
  letter : α → Option α
  symbol : α → α
  letter_esc : letter esc ≠ none
  symbol_letter : ∀ {a b}, letter a = some b → symbol b = a

namespace EscapeCode

variable (c : EscapeCode α)

/-- One symbol of the text. -/
def encodeChar (a : α) : List α :=
  match c.letter a with
  | some b => [c.esc, b]
  | none => [a]

/-- The encoded text. -/
def encode (l : List α) : List α := l.flatMap c.encodeChar

/-- The decoder, in the state "the last symbol was the escape symbol" or not.  A text
that ends in that state keeps its last symbol. -/
def decodeFrom [DecidableEq α] : Bool → List α → List α
  | false, [] => []
  | true, [] => [c.esc]
  | false, a :: l => if a = c.esc then decodeFrom true l else a :: decodeFrom false l
  | true, a :: l => c.symbol a :: decodeFrom false l

/-- The decoded text. -/
def decode [DecidableEq α] (l : List α) : List α := c.decodeFrom false l

@[simp] theorem encode_nil : c.encode [] = [] := rfl

theorem encode_cons (a : α) (l : List α) : c.encode (a :: l) = c.encodeChar a ++ c.encode l :=
  List.flatMap_cons

theorem encodeChar_ne_nil (a : α) : c.encodeChar a ≠ [] := by
  unfold encodeChar
  split <;> simp

theorem encode_eq_nil {l : List α} : c.encode l = [] ↔ l = [] := by
  cases l with
  | nil => simp
  | cons a l => simp [encode_cons, encodeChar_ne_nil]

theorem encode_eq_self {l : List α} (h : ∀ a ∈ l, c.letter a = none) : c.encode l = l := by
  induction l with
  | nil => rfl
  | cons a l ih =>
    rw [encode_cons, encodeChar, h a List.mem_cons_self,
      ih fun b hb => h b (List.mem_cons_of_mem _ hb)]
    rfl

/-- **Decoding inverts encoding.** -/
theorem decode_encode [DecidableEq α] (l : List α) : c.decode (c.encode l) = l := by
  unfold decode
  induction l with
  | nil => rfl
  | cons a l ih =>
    rw [encode_cons, encodeChar]
    cases h : c.letter a with
    | some b =>
      show c.decodeFrom false (c.esc :: b :: c.encode l) = a :: l
      rw [decodeFrom, if_pos rfl, decodeFrom, ih, c.symbol_letter h]
    | none =>
      have ha : a ≠ c.esc := by
        intro he
        exact c.letter_esc (he ▸ h)
      show c.decodeFrom false (a :: c.encode l) = a :: l
      rw [decodeFrom, if_neg ha, ih]

theorem not_mem_encode {d : α} (hd : c.letter d ≠ none) (hesc : d ≠ c.esc)
    (hletter : ∀ a, c.letter a ≠ some d) (l : List α) : d ∉ c.encode l := by
  intro hmem
  obtain ⟨a, -, ha⟩ := List.mem_flatMap.mp hmem
  rw [encodeChar] at ha
  cases h : c.letter a with
  | some b =>
    rw [h] at ha
    rcases List.mem_cons.mp ha with rfl | ha
    · exact hesc rfl
    · exact hletter a (by rw [h, List.mem_singleton.mp ha])
  | none =>
    rw [h] at ha
    exact hd (by rw [List.mem_singleton.mp ha, h])

/-- Nothing, or something that starts with the delimiter. -/
def EndsPart (d : α) (x : List α) : Prop := x = [] ∨ ∃ y, x = d :: y

theorem not_endsPart_encode {d : α} (hd : c.letter d ≠ none) (hesc : d ≠ c.esc) (a : α)
    (l y : List α) : ¬ EndsPart d (c.encodeChar a ++ l ++ y) := by
  unfold encodeChar
  cases h : c.letter a with
  | some b =>
    rintro (he | ⟨z, he⟩)
    · simp at he
    · exact hesc (List.cons.inj he).1.symm
  | none =>
    rintro (he | ⟨z, he⟩)
    · simp at he
    · exact hd ((List.cons.inj he).1 ▸ h)

theorem encodeChar_append_inj {a b : α} {x y : List α}
    (h : c.encodeChar a ++ x = c.encodeChar b ++ y) : a = b ∧ x = y := by
  unfold encodeChar at h
  cases ha : c.letter a with
  | some a' =>
    cases hb : c.letter b with
    | some b' =>
      rw [ha, hb] at h
      simp only [List.cons_append, List.nil_append, List.cons.injEq, true_and] at h
      obtain ⟨rfl, rfl⟩ := h
      exact ⟨(c.symbol_letter ha).symm.trans (c.symbol_letter hb), rfl⟩
    | none =>
      rw [ha, hb] at h
      have he : c.esc = b := (List.cons.inj h).1
      exact absurd (he ▸ hb) c.letter_esc
  | none =>
    cases hb : c.letter b with
    | some b' =>
      rw [ha, hb] at h
      have he : a = c.esc := (List.cons.inj h).1
      exact absurd (he ▸ ha) c.letter_esc
    | none =>
      rw [ha, hb] at h
      exact List.cons.inj h

/-- **An encoded part ends at the first unescaped delimiter.** -/
theorem encode_append_inj {d : α} (hd : c.letter d ≠ none) (hesc : d ≠ c.esc) {l m x y : List α}
    (hx : EndsPart d x) (hy : EndsPart d y) (h : c.encode l ++ x = c.encode m ++ y) :
    l = m ∧ x = y := by
  induction l generalizing m with
  | nil =>
    cases m with
    | nil => exact ⟨rfl, h⟩
    | cons b m =>
      rw [encode_nil, List.nil_append, encode_cons] at h
      exact absurd (h ▸ hx) (c.not_endsPart_encode hd hesc b _ _)
  | cons a l ih =>
    cases m with
    | nil =>
      rw [encode_nil, List.nil_append, encode_cons] at h
      exact absurd (h ▸ hy) (c.not_endsPart_encode hd hesc a _ _)
    | cons b m =>
      rw [encode_cons, encode_cons, List.append_assoc, List.append_assoc] at h
      obtain ⟨rfl, htail⟩ := c.encodeChar_append_inj h
      obtain ⟨rfl, hxy⟩ := ih htail
      exact ⟨rfl, hxy⟩

/-- **What an encoded part starts with** is an encoding of what the part starts with. -/
theorem isPrefix_of_encode {d : α} (hd : c.letter d ≠ none) (hesc : d ≠ c.esc) {l m x y : List α}
    (hy : EndsPart d y) (h : c.encode l ++ x = c.encode m ++ y) : l <+: m := by
  induction l generalizing m with
  | nil => exact List.nil_prefix
  | cons a l ih =>
    cases m with
    | nil =>
      rw [encode_nil, List.nil_append, encode_cons] at h
      exact absurd (h ▸ hy) (c.not_endsPart_encode hd hesc a _ _)
    | cons b m =>
      rw [encode_cons, encode_cons, List.append_assoc, List.append_assoc] at h
      obtain ⟨rfl, htail⟩ := c.encodeChar_append_inj h
      exact List.cons_prefix_cons.mpr ⟨rfl, ih htail⟩

theorem encode_injective [DecidableEq α] {l m : List α} (h : c.encode l = c.encode m) : l = m := by
  rw [← c.decode_encode l, h, c.decode_encode]

/-- **What an encoding ends with.**  The delimiter is its own letter, so in the encoding it
stands behind an escape symbol, and the plain symbols after it cannot be letters. -/
theorem suffix_encode_iff [DecidableEq α] {d : α} (hd : c.letter d = some d) (hesc : d ≠ c.esc)
    {w : List α} (hw : ∀ a ∈ w, c.letter a = none) (l : List α) :
    d :: w <:+ c.encode l ↔ d :: w <:+ l := by
  constructor
  · rintro ⟨y, hy⟩
    induction l generalizing y with
    | nil => simp at hy
    | cons a l ih =>
      rw [encode_cons, encodeChar] at hy
      cases ha : c.letter a with
      | none =>
        rw [ha] at hy
        cases y with
        | nil =>
          have had : d = a := (List.cons.inj hy).1
          rw [← had, hd] at ha
          cases ha
        | cons b y => exact (ih y (List.cons.inj hy).2).trans (List.suffix_cons a l)
      | some b =>
        rw [ha] at hy
        match y, hy with
        | [], hy => exact absurd (List.cons.inj hy).1 hesc
        | [e], hy =>
          have htail := List.cons.inj (List.cons.inj hy).2
          rw [← htail.1] at ha
          have had : a = d := (c.symbol_letter ha).symm.trans (c.symbol_letter hd)
          have hl : w = l := c.encode_injective (by rw [c.encode_eq_self hw]; exact htail.2)
          exact ⟨[], congrArg₂ List.cons had.symm hl⟩
        | e :: e' :: y, hy =>
          exact (ih y (List.cons.inj (List.cons.inj hy).2).2).trans (List.suffix_cons a l)
  · rintro ⟨x, rfl⟩
    refine ⟨c.encode x ++ [c.esc], ?_⟩
    have hsplit : c.encode (x ++ d :: w) = c.encode x ++ c.encode (d :: w) := List.flatMap_append
    rw [hsplit, encode_cons, encodeChar, hd, c.encode_eq_self hw]
    simp

end EscapeCode

end Lib
