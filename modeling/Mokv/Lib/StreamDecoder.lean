import Mathlib.Data.List.Infix

/-!
# Streaming decoders

A streaming decoder is called with input and with room for output.  It takes some of the
input, gives some output, and says whether the end of the coded text is reached; what it has
not taken is presented again (`StreamDecoder`).

`drain` is the loop that calls a decoder until it is done, fails, or does nothing any more.
It ends after at most as many turns as there are places in both buffers (`drain_of_le`).
`Follows` is what a decoder promises about a coded text; then `drain` gives back the text
from the whole code, and nothing from a part of it (`drain_whole`, `drain_part`).
-/

namespace Lib

/-- What a call says. -/
inductive DecoderStatus where
  | error
  | more
  | done
deriving DecidableEq

/-- What a call does. -/
structure DecoderAnswer (σ β : Type) where
  next : σ
  status : DecoderStatus
  consumed : Nat
  produced : List β

/-- A decoder with states `σ`, which stays inside its buffers. -/
structure StreamDecoder (σ α β : Type) where
  call : σ → Nat → List α → DecoderAnswer σ β
  consumed_le : ∀ s room src, (call s room src).consumed ≤ src.length
  produced_le : ∀ s room src, (call s room src).produced.length ≤ room

namespace StreamDecoder

variable {σ α β : Type} (D : StreamDecoder σ α β)

/-- The loop over calls, with what was produced so far.  Nothing, if the decoder is not done at
the end. -/
def drain : Nat → σ → List α → Nat → List β → Option (List β)
  | 0, _, _, _, _ => none
  | turns + 1, s, src, room, out =>
    if src ≠ [] ∧ 0 < room then
      let a := D.call s room src
      if a.status = .error then none
      else if a.consumed = 0 ∧ a.produced = [] then none
      else if a.status = .done then some (out ++ a.produced)
      else drain turns a.next (src.drop a.consumed) (room - a.produced.length) (out ++ a.produced)
    else none

theorem length_turn_lt {s : σ} {src : List α} {room : Nat}
    (h : ¬ ((D.call s room src).consumed = 0 ∧ (D.call s room src).produced = [])) :
    (src.drop (D.call s room src).consumed).length +
      (room - (D.call s room src).produced.length) < src.length + room := by
  have h1 := D.consumed_le s room src
  have h2 := D.produced_le s room src
  have hpos : 0 < (D.call s room src).consumed ∨ 0 < (D.call s room src).produced.length := by
    rcases Nat.eq_zero_or_pos (D.call s room src).consumed with h0 | h0
    · exact Or.inr (List.length_pos_iff.mpr fun he => h ⟨h0, he⟩)
    · exact Or.inl h0
  rw [List.length_drop]
  omega

/-- **The loop ends**: more turns than places in the buffers change nothing. -/
theorem drain_of_le {n m : Nat} {s : σ} {src : List α} {room : Nat} {out : List β}
    (hn : src.length + room ≤ n) (hm : src.length + room ≤ m) :
    D.drain n s src room out = D.drain m s src room out := by
  have hstop : ∀ k {s src room out}, src.length + room = 0 → D.drain k s src room out = none := by
    intro k s src room out h0
    cases k with
    | zero => rfl
    | succ k => exact if_neg fun h => absurd h.2 (by omega)
  induction n generalizing m s src room out with
  | zero => rw [hstop 0 (by omega), hstop m (by omega)]
  | succ n ih =>
    cases m with
    | zero => rw [hstop 0 (by omega), hstop (n + 1) (by omega)]
    | succ m =>
      rw [drain, drain]
      split
      · dsimp only
        split
        · rfl
        · split
          · rfl
          · split
            · rfl
            · have hlt := D.length_turn_lt ‹¬ (_ ∧ _)›
              exact ih (by omega) (by omega)
      · rfl

/-! ### Decoders of a code -/

/-- What a decoder promises: `R s code text` says that in state `s` the rest of the code is
`code` and stands for `text`.  Of a part of it the decoder takes some and gives what that stands
for, and it is done at the end of the code.  Where it has the whole rest and room for the text,
it does not stop with one of them used up and the other not. -/
structure Follows (R : σ → List α → List β → Prop) : Prop where
  call : ∀ {s code text room src}, R s code text → src <+: code → src ≠ [] → 0 < room →
    let a := D.call s room src
    (a.status = .done ∧ a.consumed = code.length ∧ a.produced = text) ∨
      (a.status = .more ∧ ¬ (a.consumed = 0 ∧ a.produced = []) ∧ a.produced <+: text ∧
        R a.next (code.drop a.consumed) (text.drop a.produced.length))
  prompt : ∀ {s code text room}, R s code text → code ≠ [] → 0 < room → text.length ≤ room →
    let a := D.call s room code
    a.status = .more → a.consumed < code.length ∧ a.produced.length < room

variable {D} {R : σ → List α → List β → Prop} {s : σ} {code src : List α} {text out : List β}
  {room : Nat}

/-- **The whole code gives the text.** -/
theorem Follows.drain_whole (h : D.Follows R) (hr : R s code text) (hcode : code ≠ [])
    (hroom : 0 < room) (htext : text.length ≤ room) {n : Nat} (hn : code.length + room ≤ n) :
    D.drain n s code room out = some (out ++ text) := by
  induction n generalizing s code text room out with
  | zero => omega
  | succ n ih =>
    rw [drain, if_pos ⟨hcode, hroom⟩]
    dsimp only
    rcases h.call hr List.prefix_rfl hcode hroom with
      ⟨hdone, hall, htext'⟩ | ⟨hmore, hgo, hpre, hr'⟩
    · have hpos := List.length_pos_iff.mpr hcode
      rw [if_neg (by rw [hdone]; decide), if_neg (by rintro ⟨h0, -⟩; omega), if_pos hdone, htext']
    · obtain ⟨hc, hp⟩ := h.prompt hr hcode hroom htext hmore
      have hlt := D.length_turn_lt hgo
      rw [if_neg (by rw [hmore]; decide), if_neg hgo, if_neg (by rw [hmore]; decide)]
      have hnext : code.drop (D.call s room code).consumed ≠ [] := by
        rw [Ne, List.drop_eq_nil_iff]
        omega
      rw [ih hr' hnext (by omega) (by rw [List.length_drop]; omega) (by omega), List.append_assoc]
      obtain ⟨rest, hrest⟩ := hpre
      rw [← hrest, List.drop_left]

/-- **A part of the code gives nothing.** -/
theorem Follows.drain_part (h : D.Follows R) (hr : R s code text) (hsrc : src <+: code)
    (hne : src ≠ code) (n : Nat) : D.drain n s src room out = none := by
  induction n generalizing s code src text room out with
  | zero => rfl
  | succ n ih =>
    rw [drain]
    split
    · rename_i hgo
      dsimp only
      have hlen : src.length < code.length := by
        refine lt_of_le_of_ne hsrc.length_le fun he => hne ?_
        exact hsrc.eq_of_length he
      have hle := D.consumed_le s room src
      rcases h.call hr hsrc hgo.1 hgo.2 with ⟨-, hall, -⟩ | ⟨hmore, hprogress, -, hr'⟩
      · omega
      · rw [if_neg (by rw [hmore]; decide), if_neg hprogress, if_neg (by rw [hmore]; decide)]
        refine ih hr' (hsrc.drop _) fun he => ?_
        have heq := congrArg List.length he
        rw [List.length_drop, List.length_drop] at heq
        omega
    · rfl

end StreamDecoder

end Lib
