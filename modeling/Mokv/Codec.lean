import Mokv.Bytes
import Mokv.Lib.Decimal
import Mokv.Lib.Escape
import Mokv.Lib.Text

/-!
# The text codec

`mokv/utils/codec.hpp`: backslash escapes for the texts that are stored as lines
(`escape`) and for the parts of keys (`escapeKeyPart`), the `std::getline` loop by which
such texts are read, numbers as texts, and keys joined of parts.  Bytes are written as
numbers: `10` is the newline, `9` the tab, `45` the minus sign, `58` the colon, `92` the
backslash, `110` and `116` the letters `n` and `t`.

The two results that the stores rest on are `readLines_writeLines`, by which a parser of
lines sees exactly the fields that were written, and `joinKeyParts_inj`, by which a key
has one list of parts.
-/

namespace Mokv.Codec

open Lib

/-! ### Escapes -/

/-- The `switch` of `codec::Unescape`: the byte a letter stands for. -/
def unescapeLetter (ch : UInt8) : UInt8 := if ch = 110 then 10 else if ch = 116 then 9 else ch

/-- The escaped bytes of `codec::Escape`. -/
def lineLetter (ch : UInt8) : Option UInt8 :=
  if ch = 92 then some 92 else if ch = 10 then some 110 else if ch = 9 then some 116 else none

/-- The escaped bytes of `codec::EscapeKeyPart`. -/
def keyPartLetter (ch : UInt8) : Option UInt8 :=
  if ch = 92 then some 92
  else if ch = 10 then some 110
  else if ch = 9 then some 116
  else if ch = 58 then some 58
  else none

/-- The code of `codec::Escape` and `codec::Unescape`. -/
def lineCode : EscapeCode UInt8 where
  esc := 92
  letter := lineLetter
  symbol := unescapeLetter
  letter_esc := by decide
  symbol_letter := by
    intro a b h
    unfold lineLetter at h
    split_ifs at h <;> cases h <;> subst a <;> rfl

/-- The code of `codec::EscapeKeyPart`. -/
def keyPartCode : EscapeCode UInt8 where
  esc := 92
  letter := keyPartLetter
  symbol := unescapeLetter
  letter_esc := by decide
  symbol_letter := by
    intro a b h
    unfold keyPartLetter at h
    split_ifs at h <;> cases h <;> subst a <;> rfl

/-- `codec::Escape`. -/
def escape (raw : Bytes) : Bytes := lineCode.encode raw

/-- `codec::EscapeKeyPart`. -/
def escapeKeyPart (raw : Bytes) : Bytes := keyPartCode.encode raw

/-- `codec::Unescape`. -/
def unescape (raw : Bytes) : Bytes := lineCode.decode raw

theorem unescape_escape (raw : Bytes) : unescape (escape raw) = raw := lineCode.decode_encode raw

theorem escape_eq_nil {raw : Bytes} : escape raw = [] ↔ raw = [] := lineCode.encode_eq_nil

theorem newline_not_mem_escape (raw : Bytes) : 10 ∉ escape raw := by
  refine lineCode.not_mem_encode (by decide) (by decide) ?_ raw
  intro a h
  unfold lineCode lineLetter at h
  simp only at h
  split_ifs at h <;> cases h

theorem tab_not_mem_escape (raw : Bytes) : 9 ∉ escape raw := by
  refine lineCode.not_mem_encode (by decide) (by decide) ?_ raw
  intro a h
  unfold lineCode lineLetter at h
  simp only at h
  split_ifs at h <;> cases h

/-! ### Lines -/

/-- What a `std::getline` loop reads.  A newline ends a line; after the last newline there
is one more line only if something follows. -/
def getlines : Bytes → List Bytes
  | [] => []
  | ch :: raw =>
    if ch = 10 then [] :: getlines raw
    else
      match getlines raw with
      | [] => [[ch]]
      | line :: lines => (ch :: line) :: lines

theorem getlines_eq (raw : Bytes) : getlines raw = getlinesAt 10 raw := by
  induction raw with
  | nil => rfl
  | cons ch raw ih =>
    rw [getlines, getlinesAt, ih]
    rfl

theorem getlines_flatMap {lines : List Bytes} (h : ∀ line ∈ lines, 10 ∉ line) :
    getlines (lines.flatMap fun line => line ++ [10]) = lines := by
  rw [getlines_eq, getlinesAt_flatMap h, List.map_id']

/-- `codec::Split` at a tab. -/
def splitTabs (raw : Bytes) : List Bytes := raw.splitOn 9

/-- Lines of fields: a tab between two fields, a newline after the last one. -/
def writeLines (lines : List (List Bytes)) : Bytes :=
  lines.flatMap fun fields => [9].intercalate fields ++ [10]

/-- A parser of lines: each line is split into its fields and assigned to the record read so
far; an assignment may fail. -/
def readLines {ρ : Type} (assign : ρ → List Bytes → Option ρ) (init : ρ) (payload : Bytes) :
    Option ρ :=
  (getlines payload).foldlM (fun r line => assign r (splitTabs line)) init

/-- The field has no tab and no newline. -/
def IsField (field : Bytes) : Prop := 9 ∉ field ∧ 10 ∉ field

instance (field : Bytes) : Decidable (IsField field) :=
  inferInstanceAs (Decidable (9 ∉ field ∧ 10 ∉ field))

theorem isField_escape (raw : Bytes) : IsField (escape raw) :=
  ⟨tab_not_mem_escape raw, newline_not_mem_escape raw⟩

theorem newline_not_mem_intercalate {fields : List Bytes} (h : ∀ f ∈ fields, IsField f) :
    10 ∉ [9].intercalate fields := by
  induction fields with
  | nil => simp
  | cons f fields ih =>
    have hf := (h f List.mem_cons_self).2
    have hrest := ih fun g hg => h g (List.mem_cons_of_mem _ hg)
    cases fields with
    | nil => simpa using hf
    | cons g fields =>
      rw [List.intercalate_cons_cons]
      simp only [List.mem_append, List.mem_singleton]
      rintro ((hm | hm) | hm)
      · exact hf hm
      · exact absurd hm (by decide)
      · exact hrest hm

/-- **A parser sees the fields that were written.** -/
theorem readLines_writeLines {ρ : Type} (assign : ρ → List Bytes → Option ρ) (init : ρ)
    {lines : List (List Bytes)}
    (h : ∀ fields ∈ lines, fields ≠ [] ∧ ∀ f ∈ fields, IsField f) :
    readLines assign init (writeLines lines) = lines.foldlM assign init := by
  have hlines : getlines (writeLines lines) = lines.map [9].intercalate := by
    have hl := @getlines_flatMap (lines.map [9].intercalate) (by
      intro line hl
      obtain ⟨fields, hf, rfl⟩ := List.mem_map.mp hl
      exact newline_not_mem_intercalate (h fields hf).2)
    rwa [List.flatMap_map] at hl
  rw [readLines, hlines, List.foldlM_map]
  clear hlines
  induction lines generalizing init with
  | nil => rfl
  | cons fields lines ih =>
    obtain ⟨hne, hf⟩ := h fields List.mem_cons_self
    have hsplit : splitTabs ([9].intercalate fields) = fields :=
      List.splitOn_intercalate 9 (fun f hm => (hf f hm).1) hne
    rw [List.foldlM_cons, List.foldlM_cons, hsplit]
    refine bind_congr ?_
    intro r
    exact ih r fun g hg => h g (List.mem_cons_of_mem _ hg)

/-! ### Numbers -/

/-- `std::from_chars` on digits that fill the text. -/
def parseDigits (raw : Bytes) : Option Nat := if raw = [] then none else readDigits 0 raw

/-- `codec::ParseUInt32`. -/
def parseUInt32 (raw : Bytes) : Option UInt32 :=
  (parseDigits raw).bind fun n => if n < 2 ^ 32 then some (UInt32.ofNat n) else none

/-- `codec::ParseInt64`. -/
def parseInt64 (raw : Bytes) : Option Int64 :=
  match raw with
  | 45 :: digits =>
    (parseDigits digits).bind fun n => if n ≤ 2 ^ 63 then some (Int64.ofInt (-n)) else none
  | digits => (parseDigits digits).bind fun n => if n < 2 ^ 63 then some (Int64.ofInt n) else none

/-- A `uint32_t` written to a stream. -/
def uint32Text (n : UInt32) : Bytes := decimal n.toNat

/-- An `int64_t` written to a stream. -/
def int64Text (z : Int64) : Bytes :=
  if z.toInt < 0 then 45 :: decimal z.toInt.natAbs else decimal z.toInt.natAbs

theorem parseDigits_decimal (n : Nat) : parseDigits (decimal n) = some n := by
  rw [parseDigits, if_neg (decimal_ne_nil n), readDigits_decimal]

theorem parseUInt32_uint32Text (n : UInt32) : parseUInt32 (uint32Text n) = some n := by
  rw [parseUInt32, uint32Text, parseDigits_decimal, Option.bind_some, if_pos n.toNat_lt,
    UInt32.ofNat_toNat]

theorem parseInt64_int64Text (z : Int64) : parseInt64 (int64Text z) = some z := by
  have hlo := z.le_toInt
  have hhi := z.toInt_lt
  unfold int64Text
  by_cases hz : z.toInt < 0
  · rw [if_pos hz]
    show (parseDigits (decimal z.toInt.natAbs)).bind _ = some z
    rw [parseDigits_decimal, Option.bind_some, if_pos (by omega)]
    refine congrArg some ?_
    rw [show (-(z.toInt.natAbs : Int)) = z.toInt by omega, Int64.ofInt_toInt]
  · rw [if_neg hz]
    -- a numeral does not start with the minus sign
    have hparse : parseInt64 (decimal z.toInt.natAbs) =
        (parseDigits (decimal z.toInt.natAbs)).bind
          fun n => if n < 2 ^ 63 then some (Int64.ofInt n) else none := by
      unfold parseInt64
      split
      · rename_i digits heq
        have hdigit := digit_of_readDigits (readDigits_decimal z.toInt.natAbs) 45
          (by rw [heq]; exact List.mem_cons_self)
        exact absurd hdigit.1 (by decide)
      · rfl
    rw [hparse, parseDigits_decimal, Option.bind_some, if_pos (by omega)]
    refine congrArg some ?_
    rw [show ((z.toInt.natAbs : Nat) : Int) = z.toInt by omega, Int64.ofInt_toInt]

theorem isField_decimal (n : Nat) : IsField (decimal n) := by
  have h := digit_of_readDigits (readDigits_decimal n)
  exact ⟨fun hm => absurd (h 9 hm).1 (by decide), fun hm => absurd (h 10 hm).1 (by decide)⟩

theorem isField_uint32Text (n : UInt32) : IsField (uint32Text n) := isField_decimal _

theorem isField_int64Text (z : Int64) : IsField (int64Text z) := by
  unfold int64Text
  split
  · have h := isField_decimal z.toInt.natAbs
    exact ⟨by simpa using h.1, by simpa using h.2⟩
  · exact isField_decimal _

/-! ### Keys of parts -/

/-- `codec::JoinKeyParts`. -/
def joinKeyParts (parts : List Bytes) : Bytes := [58].intercalate (parts.map escapeKeyPart)

/-- `Keyspace::AppendKeyPart`. -/
def appendKeyPart (key part : Bytes) : Bytes := key ++ 58 :: escapeKeyPart part

theorem joinKeyParts_cons_cons (p q : Bytes) (parts : List Bytes) :
    joinKeyParts (p :: q :: parts) = escapeKeyPart p ++ 58 :: joinKeyParts (q :: parts) := by
  rw [joinKeyParts, List.map_cons, List.map_cons, List.intercalate_cons_cons]
  simp [joinKeyParts]

theorem appendKeyPart_joinKeyParts {parts : List Bytes} (h : parts ≠ []) (part : Bytes) :
    appendKeyPart (joinKeyParts parts) part = joinKeyParts (parts ++ [part]) := by
  induction parts with
  | nil => exact absurd rfl h
  | cons p parts ih =>
    cases parts with
    | nil =>
      rw [List.singleton_append, joinKeyParts_cons_cons]
      simp [appendKeyPart, joinKeyParts]
    | cons q parts =>
      have ih := ih (by simp)
      rw [List.cons_append, List.cons_append, joinKeyParts_cons_cons, joinKeyParts_cons_cons,
        ← List.cons_append, ← ih, appendKeyPart, appendKeyPart, List.append_assoc, List.cons_append]

theorem escapeKeyPart_append_inj {p q x y : Bytes} (hx : EscapeCode.EndsPart 58 x)
    (hy : EscapeCode.EndsPart 58 y) (h : escapeKeyPart p ++ x = escapeKeyPart q ++ y) :
    p = q ∧ x = y :=
  keyPartCode.encode_append_inj (by decide) (by decide) hx hy h

theorem exists_joinKeyParts_cons (q : Bytes) (parts : List Bytes) :
    ∃ y, EscapeCode.EndsPart 58 y ∧ joinKeyParts (q :: parts) = escapeKeyPart q ++ y ∧
      (y = [] ↔ parts = []) := by
  cases parts with
  | nil => exact ⟨[], Or.inl rfl, by simp [joinKeyParts], by simp⟩
  | cons r parts =>
    exact ⟨58 :: joinKeyParts (r :: parts), Or.inr ⟨_, rfl⟩, joinKeyParts_cons_cons q r parts,
      by simp⟩

/-- **A key that starts with joined parts has these parts**, all but the last of them for
sure: the last one is only the beginning of a part. -/
theorem parts_of_joinKeyParts_append {ps qs : List Bytes} {p x : Bytes} (hq : qs ≠ [])
    (h : joinKeyParts (ps ++ [p]) ++ x = joinKeyParts qs) :
    ∃ rest, rest ≠ [] ∧ qs = ps ++ rest ∧ escapeKeyPart p ++ x = joinKeyParts rest := by
  induction ps generalizing qs with
  | nil => exact ⟨qs, hq, rfl, by simpa [joinKeyParts] using h⟩
  | cons a ps ih =>
    obtain ⟨b, qs, rfl⟩ := List.exists_cons_of_ne_nil hq
    obtain ⟨c, ps', hc⟩ : ∃ c ps', ps ++ [p] = c :: ps' := List.exists_cons_of_ne_nil (by simp)
    obtain ⟨y, hy, hb, hnil⟩ := exists_joinKeyParts_cons b qs
    rw [List.cons_append, hc, joinKeyParts_cons_cons, hb, List.append_assoc] at h
    obtain ⟨rfl, hrest⟩ := escapeKeyPart_append_inj (Or.inr ⟨_, rfl⟩) hy h
    have hqs : qs ≠ [] := by
      intro he
      rw [hnil.mpr he] at hrest
      cases hrest
    obtain ⟨d, qs, rfl⟩ := List.exists_cons_of_ne_nil hqs
    rw [joinKeyParts_cons_cons] at hb
    rw [← List.append_cancel_left hb] at hrest
    have htail : joinKeyParts (c :: ps') ++ x = joinKeyParts (d :: qs) := (List.cons.inj hrest).2
    rw [← hc] at htail
    obtain ⟨rest, hne, heq, hx⟩ := ih (by simp) htail
    exact ⟨rest, hne, by rw [heq]; rfl, hx⟩

/-- **A key has one list of parts.** -/
theorem joinKeyParts_inj {ps qs : List Bytes} (hp : ps ≠ []) (hq : qs ≠ [])
    (h : joinKeyParts ps = joinKeyParts qs) : ps = qs := by
  obtain ⟨ps, p, rfl⟩ := List.eq_nil_or_concat ps |>.resolve_left hp
  rw [List.concat_eq_append] at h ⊢
  obtain ⟨rest, hne, rfl, hx⟩ :=
    parts_of_joinKeyParts_append (x := []) hq (by rw [List.append_nil]; exact h)
  obtain ⟨q, rest, rfl⟩ := List.exists_cons_of_ne_nil hne
  obtain ⟨y, hy, hb, hnil⟩ := exists_joinKeyParts_cons q rest
  rw [hb] at hx
  obtain ⟨rfl, hxy⟩ := escapeKeyPart_append_inj (Or.inl rfl) hy hx
  rw [hnil.mp hxy.symm]

theorem joinKeyParts_isPrefix_append {ps : List Bytes} (hp : ps ≠ []) (rest : List Bytes) :
    joinKeyParts ps <+: joinKeyParts (ps ++ rest) := by
  induction rest generalizing ps with
  | nil => rw [List.append_nil]
  | cons q rest ih =>
    have hstep : joinKeyParts ps <+: joinKeyParts (ps ++ [q]) := by
      rw [← appendKeyPart_joinKeyParts hp]
      exact List.prefix_append _ _
    have htail : joinKeyParts (ps ++ [q]) <+: joinKeyParts (ps ++ [q] ++ rest) := ih (by simp)
    rw [List.append_assoc] at htail
    exact hstep.trans htail

/-- **The keys that start with joined parts**: they have all these parts but the last one, and
then a part that starts with the last one. -/
theorem joinKeyParts_isPrefix_iff {ps qs : List Bytes} {p : Bytes} (hp : ps ≠ []) (hq : qs ≠ []) :
    joinKeyParts (ps ++ [p]) <+: joinKeyParts qs ↔ ∃ q rest, qs = ps ++ q :: rest ∧ p <+: q := by
  constructor
  · rintro ⟨x, hx⟩
    obtain ⟨rest, hne, rfl, hrest⟩ := parts_of_joinKeyParts_append hq hx
    obtain ⟨q, rest, rfl⟩ := List.exists_cons_of_ne_nil hne
    obtain ⟨y, hy, hjoin, -⟩ := exists_joinKeyParts_cons q rest
    rw [hjoin] at hrest
    exact ⟨q, rest, rfl, keyPartCode.isPrefix_of_encode (by decide) (by decide) hy hrest⟩
  · rintro ⟨q, rest, rfl, z, rfl⟩
    have hlast : joinKeyParts (ps ++ [p]) <+: joinKeyParts (ps ++ [p ++ z]) := by
      rw [← appendKeyPart_joinKeyParts hp, ← appendKeyPart_joinKeyParts hp, appendKeyPart,
        appendKeyPart]
      have hz : escapeKeyPart (p ++ z) = escapeKeyPart p ++ escapeKeyPart z := List.flatMap_append
      rw [hz]
      exact ⟨escapeKeyPart z, by simp⟩
    have hne : ps ++ [p ++ z] ≠ [] := by simp
    have hrest := joinKeyParts_isPrefix_append hne rest
    rw [List.append_assoc] at hrest
    exact hlast.trans hrest

end Mokv.Codec
