import Mathlib.Data.List.GetD
import Mokv.LSM.BloomFilter

/-!
# The members of a bloom filter

`Insert` and `CalcHash` (`mokv/utils/bloom_filter.hpp`) come in two overloads, one for a pointer
and one for a view; `Check` has the first only.  They agree (`insertView_eq`), so a filter passes
every key that was inserted through either, and the filter that is read back from its bytes
passes the same keys: `members_pass_and_reload`.
-/

namespace Mokv.LSM.BloomFilter

open Lib

/-- `CalcHash` of a view. -/
def calcHashView (s : Bytes) (len : Nat) (seed : UInt64) : UInt64 :=
  (List.range len).foldl (fun res i => res * seed + charToSizeT (s.getD i 0)) 0

/-- `Insert` of a view. -/
def insertView (b : BloomFilter) (s : Bytes) (len : Nat) : BloomFilter :=
  { b with
    data := b.seed.foldl
      (fun data seed => setBit data ((calcHashView s len seed).toNat % b.length)) b.data }

/-- The overloads of `Insert`. -/
inductive Overload where
  | pointer
  | view
deriving DecidableEq

/-- A key inserted through an overload. -/
def insertBy (b : BloomFilter) : Overload × Bytes → BloomFilter
  | (.pointer, s) => b.insert s
  | (.view, s) => b.insertView s s.length

/-- What `Init` leaves, for any length and any seeds. -/
def initWith (length : Nat) (seed : List UInt64) : BloomFilter where
  length := length
  hashNum := seed.length
  seed := seed
  data := List.replicate (length / 64 + 1) 0

theorem init_eq (rand : Nat → UInt64) (n : Nat) :
    init rand n =
      initWith (calcLength n) ((List.range (calcHashNum (calcLength n) n)).map rand) := by
  simp [init, initWith]

/-! ### The overloads agree -/

theorem calcHashView_eq (s : Bytes) (seed : UInt64) :
    calcHashView s s.length seed = calcHash s seed := by
  induction s using List.reverseRecOn with
  | nil => rfl
  | append_singleton s c ih =>
    have hlast : (s ++ [c]).getD s.length 0 = c := by simp
    have hfront : (List.range s.length).foldl
        (fun res i => res * seed + charToSizeT ((s ++ [c]).getD i 0)) 0 =
        calcHashView s s.length seed := by
      refine List.foldl_ext _ _ _ ?_
      intro res i hi
      rw [List.getD_append _ _ _ _ (List.mem_range.mp hi)]
    rw [calcHashView, List.length_append, List.length_singleton, List.range_succ,
      List.foldl_append, List.foldl_cons, List.foldl_nil, hfront, hlast, ih, calcHash, calcHash,
      List.foldl_append, List.foldl_cons, List.foldl_nil]

theorem insertView_eq (b : BloomFilter) (s : Bytes) : b.insertView s s.length = b.insert s := by
  rw [insertView, insert]
  simp only [calcHashView_eq, bitOf]

theorem insertBy_eq (b : BloomFilter) (key : Overload × Bytes) :
    b.insertBy key = b.insert key.2 := by
  obtain ⟨overload, s⟩ := key
  cases overload with
  | pointer => rfl
  | view => exact insertView_eq b s

theorem foldl_insertBy_eq (b : BloomFilter) (keys : List (Overload × Bytes)) :
    keys.foldl insertBy b = (keys.map Prod.snd).foldl insert b := by
  rw [List.foldl_map]
  exact List.foldl_ext _ _ _ fun b key _ => insertBy_eq b key

/-! ### Members -/

theorem shape_initWith {length : Nat} (h : 1 ≤ length) (seed : List UInt64) :
    (initWith length seed).Shape := ⟨h, rfl, by simp [initWith]⟩

theorem foldl_insert_fields (b : BloomFilter) (keys : List Bytes) :
    (keys.foldl insert b).length = b.length ∧ (keys.foldl insert b).hashNum = b.hashNum := by
  induction keys generalizing b with
  | nil => exact ⟨rfl, rfl⟩
  | cons key keys ih => exact ih (b.insert key)

theorem Shape.bitOf_lt {b : BloomFilter} (h : b.Shape) (s : Bytes) (seed : UInt64) :
    b.bitOf s seed / 64 < b.data.length := by
  have hlt : b.bitOf s seed < b.length := Nat.mod_lt _ h.length_pos
  rw [h.data]
  omega

theorem Shape.binarySize_lt {b : BloomFilter} (h : b.Shape) (hn : b.hashNum < 2 ^ 60)
    (hl : b.length < 2 ^ 64) : b.binarySize < 2 ^ 64 := by
  have hseed := h.seed
  have hdata := h.data
  rw [binarySize, dataOffset_eq]
  omega

/-- **A filter that is saved and loaded** checks as before. -/
theorem Shape.reload {b : BloomFilter} (h : b.Shape) (hn : b.hashNum < 2 ^ 60)
    (hl : b.length < 2 ^ 64) {w r : Bytes} (hr : b.binarySize ≤ r.length) :
    ∃ saved, saved.length = b.binarySize ∧
      b.save (w ++ r) w.length = some (w ++ saved ++ r.drop b.binarySize, b.binarySize) ∧
      ∀ rest, ∃ b', load (saved ++ rest) = some (b', b.binarySize) ∧
        ∀ s, b'.check s = b.check s := by
  obtain ⟨pad, hpad, hsave⟩ := save_append b rfl hr
  refine ⟨b.image pad, b.length_image hpad, hsave, ?_⟩
  intro rest
  exact ⟨b, h.load_image (by omega) hl hpad rest, fun s => rfl⟩

/-- **The filter never denies a member**, before or after it was saved and loaded.  A vector of
words has less than `2 ^ 60` of them. -/
theorem members_pass_and_reload (length : Nat) (seed : List UInt64)
    (keys : List (Overload × Bytes)) (hpos : 1 ≤ length) (hlength : length < 2 ^ 64)
    (hseed : seed.length < 2 ^ 60) :
    ∃ b, keys.foldl insertBy (initWith length seed) = b ∧
      (∀ s seed, b.bitOf s seed / 64 < b.data.length) ∧
      (∀ key ∈ keys, b.check key.2) ∧ b.binarySize < 2 ^ 64 ∧
      ∀ w r : Bytes, b.binarySize ≤ r.length →
        ∃ saved, saved.length = b.binarySize ∧
          b.save (w ++ r) w.length = some (w ++ saved ++ r.drop b.binarySize, b.binarySize) ∧
          ∀ rest, ∃ b', load (saved ++ rest) = some (b', b.binarySize) ∧
            ∀ s, b'.check s = b.check s := by
  obtain ⟨hl, hn⟩ := foldl_insert_fields (initWith length seed) (keys.map Prod.snd)
  have hshape := (shape_initWith hpos seed).foldl_insert (keys.map Prod.snd)
  have hcheck : ∀ key ∈ keys, ((keys.map Prod.snd).foldl insert (initWith length seed)).check
      key.2 := fun key hkey => (shape_initWith hpos seed).check_of_mem (List.mem_map_of_mem hkey)
  rw [foldl_insertBy_eq]
  generalize (keys.map Prod.snd).foldl insert (initWith length seed) = b at *
  have hn' : b.hashNum < 2 ^ 60 := hn ▸ hseed
  have hl' : b.length < 2 ^ 64 := hl ▸ hlength
  exact ⟨b, rfl, hshape.bitOf_lt, hcheck, hshape.binarySize_lt hn' hl',
    fun w r hr => hshape.reload hn' hl' hr⟩

/-- A key with bytes above 127, through both overloads. -/
theorem members_pass_and_reload_highBytes :
    ∃ b, [(Overload.pointer, [200, 7]), (Overload.view, [255])].foldl insertBy
        (initWith 100 [31, 131]) = b ∧ b.check [200, 7] ∧ b.check [255] := by
  obtain ⟨b, hb, -, hcheck, -⟩ := members_pass_and_reload 100 [31, 131]
    [(.pointer, [200, 7]), (.view, [255])] (by decide) (by decide) (by decide)
  exact ⟨b, hb, hcheck (.pointer, [200, 7]) List.mem_cons_self,
    hcheck (.view, [255]) (List.mem_cons_of_mem _ List.mem_cons_self)⟩

end Mokv.LSM.BloomFilter
