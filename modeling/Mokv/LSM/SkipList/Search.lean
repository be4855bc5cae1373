import Mathlib.Data.List.Nodup
import Mathlib.Data.List.Perm.Subperm
import Mokv.Lib.Links
import Mokv.LSM.SkipList.Basic

/-!
# Searching a skip list

`Rep s ns` is the shape of a skip list: the nodes `ns` in key order, and at each level the
chain of those that are tall enough.  A search cuts `ns` at the key (`Split`) and finds the
last node before the cut at every level (`Shape.search_eq`): what one level has passed is
on the chain of the level below.  So `Get` looks the key up (`Shape.get_eq`).
-/

namespace Mokv.LSM

open Lib

namespace SkipList

/-! ### The shape -/

/-- The node at an address. -/
def node (s : SkipList) (a : Nat) : Node := (s.heap a).getD ⟨[], [], []⟩

/-- The number of levels of a node. -/
def height (s : SkipList) (a : Nat) : Nat := (s.node a).nexts.length

/-- The node has a pointer at the level. -/
def tall (s : SkipList) (level a : Nat) : Bool := level < s.height a

/-- The pair of a node. -/
def pair (s : SkipList) (a : Nat) : Entry := ((s.node a).key, (s.node a).value)

theorem next_eq (s : SkipList) (level a : Nat) : s.next level a = (s.node a).nexts[level]? := by
  unfold next node
  cases s.heap a with
  | none => rfl
  | some n => rfl

theorem heap_eq {s : SkipList} {a : Nat} (h : (s.heap a).isSome) : s.heap a = some (s.node a) := by
  obtain ⟨n, hn⟩ := Option.isSome_iff_exists.mp h
  rw [node, hn, Option.getD_some]

theorem next_isSome {s : SkipList} {level a : Nat} :
    (s.next level a).isSome ↔ level < s.height a := by
  rw [next_eq, height]
  simp

/-- The nodes `ns` in key order; at each level of the head, the chain of those that are
tall enough. -/
structure Shape (s : SkipList) (ns : List Nat) : Prop where
  nodup : (s.head :: ns).Nodup
  alloc : ∀ a ∈ s.head :: ns, a < s.fresh ∧ (s.heap a).isSome
  sorted : SortedKeys (ns.map s.pair)
  height_pos : ∀ a ∈ s.head :: ns, 0 < s.height a
  height_le : ∀ a ∈ ns, s.height a ≤ s.height s.head
  links : ∀ level < s.height s.head, Links (s.next level) s.head (ns.filter (s.tall level))

/-- A skip list with the nodes `ns`: the head is no higher than needed, and the counters
are right. -/
structure Rep (s : SkipList) (ns : List Nat) : Prop extends Shape s ns where
  head_le : s.height s.head ≤ 32
  top : s.height s.head = 1 ∨ s.next (s.height s.head - 1) s.head ≠ some none
  size : s.size = ns.length % 2 ^ 64
  binarySize : s.binarySize = payload (ns.map s.pair) % 2 ^ 64

theorem rep_empty : empty.Rep [] where
  nodup := List.nodup_singleton _
  alloc a ha := by
    obtain rfl := List.mem_singleton.mp ha
    decide
  sorted := sortedKeys_nil
  height_pos a ha := by
    obtain rfl := List.mem_singleton.mp ha
    decide
  height_le := nofun
  links level hl := by
    have hl : level < 1 := hl
    obtain rfl : level = 0 := by omega
    rfl
  head_le := by decide
  top := Or.inl rfl
  size := rfl
  binarySize := rfl

/-! ### Searching -/

/-- The nodes before, with and after a key. -/
structure Split (s : SkipList) (key : Bytes) (ns lo : List Nat) (mid : Option Nat)
    (hi : List Nat) : Prop where
  eq : ns = lo ++ (mid.toList ++ hi)
  lt : ∀ a ∈ lo, (s.node a).key < key
  mid : ∀ a ∈ mid, (s.node a).key = key
  gt : ∀ a ∈ hi, key < (s.node a).key

theorem exists_split {s : SkipList} {ns : List Nat} (h : SortedKeys (ns.map s.pair))
    (key : Bytes) : ∃ lo mid hi, Split s key ns lo mid hi := by
  induction ns with
  | nil => exact ⟨[], none, [], rfl, nofun, nofun, nofun⟩
  | cons a ns ih =>
    obtain ⟨hlt, hs⟩ := sortedKeys_cons.mp h
    have hgt : ∀ b ∈ ns, (s.node a).key < (s.node b).key := by
      intro b hb
      exact hlt (s.pair b) (List.mem_map_of_mem hb)
    rcases lt_trichotomy (s.node a).key key with hk | hk | hk
    · obtain ⟨lo, mid, hi, heq, h1, h2, h3⟩ := ih hs
      refine ⟨a :: lo, mid, hi, by rw [heq]; rfl, ?_, h2, h3⟩
      intro b hb
      rcases List.mem_cons.mp hb with rfl | hb
      · exact hk
      · exact h1 b hb
    · refine ⟨[], some a, ns, rfl, nofun, ?_, fun b hb => hk ▸ hgt b hb⟩
      intro b hb
      obtain rfl := Option.some.inj hb
      exact hk
    · refine ⟨[], none, a :: ns, rfl, nofun, nofun, ?_⟩
      intro b hb
      rcases List.mem_cons.mp hb with rfl | hb
      · exact hk
      · exact lt_trans hk (hgt b hb)

theorem getElem?_map_range {f : Nat → Nat} {n l : Nat} (hl : l < n) :
    ((List.range n).map f)[l]? = some (f l) := by
  rw [List.getElem?_map, List.getElem?_range hl, Option.map_some]

/-- The last node before the key at a level. -/
def pred (s : SkipList) (lo : List Nat) (level : Nat) : Nat :=
  (lo.filter (s.tall level)).getLastD s.head

theorem walk_eq {s : SkipList} {key : Bytes} {level p turns : Nat} {xs ys : List Nat}
    (hl : Links (s.next level) p (xs ++ ys)) (halloc : ∀ a ∈ xs ++ ys, (s.heap a).isSome)
    (hx : ∀ a ∈ xs, (s.node a).key < key) (hy : ∀ a ∈ ys, ¬ (s.node a).key < key)
    (ht : xs.length < turns) : s.walk key level turns p = some (xs.getLastD p) := by
  induction xs generalizing p turns with
  | nil =>
    obtain ⟨n, rfl⟩ := Nat.exists_eq_succ_of_ne_zero (Nat.ne_of_gt ht)
    rw [walk, hl.next_eq]
    cases ys with
    | nil => rfl
    | cons y ys =>
      simp only [List.nil_append, List.head?_cons]
      rw [heap_eq (halloc y List.mem_cons_self)]
      exact if_neg (hy y List.mem_cons_self)
  | cons x xs ih =>
    obtain ⟨n, rfl⟩ := Nat.exists_eq_succ_of_ne_zero (Nat.ne_of_gt (Nat.zero_lt_of_lt ht))
    rw [walk, hl.1]
    simp only
    rw [heap_eq (halloc x List.mem_cons_self)]
    simp only
    rw [if_pos (hx x List.mem_cons_self), List.getLastD_cons]
    exact ih hl.2 (fun a ha => halloc a (List.mem_cons_of_mem _ ha))
      (fun a ha => hx a (List.mem_cons_of_mem _ ha)) (Nat.lt_of_succ_lt_succ ht)

theorem Shape.length_lt {s : SkipList} {ns : List Nat} (h : s.Shape ns) :
    ns.length < s.fresh := by
  have hsub : (s.head :: ns) ⊆ List.range s.fresh := by
    intro a ha
    exact List.mem_range.mpr (h.alloc a ha).1
  have hle := (List.subperm_of_subset h.nodup hsub).length_le
  rw [List.length_cons, List.length_range] at hle
  exact hle

section Search

variable {s : SkipList} {key : Bytes} {ns lo hi : List Nat} {mid : Option Nat}

theorem Split.not_lt (hs : Split s key ns lo mid hi) {a : Nat} (ha : a ∈ mid.toList ++ hi) :
    ¬ (s.node a).key < key := by
  rcases List.mem_append.mp ha with ha | ha
  · rw [hs.mid a (Option.mem_toList.mp ha)]
    exact lt_irrefl key
  · exact not_lt_of_gt (hs.gt a ha)

theorem Shape.links_pred (h : s.Shape ns) (hs : Split s key ns lo mid hi) {level : Nat}
    (hl : level < s.height s.head) :
    Links (s.next level) (s.pred lo level) ((mid.toList ++ hi).filter (s.tall level)) := by
  have hlinks := h.links level hl
  rw [hs.eq, List.filter_append] at hlinks
  exact hlinks.of_append

theorem Shape.pred_eq_head (h : s.Shape ns) (hs : Split s key ns lo mid hi) {level : Nat}
    (hl : s.height s.head ≤ level) : s.pred lo level = s.head := by
  have hnil : lo.filter (s.tall level) = [] := by
    rw [List.filter_eq_nil_iff]
    intro a ha
    have := h.height_le a (by rw [hs.eq]; exact List.mem_append_left _ ha)
    simp only [tall, decide_eq_true_eq]
    omega
  rw [pred, hnil, List.getLastD_nil]

/-- **A search finds the last node before the key at each level.** -/
theorem Shape.search_eq (h : s.Shape ns) (hs : Split s key ns lo mid hi) {level : Nat}
    (hl : level ≤ s.height s.head) : s.search key level (s.pred lo level) =
      some ((List.range level).map (s.pred lo), s.pred lo 0) := by
  induction level with
  | zero => rfl
  | succ level ih =>
    obtain ⟨u, v, huv, hlast⟩ := exists_split_filter s.head (s.tall level) (s.tall (level + 1)) lo
      (by simp only [tall, decide_eq_true_eq]; omega)
    have hlinks := h.links level hl
    rw [hs.eq, List.filter_append, huv, List.append_assoc] at hlinks
    have hsub : ∀ a ∈ v, a ∈ lo := by
      intro a ha
      exact List.mem_of_mem_filter (huv ▸ List.mem_append_right u ha)
    have hwalk : s.walk key level s.fresh (s.pred lo (level + 1)) = some (s.pred lo level) := by
      rw [pred, ← hlast, walk_eq hlinks.of_append, pred, huv, getLastD_append]
      · intro a ha
        refine (h.alloc a (List.mem_cons_of_mem _ ?_)).2
        rw [hs.eq]
        rcases List.mem_append.mp ha with ha | ha
        · exact List.mem_append_left _ (hsub a ha)
        · exact List.mem_append_right _ (List.mem_of_mem_filter ha)
      · intro a ha
        exact hs.lt a (hsub a ha)
      · intro a ha
        exact hs.not_lt (List.mem_of_mem_filter ha)
      · have h1 : v.length ≤ lo.length := by
          have := List.length_filter_le (s.tall level) lo
          rw [huv, List.length_append] at this
          omega
        have h2 := h.length_lt
        rw [hs.eq, List.length_append] at h2
        omega
    rw [search, hwalk]
    simp only
    rw [ih (Nat.le_of_succ_le hl), Option.map_some, List.range_succ, List.map_append]
    rfl

theorem Shape.search_head (h : s.Shape ns) (hs : Split s key ns lo mid hi) :
    s.search key (s.height s.head) s.head =
      some ((List.range (s.height s.head)).map (s.pred lo), s.pred lo 0) := by
  have hsearch := h.search_eq hs (Nat.le_refl _)
  rw [h.pred_eq_head hs (Nat.le_refl _)] at hsearch
  exact hsearch

theorem found_eq_none {level p : Nat} {o : Option Nat} (hn : s.next level p = some o)
    (ho : ∀ q ∈ o, (s.heap q).isSome ∧ (s.node q).key ≠ key) : s.found key level p = some none := by
  rw [found, hn]
  cases o with
  | none => rfl
  | some q =>
    simp only
    rw [heap_eq (ho q rfl).1, Option.map_some, if_neg (ho q rfl).2]

theorem found_eq_some {level p q : Nat} (hn : s.next level p = some (some q))
    (hq : (s.heap q).isSome) (hk : (s.node q).key = key) :
    s.found key level p = some (some q) := by
  rw [found, hn]
  simp only
  rw [heap_eq hq, Option.map_some, if_pos hk]

theorem Shape.found_eq (h : s.Shape ns) (hs : Split s key ns lo mid hi) {level : Nat}
    (hl : level < s.height s.head) :
    s.found key level (s.pred lo level) = some (mid.filter (s.tall level)) := by
  have halloc : ∀ a ∈ mid.toList ++ hi, (s.heap a).isSome := by
    intro a ha
    refine (h.alloc a (List.mem_cons_of_mem _ ?_)).2
    rw [hs.eq]
    exact List.mem_append_right _ ha
  have hhi : ∀ a ∈ (hi.filter (s.tall level)).head?,
      (s.heap a).isSome ∧ (s.node a).key ≠ key := by
    intro a ha
    have hmem := List.mem_of_mem_filter (List.mem_of_mem_head? ha)
    exact ⟨halloc a (List.mem_append_right _ hmem), ne_of_gt (hs.gt a hmem)⟩
  have hnext := (h.links_pred hs hl).next_eq
  rw [List.filter_append] at hnext
  cases mid with
  | none => exact found_eq_none hnext hhi
  | some q =>
    rw [Option.filter_some]
    by_cases hq : s.tall level q = true
    · rw [Option.toList_some, List.filter_cons_of_pos hq] at hnext
      rw [if_pos hq]
      exact found_eq_some hnext (halloc q List.mem_cons_self) (hs.mid q rfl)
    · rw [Option.toList_some, List.filter_cons_of_neg hq] at hnext
      rw [if_neg hq]
      exact found_eq_none hnext hhi

theorem Split.mid_mem (hs : Split s key ns lo mid hi) {q : Nat} (hq : q ∈ mid) : q ∈ ns := by
  rw [hs.eq]
  exact List.mem_append_right _ (List.mem_append_left _ (Option.mem_toList.mpr hq))

theorem Shape.found_zero (h : s.Shape ns) (hs : Split s key ns lo mid hi) :
    s.found key 0 (s.pred lo 0) = some mid := by
  rw [h.found_eq hs (h.height_pos s.head List.mem_cons_self)]
  cases mid with
  | none => rfl
  | some q =>
    have hpos := h.height_pos q (List.mem_cons_of_mem _ (hs.mid_mem rfl))
    rw [Option.filter_some, tall, if_pos (decide_eq_true hpos)]

theorem Split.lookup_eq (hs : Split s key ns lo mid hi) (h : SortedKeys (ns.map s.pair)) :
    (ns.map s.pair).lookup key = mid.map fun q => (s.node q).value := by
  cases hmid : mid with
  | none =>
    refine lookup_eq_none ?_
    intro b hb
    obtain ⟨a, ha, rfl⟩ := List.mem_map.mp hb
    rw [hs.eq, hmid] at ha
    rcases List.mem_append.mp ha with ha | ha
    · exact ne_of_lt (hs.lt a ha)
    · exact ne_of_gt (hs.gt a ha)
  | some q =>
    refine h.lookup_eq_some.mpr (List.mem_map.mpr ⟨q, hs.mid_mem hmid, ?_⟩)
    rw [pair, hs.mid q hmid]

/-- **`Get` looks the key up.** -/
theorem Shape.get_eq (h : s.Shape ns) (key : Bytes) :
    s.get key = some ((ns.map s.pair).lookup key) := by
  obtain ⟨lo, mid, hi, hs⟩ := exists_split h.sorted key
  rw [hs.lookup_eq h.sorted]
  unfold get
  rw [heap_eq (h.alloc s.head List.mem_cons_self).2]
  simp only [Option.bind_eq_bind, Option.bind_some]
  rw [← height, h.search_head hs, Option.bind_some, h.found_zero hs, Option.bind_some]
  cases hmid : mid with
  | none => rfl
  | some q =>
    have hq := (h.alloc q (List.mem_cons_of_mem _ (hs.mid_mem hmid))).2
    simp only
    rw [heap_eq hq]
    rfl

end Search

end SkipList

end Mokv.LSM
