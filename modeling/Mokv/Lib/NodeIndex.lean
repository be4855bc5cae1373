import Mathlib.Data.List.AList
import Mathlib.Data.List.Perm.Basic

/-!
# A list of nodes and a map to them

A cache keeps its values in the nodes of a list and finds them through a map from keys to
nodes.  A node is named by its address; `nodes` lists addresses with the values there, in
any order that matters to somebody else.

`Indexed`: the addresses and the keys in the list are distinct, and the map knows exactly
the nodes of the list, those of `pending` apart, which are in the list and not in the map
yet.  Nodes are removed (`Indexed.remove`), pushed (`Indexed.push`) and linked
(`Indexed.link`).
-/

namespace Lib

variable {K V : Type} [DecidableEq K]

/-- A map from keys to addresses. -/
abbrev NodeMap (K : Type) [DecidableEq K] := AList fun _ : K => Nat

/-- Insert a key that is not there. -/
def NodeMap.emplace (m : NodeMap K) (k : K) (p : Nat) : NodeMap K :=
  if k ∈ m then m else m.insert k p

/-- The map knows the nodes of the list that are not pending. -/
structure Indexed (keyOf : V → K) (nodes : List (Nat × V)) (m : NodeMap K) (pending : List Nat) :
    Prop where
  ptrs : (nodes.map Prod.fst).Nodup
  keys : (nodes.map fun n => keyOf n.2).Nodup
  mapped : ∀ k p, m.lookup k = some p ↔ p ∉ pending ∧ ∃ v, (p, v) ∈ nodes ∧ keyOf v = k
  listed : ∀ p ∈ pending, ∃ v, (p, v) ∈ nodes
  nodup : pending.Nodup

namespace Indexed

variable {keyOf : V → K} {nodes nodes' : List (Nat × V)} {m : NodeMap K}
  {pending pending' : List Nat}
  {p : Nat} {v : V}

theorem empty (keyOf : V → K) : Indexed keyOf [] ∅ [] where
  ptrs := List.nodup_nil
  keys := List.nodup_nil
  mapped := by simp
  listed := by simp
  nodup := List.nodup_nil

theorem perm (h : Indexed keyOf nodes m pending) (hn : nodes.Perm nodes')
    (hp : pending.Perm pending') : Indexed keyOf nodes' m pending' where
  ptrs := (hn.map _).nodup_iff.mp h.ptrs
  keys := (hn.map _).nodup_iff.mp h.keys
  mapped k p := by
    rw [h.mapped, hp.mem_iff]
    simp only [hn.mem_iff]
  listed p hmem := by
    obtain ⟨v, hv⟩ := h.listed p (hp.mem_iff.mpr hmem)
    exact ⟨v, hn.mem_iff.mp hv⟩
  nodup := hp.nodup_iff.mp h.nodup

theorem eq_of_key (h : Indexed keyOf nodes m pending) {q : Nat} {w : V} (hv : (p, v) ∈ nodes)
    (hw : (q, w) ∈ nodes) (hk : keyOf v = keyOf w) : (p, v) = (q, w) :=
  List.inj_on_of_nodup_map h.keys hv hw hk

theorem eq_of_ptr (h : Indexed keyOf nodes m pending) {w : V} (hv : (p, v) ∈ nodes)
    (hw : (p, w) ∈ nodes) : v = w :=
  (Prod.mk.inj (List.inj_on_of_nodup_map h.ptrs hv hw rfl)).2

/-- **Removing a node that is not pending**, and its key. -/
theorem remove (h : Indexed keyOf ((p, v) :: nodes) m pending) (hp : p ∉ pending) :
    Indexed keyOf nodes (m.erase (keyOf v)) pending where
  ptrs := h.ptrs.of_cons
  keys := h.keys.of_cons
  mapped k q := by
    have hkeys := List.nodup_cons.mp h.keys
    by_cases hk : k = keyOf v
    · subst hk
      rw [AList.lookup_erase]
      refine iff_of_false (fun hn => by cases hn) ?_
      rintro ⟨-, w, hw, hkw⟩
      exact hkeys.1 (List.mem_map.mpr ⟨(q, w), hw, hkw⟩)
    · rw [AList.lookup_erase_ne hk, h.mapped]
      refine and_congr_right fun _ => exists_congr fun w => ?_
      constructor
      · rintro ⟨hw, hkw⟩
        rcases List.mem_cons.mp hw with heq | hw
        · obtain ⟨-, rfl⟩ := Prod.mk.inj heq
          exact absurd hkw.symm hk
        · exact ⟨hw, hkw⟩
      · rintro ⟨hw, hkw⟩
        exact ⟨List.mem_cons_of_mem _ hw, hkw⟩
  listed q hq := by
    obtain ⟨w, hw⟩ := h.listed q hq
    rcases List.mem_cons.mp hw with heq | hw
    · obtain ⟨rfl, -⟩ := Prod.mk.inj heq
      exact absurd hq hp
    · exact ⟨w, hw⟩
  nodup := h.nodup

/-- **Pushing a node** with a new address and a new key; it is pending. -/
theorem push (h : Indexed keyOf nodes m pending) (hp : p ∉ nodes.map Prod.fst)
    (hk : keyOf v ∉ nodes.map fun n => keyOf n.2) :
    Indexed keyOf ((p, v) :: nodes) m (p :: pending) where
  ptrs := List.nodup_cons.mpr ⟨hp, h.ptrs⟩
  keys := List.nodup_cons.mpr ⟨hk, h.keys⟩
  mapped k q := by
    rw [h.mapped]
    constructor
    · rintro ⟨hq, w, hw, hkw⟩
      refine ⟨?_, w, List.mem_cons_of_mem _ hw, hkw⟩
      rw [List.mem_cons, not_or]
      refine ⟨?_, hq⟩
      rintro rfl
      exact hp (List.mem_map_of_mem hw)
    · rintro ⟨hq, w, hw, hkw⟩
      rw [List.mem_cons, not_or] at hq
      rcases List.mem_cons.mp hw with heq | hw
      · exact absurd (Prod.mk.inj heq).1 hq.1
      · exact ⟨hq.2, w, hw, hkw⟩
  listed q hq := by
    rcases List.mem_cons.mp hq with rfl | hq
    · exact ⟨v, List.mem_cons_self⟩
    · obtain ⟨w, hw⟩ := h.listed q hq
      exact ⟨w, List.mem_cons_of_mem _ hw⟩
  nodup := by
    refine List.nodup_cons.mpr ⟨?_, h.nodup⟩
    intro hq
    obtain ⟨w, hw⟩ := h.listed p hq
    exact hp (List.mem_map_of_mem hw)

theorem lookup_pending (h : Indexed keyOf nodes m pending) (hv : (p, v) ∈ nodes)
    (hp : p ∈ pending) :
    m.lookup (keyOf v) = none := by
  cases hl : m.lookup (keyOf v) with
  | none => rfl
  | some q =>
    obtain ⟨hq, w, hw, hk⟩ := (h.mapped _ _).mp hl
    obtain ⟨rfl, -⟩ := Prod.mk.inj (h.eq_of_key hw hv hk)
    exact absurd hp hq

/-- **Linking a pending node**: its key goes into the map. -/
theorem link (h : Indexed keyOf nodes m (p :: pending)) (hv : (p, v) ∈ nodes) :
    Indexed keyOf nodes (m.emplace (keyOf v) p) pending where
  ptrs := h.ptrs
  keys := h.keys
  mapped k q := by
    have hnone := h.lookup_pending hv List.mem_cons_self
    have hnodup := List.nodup_cons.mp h.nodup
    rw [NodeMap.emplace, if_neg (AList.lookup_eq_none.mp hnone)]
    by_cases hk : k = keyOf v
    · subst hk
      rw [AList.lookup_insert]
      constructor
      · intro heq
        obtain rfl := Option.some.inj heq
        exact ⟨hnodup.1, v, hv, rfl⟩
      · rintro ⟨-, w, hw, hkw⟩
        rw [(Prod.mk.inj (h.eq_of_key hw hv hkw)).1]
    · rw [AList.lookup_insert_ne hk, h.mapped, List.mem_cons, not_or, and_assoc]
      constructor
      · rintro ⟨-, hq, hw⟩
        exact ⟨hq, hw⟩
      · rintro ⟨hq, w, hw, hkw⟩
        refine ⟨?_, hq, w, hw, hkw⟩
        rintro rfl
        rw [h.eq_of_ptr hw hv] at hkw
        exact hk hkw.symm
  listed q hq := h.listed q (List.mem_cons_of_mem _ hq)
  nodup := (List.nodup_cons.mp h.nodup).2

/-- **A node gets a new value** with the same key. -/
theorem setValue (h : Indexed keyOf ((p, v) :: nodes) m pending) {w : V} (hk : keyOf w = keyOf v) :
    Indexed keyOf ((p, w) :: nodes) m pending where
  ptrs := h.ptrs
  keys := by
    have hkeys := h.keys
    rw [List.map_cons] at hkeys ⊢
    rw [hk]
    exact hkeys
  mapped k q := by
    rw [h.mapped]
    simp only [List.mem_cons, Prod.mk.injEq]
    refine and_congr_right fun _ => ?_
    constructor
    · rintro ⟨u, ⟨rfl, rfl⟩ | hu, hku⟩
      · exact ⟨w, .inl ⟨rfl, rfl⟩, hk.trans hku⟩
      · exact ⟨u, .inr hu, hku⟩
    · rintro ⟨u, ⟨rfl, rfl⟩ | hu, hku⟩
      · exact ⟨v, .inl ⟨rfl, rfl⟩, hk.symm.trans hku⟩
      · exact ⟨u, .inr hu, hku⟩
  listed q hq := by
    obtain ⟨u, hu⟩ := h.listed q hq
    rcases List.mem_cons.mp hu with heq | hu
    · obtain ⟨rfl, -⟩ := Prod.mk.inj heq
      exact ⟨w, List.mem_cons_self⟩
    · exact ⟨u, List.mem_cons_of_mem _ hu⟩
  nodup := h.nodup

theorem not_mem_keys (h : Indexed keyOf nodes m []) {k : K} (hl : m.lookup k = none) :
    k ∉ nodes.map fun n => keyOf n.2 := by
  intro hmem
  obtain ⟨⟨q, w⟩, hw, hk⟩ := List.mem_map.mp hmem
  have hsome : m.lookup k = some q := (h.mapped k q).mpr ⟨List.not_mem_nil, w, hw, hk⟩
  rw [hl] at hsome
  cases hsome

theorem entries_perm (h : Indexed keyOf nodes m []) :
    (m.entries.map Sigma.snd).Perm (nodes.map Prod.fst) := by
  have hnodup : (m.entries.map Sigma.snd).Nodup := by
    refine List.Nodup.map_on ?_ (List.NodupKeys.nodup m.nodupKeys)
    rintro ⟨k, p⟩ hk ⟨k', p'⟩ hk' (rfl : p = p')
    obtain ⟨-, v, hv, rfl⟩ := (h.mapped k p).mp (AList.mem_lookup_iff.mpr hk)
    obtain ⟨-, w, hw, rfl⟩ := (h.mapped k' p).mp (AList.mem_lookup_iff.mpr hk')
    rw [h.eq_of_ptr hv hw]
  refine (List.perm_ext_iff_of_nodup hnodup h.ptrs).mpr ?_
  intro p
  simp only [List.mem_map]
  constructor
  · rintro ⟨⟨k, q⟩, hk, rfl⟩
    obtain ⟨-, v, hv, -⟩ := (h.mapped k q).mp (AList.mem_lookup_iff.mpr hk)
    exact ⟨_, hv, rfl⟩
  · rintro ⟨⟨q, v⟩, hv, rfl⟩
    have hl := (h.mapped (keyOf v) q).mpr ⟨List.not_mem_nil, v, hv, rfl⟩
    exact ⟨_, AList.mem_lookup_iff.mp hl, rfl⟩

/-- **No key points to a node that is gone.** -/
theorem mem_of_lookup (h : Indexed keyOf nodes m pending) {k : K} (hl : m.lookup k = some p) :
    ∃ v, (p, v) ∈ nodes ∧ keyOf v = k := ((h.mapped k p).mp hl).2

end Indexed

end Lib
