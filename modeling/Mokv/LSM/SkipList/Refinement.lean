import Mokv.Lib.MapM
import Mokv.Lib.Run
import Mokv.LSM.SkipList.Pointers

/-!
# The skip list is a map

`Put` and `Delete` keep the shape, whatever level is drawn (`Rep.put`, `Rep.delete`), so
the skip list is the sorted map of its pairs (`refines_map`), and the memtable model is what
its level 0 shows (`refines_memTable`).
-/

namespace Mokv.LSM

open Lib

namespace SkipList

/-! ### `Put` -/

section Put

variable {s : SkipList} {key value : Bytes} {ns lo hi : List Nat} {mid : Option Nat} {n : Nat}

theorem Shape.growHead (h : s.Shape ns) (hs : Split s key ns lo mid hi) :
    ∃ t prevNodes, s.growHead (s.node s.head) ((List.range (s.height s.head)).map (s.pred lo)) n =
        (t, prevNodes) ∧ t.Shape ns ∧ t.height t.head = max (s.height s.head) n ∧
      t.head = s.head ∧ t.fresh = s.fresh ∧ t.size = s.size ∧ t.binarySize = s.binarySize ∧
      t.pair = s.pair ∧ t.pred lo = s.pred lo ∧
      (∀ l < max (s.height s.head) n, prevNodes[l]? = some (s.pred lo l)) ∧
      ∀ l < s.height s.head, t.next l s.head = s.next l s.head := by
  unfold SkipList.growHead
  rw [← height]
  split
  · rename_i hgt
    have hlen : ((s.node s.head).nexts ++
        List.replicate (n - s.height s.head) none).length = n := by
      rw [List.length_append, List.length_replicate, ← height]
      omega
    have hmax : max (s.height s.head) n = n := by omega
    refine ⟨s.withHead ((s.node s.head).nexts ++ List.replicate (n - s.height s.head) none), _,
      rfl, h.withHead ?_ ?_ ?_, ?_, rfl, rfl, rfl, rfl, withHead_pair _ _, ?_, ?_, ?_⟩
    · omega
    · intro a ha
      have := h.height_le a ha
      omega
    · intro l hl
      rw [hlen] at hl
      split
      · rename_i hlt
        rw [List.getElem?_append_left hlt, next_eq]
      · rename_i hge
        rw [List.getElem?_append_right (Nat.le_of_not_lt hge), List.getElem?_replicate,
          if_pos (by rw [← height]; omega)]
    · rw [hmax]
      exact ((withHead_height _ _ _).trans (if_pos rfl)).trans hlen
    · funext l
      refine congrArg (List.getLastD · s.head) (List.filter_congr ?_)
      intro a ha
      rw [tall, withHead_height, if_neg (h.ne_head (hs.eq ▸ List.mem_append_left _ ha)), tall]
    · intro l hl
      rw [hmax] at hl
      by_cases hlt : l < s.height s.head
      · rw [List.getElem?_append_left (by rw [List.length_map, List.length_range]; exact hlt),
          getElem?_map_range hlt]
      · have hge := Nat.le_of_not_lt hlt
        rw [List.getElem?_append_right (by rw [List.length_map, List.length_range]; exact hge),
          List.length_map, List.length_range, List.getElem?_replicate, if_pos (by omega),
          h.pred_eq_head hs hge]
    · intro l hl
      rw [withHead_next, if_pos rfl, List.getElem?_append_left hl, next_eq]
  · rename_i hle
    have hmax : max (s.height s.head) n = s.height s.head := by omega
    refine ⟨s, _, rfl, h, hmax.symm, rfl, rfl, rfl, rfl, rfl, rfl, ?_, fun _ _ => rfl⟩
    intro l hl
    rw [hmax] at hl
    exact getElem?_map_range hl

theorem Rep.overwrite {t : SkipList} {q : Nat} (h : s.Rep ns)
    (hs : Split s key ns lo (some q) hi)
    (hheap : t.heap = Function.update s.heap q (some { s.node q with value := value }))
    (hfresh : t.fresh = s.fresh) (hhead : t.head = s.head) (hsize : t.size = s.size)
    (hbin : t.binarySize =
      (s.binarySize + (value.length + 2 ^ 64 - (s.node q).value.length % 2 ^ 64)) % 2 ^ 64) :
    t.Rep ns ∧ ns.map t.pair = Lib.put key value (ns.map s.pair) := by
  have hns : ns = lo ++ q :: hi := hs.eq
  have hqns : q ∈ ns := hs.mid_mem rfl
  have hnext : ∀ l a, t.next l a = s.next l a := by
    intro l a
    rw [next_eq, node_update hheap, next_eq]
    split
    · rename_i ha
      rw [ha]
    · rfl
  have hheight : ∀ a, t.height a = s.height a := by
    intro a
    rw [height, node_update hheap, height]
    split
    · rename_i ha
      rw [ha]
    · rfl
  have hpair : ∀ a, a ≠ q → t.pair a = s.pair a := by
    intro a ha
    rw [pair, node_update hheap, if_neg ha, pair]
  have hq : t.pair q = (key, value) := by
    rw [pair, node_update hheap, if_pos rfl, hs.mid q rfl]
  have hnd : q ∉ lo ∧ q ∉ hi := by
    have hnd := (List.nodup_cons.mp h.nodup).2
    rw [hns] at hnd
    have hmid := List.nodup_middle.mp hnd
    have hq' := (List.nodup_cons.mp hmid).1
    exact ⟨fun hc => hq' (List.mem_append_left _ hc), fun hc => hq' (List.mem_append_right _ hc)⟩
  have hold : ∀ l : List Nat, q ∉ l → l.map t.pair = l.map s.pair := by
    intro l hl
    refine List.map_congr_left ?_
    intro a ha
    refine hpair a ?_
    rintro rfl
    exact hl ha
  have hpairs : ns.map t.pair = Lib.put key value (ns.map s.pair) := by
    have hqs : s.pair q = (key, (s.node q).value) := by rw [pair, hs.mid q rfl]
    rw [hns, List.map_append, List.map_cons, List.map_append, List.map_cons, hold lo hnd.1,
      hold hi hnd.2, hq, hqs, put_append, put_cons_self]
    intro b hb
    obtain ⟨a, ha, rfl⟩ := List.mem_map.mp hb
    exact hs.lt a ha
  have hshape : t.Shape ns := by
    refine h.toShape.of_agree hhead hfresh ?_ (fun a _ => hheight a) (fun l a _ => hnext l a) ?_
    · intro a ha
      rw [isSome_update hheap, (h.alloc a ha).2, Bool.or_true]
    · rw [hpairs]
      exact h.sorted.put key value
  refine ⟨⟨hshape, ?_, ?_, hsize.trans h.size, ?_⟩, hpairs⟩
  · rw [hhead, hheight]
    exact h.head_le
  · rw [hhead, hheight, hnext]
    exact h.top
  · have hlook : (ns.map s.pair).lookup key = some (s.node q).value := hs.lookup_eq h.sorted
    have hpay := (MemTable.length_put_of_lookup h.sorted hlook value).2
    rw [hbin, h.binarySize, hpairs]
    omega

/-- **`Put` writes the pair into the map**, whatever level is drawn. -/
theorem Rep.put (h : s.Rep ns) (key value : Bytes) (hn : 1 ≤ n) (hle : n ≤ 32) :
    ∃ t ns', s.put key value n = some t ∧ t.Rep ns' ∧
      ns'.map t.pair = Lib.put key value (ns.map s.pair) := by
  obtain ⟨lo, mid, hi, hs⟩ := exists_split h.sorted key
  have hH := h.height_pos s.head List.mem_cons_self
  unfold SkipList.put
  rw [heap_eq (h.alloc s.head List.mem_cons_self).2]
  simp only [Option.bind_eq_bind, Option.bind_some]
  rw [← height, h.search_head hs]
  simp only [Option.bind_some]
  rw [getElem?_map_range hH, Option.bind_some, h.found_zero hs, Option.bind_some]
  cases mid with
  | some q =>
    have hq := (h.alloc q (List.mem_cons_of_mem _ (hs.mid_mem rfl))).2
    simp only
    rw [heap_eq hq, Option.bind_some]
    refine ⟨_, ns, rfl, ?_⟩
    exact h.overwrite hs rfl rfl rfl rfl rfl
  | none =>
    obtain ⟨t, prevNodes, hgrow, hshape, hhead, hth, hfresh, hsize, hbin, hpair, hpred, hprev,
      hnext⟩ := h.growHead (n := n) hs
    simp only
    rw [hgrow]
    simp only
    have hs' : Split t key ns lo none hi := by
      have hkey : ∀ a, (t.node a).key = (s.node a).key := fun a =>
        congrArg Prod.fst (congrFun hpair a)
      refine ⟨hs.eq, ?_, ?_, ?_⟩
      · intro a ha
        rw [hkey]
        exact hs.lt a ha
      · intro a ha
        cases ha
      · intro a ha
        rw [hkey]
        exact hs.gt a ha
    have hadd : Added t { t with
        heap := Function.update t.heap t.fresh (some ⟨List.replicate n none, key, value⟩)
        fresh := t.fresh + 1
        size := (t.size + 1) % 2 ^ 64
        binarySize := (t.binarySize + (key.length + value.length)) % 2 ^ 64 } n key value :=
      ⟨rfl, rfl, node_update rfl, isSome_update rfl⟩
    obtain ⟨u, hu, hsame, hins⟩ := @Added.exists_inserted _ _ lo prevNodes _ _ _ hadd
      (by rw [hhead]; exact Nat.le_max_right _ _) (fun l => hshape.ne_fresh (hs'.pred_mem l))
      (fun l hl => by rw [hpred]; exact hprev l (by omega))
    have huH : u.height u.head = max (s.height s.head) n := by
      rw [hins.head, hins.height, if_neg (hshape.ne_fresh List.mem_cons_self), hhead]
    have hpairs : (lo ++ t.fresh :: hi).map u.pair = Lib.put key value (ns.map s.pair) := by
      rw [hins.map_pair hshape hs', hpair]
    have hnone : (ns.map s.pair).lookup key = none := hs.lookup_eq h.sorted
    obtain ⟨hlen, hpay⟩ := MemTable.length_put_of_lookup_none hnone value
    refine ⟨u, lo ++ t.fresh :: hi, hu, ⟨hins.shape hshape hs' hn
      (by rw [hhead]; exact Nat.le_max_right _ _), ?_, ?_, ?_, ?_⟩, hpairs⟩
    · rw [huH]
      have := h.head_le
      omega
    · -- the top level is the new node's, or what it was
      by_cases hnew : max (s.height s.head) n - 1 < n ∧
          t.pred lo (max (s.height s.head) n - 1) = t.head
      · refine Or.inr ?_
        rw [huH, hins.head, ← hnew.2, hins.next_pred _ hnew.1]
        intro hc
        cases hc
      · have hmax : max (s.height s.head) n = s.height s.head := by
          by_contra hne
          refine hnew ⟨by omega, ?_⟩
          rw [hpred, hth]
          exact h.pred_eq_head hs (by omega)
        rw [huH, hmax, hins.head, hth]
        refine h.top.imp_right ?_
        intro htop
        rw [hins.next_old, hnext]
        · exact htop
        · omega
        · rw [← hth]
          exact hshape.ne_fresh List.mem_cons_self
        · intro hlt hc
          refine hnew ⟨by omega, ?_⟩
          rw [hmax, ← hc, hth]
    · have hlen' := congrArg List.length hpairs
      rw [List.length_map, hlen, List.length_map] at hlen'
      rw [hsame.size, hlen']
      simp only
      rw [hsize, h.size]
      omega
    · rw [hsame.binarySize, hpairs, hpay]
      simp only
      rw [hbin, h.binarySize]
      omega

end Put

/-! ### `Delete` -/

theorem newSize_spec (nexts : List (Option Nat)) {k : Nat} (hk : 0 < k) :
    0 < newSize nexts k ∧ newSize nexts k ≤ k ∧
      (∀ l, newSize nexts k ≤ l → l < k → nexts[l]? = some none) ∧
      (newSize nexts k = 1 ∨ nexts[newSize nexts k - 1]? ≠ some none) := by
  induction k with
  | zero => omega
  | succ k ih =>
    cases k with
    | zero =>
      refine ⟨Nat.one_pos, Nat.le_refl 1, ?_, Or.inl rfl⟩
      intro l h1 h2
      have h1 : 1 ≤ l := h1
      omega
    | succ k =>
      rw [newSize]
      split
      · rename_i hnull
        obtain ⟨h1, h2, h3, h4⟩ := ih (Nat.succ_pos k)
        refine ⟨h1, by omega, ?_, h4⟩
        intro l hl hlt
        by_cases hk : l = k + 1
        · rw [hk]
          exact hnull
        · exact h3 l hl (by omega)
      · rename_i hnull
        refine ⟨Nat.succ_pos _, Nat.le_refl _, ?_, Or.inr hnull⟩
        intro l h1 h2
        omega

/-- `t` is `s` with the node `q` out of all chains. -/
structure Removed (s t : SkipList) (lo : List Nat) (q : Nat) : Prop where
  nodes : SameNodes s t
  next_pred : ∀ l < s.height q, l < s.height s.head → t.next l (s.pred lo l) = s.next l q
  next_old : ∀ l a, (l < s.height q → a ≠ s.pred lo l) → t.next l a = s.next l a

section Delete

variable {s t : SkipList} {key : Bytes} {ns lo hi : List Nat} {q : Nat}

theorem Split.sublist (hs : Split s key ns lo (some q) hi) : (lo ++ hi).Sublist ns := by
  rw [hs.eq]
  exact List.Sublist.append_left (List.sublist_cons_self q hi) lo

theorem Removed.shape (hr : Removed s t lo q) (h : s.Shape ns)
    (hs : Split s key ns lo (some q) hi) : t.Shape (lo ++ hi) := by
  have hsub := hs.sublist
  have hns : ns = lo ++ q :: hi := hs.eq
  have hmem : ∀ a ∈ t.head :: (lo ++ hi), a ∈ s.head :: ns := by
    intro a ha
    rw [hr.nodes.head] at ha
    exact (hsub.cons_cons s.head).subset ha
  refine ⟨?_, ?_, ?_, ?_, ?_, ?_⟩
  · rw [hr.nodes.head]
    exact (hsub.cons_cons s.head).nodup h.nodup
  · intro a ha
    rw [hr.nodes.fresh, hr.nodes.isSome]
    exact h.alloc a (hmem a ha)
  · rw [hr.nodes.map_pair]
    exact h.sorted.sublist (hsub.map s.pair)
  · intro a ha
    rw [hr.nodes.height]
    exact h.height_pos a (hmem a ha)
  · intro a ha
    rw [hr.nodes.height, hr.nodes.head, hr.nodes.height]
    exact h.height_le a (hsub.subset ha)
  · intro level hl
    rw [hr.nodes.head, hr.nodes.height] at hl
    rw [hr.nodes.head, hr.nodes.tall, List.filter_append]
    have hlinks := h.links level hl
    rw [hns, List.filter_append, List.filter_cons] at hlinks
    by_cases hlt : level < s.height q
    · rw [if_pos (by exact decide_eq_true hlt)] at hlinks
      refine hlinks.remove ?_ (hr.next_pred level hlt hl) ?_
      · rw [← List.filter_append]
        exact ((List.filter_sublist.trans hsub).cons_cons s.head).nodup h.nodup
      · intro a _ hne
        exact hr.next_old level a fun _ => hne
    · rw [if_neg (by simpa [tall] using hlt)] at hlinks
      refine hlinks.congr ?_
      intro a _
      exact hr.next_old level a fun hc => absurd hc hlt

theorem Shape.congr (h : s.Shape ns) (hhead : t.head = s.head) (hfresh : t.fresh = s.fresh)
    (hheap : ∀ a ∈ s.head :: ns, t.heap a = s.heap a) : t.Shape ns := by
  have hnode : ∀ a ∈ s.head :: ns, t.node a = s.node a := by
    intro a ha
    rw [node, hheap a ha, node]
  refine h.of_agree hhead hfresh ?_ ?_ ?_ ?_
  · intro a ha
    rw [hheap a ha]
    exact (h.alloc a ha).2
  · intro a ha
    rw [height, hnode a ha, height]
  · intro l a ha
    rw [next_eq, hnode a ha, next_eq]
  · have hmap : ns.map t.pair = ns.map s.pair := by
      refine List.map_congr_left ?_
      intro a ha
      rw [pair, hnode a (List.mem_cons_of_mem _ ha), pair]
    rw [hmap]
    exact h.sorted

theorem Shape.shrink (h : s.Shape ns) (hle : s.height s.head ≤ 32)
    (hsize : s.size = ns.length % 2 ^ 64)
    (hbin : s.binarySize = payload (ns.map s.pair) % 2 ^ 64) :
    (s.withHead ((s.node s.head).nexts.take
      (newSize (s.node s.head).nexts (s.height s.head)))).Rep ns := by
  obtain ⟨h1, h2, h3, h4⟩ := newSize_spec (s.node s.head).nexts
    (h.height_pos s.head List.mem_cons_self)
  generalize newSize (s.node s.head).nexts (s.height s.head) = m at h1 h2 h3 h4 ⊢
  have hlen : ((s.node s.head).nexts.take m).length = m := by
    rw [List.length_take, ← height]
    omega
  have hH : (s.withHead ((s.node s.head).nexts.take m)).height s.head = m := by
    rw [withHead_height, if_pos rfl, hlen]
  have hshape : (s.withHead ((s.node s.head).nexts.take m)).Shape ns := by
    refine h.withHead ?_ ?_ ?_
    · rw [hlen]
      exact h1
    · intro a ha
      rw [hlen]
      by_contra hgt
      -- the top level of the node would not be empty
      have hle := h.height_le a ha
      have hlinks := (h.links (s.height a - 1) (by omega)).next_eq
      rw [next_eq, h3 (s.height a - 1) (by omega) (by omega)] at hlinks
      have hnil := List.head?_eq_none_iff.mp (Option.some.inj hlinks).symm
      refine List.filter_eq_nil_iff.mp hnil a ha ?_
      have := h.height_pos a (List.mem_cons_of_mem _ ha)
      exact decide_eq_true (by omega)
    · intro l hl
      rw [hlen] at hl
      rw [List.getElem?_take_of_lt hl, if_pos (by omega), next_eq]
  refine ⟨hshape, ?_, ?_, hsize, ?_⟩
  · show (s.withHead _).height s.head ≤ 32
    rw [hH]
    omega
  · show (s.withHead _).height s.head = 1 ∨
      (s.withHead _).next ((s.withHead _).height s.head - 1) s.head ≠ some none
    rw [hH, withHead_next, if_pos rfl, List.getElem?_take_of_lt (by omega)]
    exact h4
  · rw [withHead_pair]
    exact hbin

theorem Split.map_pair_eq_filter {mid : Option Nat} (hs : Split s key ns lo mid hi) :
    (lo ++ hi).map s.pair = (ns.map s.pair).filter fun e => e.1 ≠ key := by
  have hkeep : ∀ l : List Nat, (∀ a ∈ l, (s.node a).key ≠ key) →
      (l.map s.pair).filter (fun e => e.1 ≠ key) = l.map s.pair := by
    intro l hl
    rw [List.filter_eq_self]
    intro e he
    obtain ⟨a, ha, rfl⟩ := List.mem_map.mp he
    exact decide_eq_true (hl a ha)
  have hmid : (mid.toList.map s.pair).filter (fun e => e.1 ≠ key) = [] := by
    rw [List.filter_eq_nil_iff]
    intro e he
    obtain ⟨a, ha, rfl⟩ := List.mem_map.mp he
    have hk : (s.pair a).1 = key := hs.mid a (Option.mem_toList.mp ha)
    simp [hk]
  rw [hs.eq, List.map_append, List.map_append, List.map_append, List.filter_append,
    List.filter_append, hmid, List.nil_append, hkeep lo fun a ha => ne_of_lt (hs.lt a ha),
    hkeep hi fun a ha => ne_of_gt (hs.gt a ha)]

theorem foldlM_unlink_none {prevNodes : List Nat} {targets : List (Option Nat)} {k : Nat}
    (ht : ∀ l < k, targets[l]?.join = none) :
    (List.range k).reverse.foldlM (unlink prevNodes targets) s = some s := by
  induction k with
  | zero => rfl
  | succ k ih =>
    rw [List.range_succ, List.reverse_append, List.reverse_singleton, List.singleton_append,
      List.foldlM_cons, unlink, ht k (Nat.lt_succ_self k)]
    exact ih fun l hl => ht l (Nat.lt_succ_of_lt hl)

theorem Split.not_mem (hs : Split s key ns lo (some q) hi) (h : (s.head :: ns).Nodup) :
    q ∉ s.head :: (lo ++ hi) := by
  rw [hs.eq] at h
  obtain ⟨h1, h2⟩ := List.nodup_cons.mp h
  intro hc
  rcases List.mem_cons.mp hc with rfl | hc
  · exact h1 (List.mem_append_right _ List.mem_cons_self)
  · exact (List.nodup_cons.mp (List.nodup_middle.mp h2)).1 hc

theorem freeNode_node {n : Node} {a : Nat} (ha : a ≠ q) : (s.freeNode q n).node a = s.node a := by
  unfold node freeNode
  simp only
  rw [Function.update_of_ne ha]

theorem Rep.freeNode (h : s.Rep ns) (hs : Split s key ns lo (some q) hi)
    (hr : Removed s t lo q) :
    (t.freeNode q (t.node q)).Shape (lo ++ hi) ∧
      (lo ++ hi).map (t.freeNode q (t.node q)).pair = (lo ++ hi).map s.pair ∧
      (t.freeNode q (t.node q)).height t.head = s.height s.head ∧
      (t.freeNode q (t.node q)).size = (lo ++ hi).length % 2 ^ 64 ∧
      (t.freeNode q (t.node q)).binarySize = payload ((lo ++ hi).map s.pair) % 2 ^ 64 := by
  have hnotmem := hs.not_mem h.nodup
  have hne : ∀ a ∈ s.head :: (lo ++ hi), a ≠ q := by
    rintro a ha rfl
    exact hnotmem ha
  refine ⟨?_, ?_, ?_, ?_, ?_⟩
  · refine (hr.shape h.toShape hs).congr rfl rfl ?_
    intro a ha
    rw [hr.nodes.head] at ha
    exact Function.update_of_ne (hne a ha) _ _
  · refine List.map_congr_left ?_
    intro a ha
    rw [pair, freeNode_node (hne a (List.mem_cons_of_mem _ ha))]
    exact hr.nodes.pair a
  · rw [hr.nodes.head, height, freeNode_node (hne s.head List.mem_cons_self)]
    exact hr.nodes.height s.head
  · have hsize := h.size
    have hlen := congrArg List.length hs.eq
    unfold SkipList.freeNode
    simp only [List.length_append, Option.toList_some, List.length_cons, List.length_nil] at hlen ⊢
    rw [hr.nodes.size]
    omega
  · have hbin := h.binarySize
    have hqkey : (t.node q).key = (s.node q).key := congrArg Prod.fst (hr.nodes.pair q)
    have hqval : (t.node q).value = (s.node q).value := congrArg Prod.snd (hr.nodes.pair q)
    have hpay : payload (ns.map s.pair) =
        payload ((lo ++ hi).map s.pair) + ((s.node q).key.length + (s.node q).value.length) := by
      rw [hs.eq, List.map_append, List.map_append, payload_append, payload_append,
        List.map_append, payload_append]
      simp only [Option.toList_some, List.map_cons, List.map_nil, payload_cons, payload_nil, pair]
      omega
    unfold SkipList.freeNode
    simp only
    rw [hr.nodes.binarySize, hqkey, hqval]
    omega

theorem Rep.dropNode (h : s.Rep ns) (hs : Split s key ns lo (some q) hi)
    (hr : Removed s t lo q) :
    ∃ u, t.dropNode q = some u ∧ u.Rep (lo ++ hi) ∧
      (lo ++ hi).map u.pair = (ns.map s.pair).filter fun e => e.1 ≠ key := by
  have hqt : (t.heap q).isSome := by
    rw [hr.nodes.isSome]
    exact (h.alloc q (List.mem_cons_of_mem _ (hs.mid_mem rfl))).2
  obtain ⟨hshape, hpair, hH, hsize, hbin⟩ := h.freeNode hs hr
  refine ⟨_, ?_, hshape.shrink ?_ hsize ?_, ?_⟩
  · unfold SkipList.dropNode
    rw [heap_eq hqt]
    simp only [Option.bind_eq_bind, Option.bind_some]
    rw [heap_eq (hshape.alloc _ List.mem_cons_self).2]
    rfl
  · have hle : (t.freeNode q (t.node q)).height t.head ≤ 32 := hH ▸ h.head_le
    exact hle
  · rw [hpair]
    exact hbin
  · rw [withHead_pair, hpair]
    exact hs.map_pair_eq_filter

/-- **`Delete` takes the key out of the map.** -/
theorem Rep.delete (h : s.Rep ns) (key : Bytes) :
    ∃ t ns', s.delete key = some t ∧ t.Rep ns' ∧
      ns'.map t.pair = (ns.map s.pair).filter fun e => e.1 ≠ key := by
  obtain ⟨lo, mid, hi, hs⟩ := exists_split h.sorted key
  have htargets : ((List.range (s.height s.head)).mapM fun level =>
      ((List.range (s.height s.head)).map (s.pred lo))[level]?.bind fun p =>
        s.found key level p) =
      some ((List.range (s.height s.head)).map fun l => mid.filter (s.tall l)) := by
    refine mapM_eq_some ?_
    intro l hl
    have hl := List.mem_range.mp hl
    rw [getElem?_map_range hl, Option.bind_some, h.found_eq hs hl]
  have hget : ∀ l < s.height s.head, ((List.range (s.height s.head)).map
      fun l => mid.filter (s.tall l))[l]? = some (mid.filter (s.tall l)) := by
    intro l hl
    rw [List.getElem?_map, List.getElem?_range hl, Option.map_some]
  have hH := h.height_pos s.head List.mem_cons_self
  unfold SkipList.delete
  rw [heap_eq (h.alloc s.head List.mem_cons_self).2]
  simp only [Option.bind_eq_bind, Option.bind_some]
  rw [← height, if_neg (Nat.not_lt.mpr h.head_le), h.search_head hs]
  simp only [Option.bind_some]
  rw [htargets, Option.bind_some]
  cases mid with
  | none =>
    rw [foldlM_unlink_none fun l hl => by rw [hget l hl]; rfl, Option.bind_some, hget 0 hH]
    refine ⟨s, ns, rfl, h, ?_⟩
    rw [← hs.map_pair_eq_filter, hs.eq]
    rfl
  | some q =>
    have hq : q ∈ ns := hs.mid_mem rfl
    have hqH := h.height_le q hq
    have hne : ∀ l, s.pred lo l ≠ q := by
      intro l hc
      rcases List.mem_cons.mp (List.getLastD_mem_cons : s.pred lo l ∈ s.head :: _) with hp | hp
      · exact h.ne_head hq (hc ▸ hp)
      · have hlt := hs.lt _ (List.mem_of_mem_filter hp)
        have hk := hs.mid q rfl
        rw [← pred, hc, hk] at hlt
        exact lt_irrefl _ hlt
    obtain ⟨t, ht, hsame, hnext⟩ := @foldlM_unlink s q _ _ (s.pred lo) _
      (fun l hl => getElem?_map_range hl)
      (fun l hl => by rw [hget l hl, Option.filter_some, tall]; simp only [decide_eq_true_eq])
      (fun l hl => ⟨lt_height_pred hl, hne l⟩)
    have hr : Removed s t lo q := by
      refine ⟨hsame, ?_, ?_⟩
      · intro l hlq hl
        rw [hnext, if_pos ⟨hl, hlq, rfl⟩]
      · intro l a ha
        rw [hnext, if_neg]
        rintro ⟨-, hlq, hc⟩
        exact ha hlq hc
    have hpos := h.height_pos q (List.mem_cons_of_mem _ hq)
    rw [ht, Option.bind_some, hget 0 hH, Option.filter_some, tall, if_pos (decide_eq_true hpos)]
    obtain ⟨u, hu, hrep, hpairs⟩ := h.dropNode hs hr
    exact ⟨u, lo ++ hi, hu, hrep, hpairs⟩

end Delete

/-! ### Runs -/

/-- A call, with the level that is drawn for an insertion. -/
inductive Op where
  | put (key value : Bytes) (newLevel : Nat)
  | delete (key : Bytes)
  | get (key : Bytes)
deriving DecidableEq

/-- A level between 1 and 32. -/
def Op.LevelOk : Op → Prop
  | .put _ _ newLevel => 1 ≤ newLevel ∧ newLevel ≤ 32
  | _ => True

instance (op : Op) : Decidable op.LevelOk :=
  match op with
  | .put _ _ _ => inferInstanceAs (Decidable (_ ∧ _))
  | .delete _ => isTrue trivial
  | .get _ => isTrue trivial

/-- One call. -/
def step (s : SkipList) : Op → Option SkipList
  | .put key value newLevel => s.put key value newLevel
  | .delete key => s.delete key
  | .get key => (s.get key).map fun _ => s

/-- What a call does to a map. -/
def Op.apply (m : Bytes → Option Bytes) : Op → Bytes → Option Bytes
  | .put key value _ => Function.update m key (some value)
  | .delete key => Function.update m key none
  | .get _ => m

/-- The map after some calls. -/
def contents (ops : List Op) : Bytes → Option Bytes := ops.foldl Op.apply fun _ => none

/-- The chain of a level, as the pointers lead through it. -/
def chain (s : SkipList) (level : Nat) : Option (List Nat) :=
  follow (s.next level) s.fresh s.head

/-- The skip list `s` with nodes `ns` is the map `m`: level 0 is the sorted list of its
pairs, each higher level the chain of the nodes tall enough, and `Get` and the counters are
those of the map. -/
structure IsMap (s : SkipList) (ns : List Nat) (m : Bytes → Option Bytes) : Prop where
  chain_zero : s.chain 0 = some ns
  sorted : SortedKeys (ns.map s.pair)
  pairs : ∀ k v, (k, v) ∈ ns.map s.pair ↔ m k = some v
  chains : ∀ level < s.height s.head, s.chain level = some (ns.filter (s.tall level))
  height_le : ∀ a ∈ ns, s.height a ≤ s.height s.head
  top : s.height s.head = 1 ∨ ∃ a, s.next (s.height s.head - 1) s.head = some (some a)
  get : ∀ k, s.get k = some (m k)
  size : s.size = ns.length % 2 ^ 64
  binarySize : s.binarySize = payload (ns.map s.pair) % 2 ^ 64

theorem Rep.isMap {s : SkipList} {ns : List Nat} {m : Bytes → Option Bytes} (h : s.Rep ns)
    (hm : ∀ k, (ns.map s.pair).lookup k = m k) : s.IsMap ns m where
  chain_zero := by
    have hall : ns.filter (s.tall 0) = ns := by
      rw [List.filter_eq_self]
      intro a ha
      exact decide_eq_true (h.height_pos a (List.mem_cons_of_mem _ ha))
    have hlinks := h.links 0 (h.height_pos s.head List.mem_cons_self)
    rw [hall] at hlinks
    exact hlinks.follow_eq h.length_lt
  sorted := h.sorted
  pairs k v := by rw [← hm, h.sorted.lookup_eq_some]
  chains level hl := by
    refine (h.links level hl).follow_eq ?_
    exact lt_of_le_of_lt (List.length_filter_le _ _) h.length_lt
  height_le := h.height_le
  top := by
    refine h.top.imp_right ?_
    intro htop
    have hpos := h.height_pos s.head List.mem_cons_self
    obtain ⟨o, ho⟩ := Option.isSome_iff_exists.mp
      (next_isSome.mpr (by omega : s.height s.head - 1 < s.height s.head))
    cases o with
    | none => exact absurd ho htop
    | some a => exact ⟨a, ho⟩
  get k := by rw [h.get_eq, hm]
  size := h.size
  binarySize := h.binarySize

theorem Rep.step {s : SkipList} {ns : List Nat} (h : s.Rep ns) {op : Op} (hop : op.LevelOk) :
    ∃ t ns', s.step op = some t ∧ t.Rep ns' ∧
      ∀ k, (ns'.map t.pair).lookup k = op.apply (fun k => (ns.map s.pair).lookup k) k := by
  cases op with
  | put key value newLevel =>
    obtain ⟨t, ns', ht, hrep, hpairs⟩ := h.put key value hop.1 hop.2
    refine ⟨t, ns', ht, hrep, ?_⟩
    intro k
    rw [hpairs, h.sorted.lookup_put, Op.apply, Function.update_apply]
  | delete key =>
    obtain ⟨t, ns', ht, hrep, hpairs⟩ := h.delete key
    refine ⟨t, ns', ht, hrep, ?_⟩
    intro k
    rw [hpairs, lookup_filter_ne, Op.apply, Function.update_apply]
  | get key =>
    refine ⟨s, ns, ?_, h, fun k => rfl⟩
    rw [SkipList.step, h.get_eq, Option.map_some]

theorem exists_rep {ops : List Op} (hops : ∀ op ∈ ops, op.LevelOk) :
    ∃ s ns, run step empty ops = some s ∧ s.Rep ns ∧
      ∀ k, (ns.map s.pair).lookup k = contents ops k := by
  induction ops using List.reverseRecOn with
  | nil => exact ⟨empty, [], rfl, rep_empty, fun _ => rfl⟩
  | append_singleton ops op ih =>
    obtain ⟨s, ns, hr, hrep, hlook⟩ := ih fun o ho => hops o (List.mem_append_left _ ho)
    obtain ⟨t, ns', ht, hrep', hlook'⟩ :=
      hrep.step (hops op (List.mem_append_right _ (List.mem_singleton_self op)))
    refine ⟨t, ns', run_concat.mpr ⟨s, hr, ht⟩, hrep', ?_⟩
    intro k
    rw [hlook', contents, List.foldl_append, funext hlook]
    rfl

/-- **The skip list is a sorted map.**  Whatever the calls and the levels drawn, the skip
list is the map that the calls describe. -/
theorem refines_map (ops : List Op) (hops : ∀ op ∈ ops, op.LevelOk) :
    ∃ s ns, run step empty ops = some s ∧ s.IsMap ns (contents ops) := by
  obtain ⟨s, ns, hr, hrep, hlook⟩ := exists_rep hops
  exact ⟨s, ns, hr, hrep.isMap hlook⟩

/-- Insertions at several levels, an overwrite with a shorter value, and a deletion. -/
def sampleOps : List Op :=
  [.put [2] [20, 21] 2, .put [1] [10] 1, .put [3] [30] 4, .put [2] [22] 3, .delete [3], .get [1]]

theorem refines_map_sample :
    ∃ s ns, run step empty sampleOps = some s ∧ s.IsMap ns (contents sampleOps) ∧
      contents sampleOps [2] = some [22] ∧ contents sampleOps [3] = none := by
  obtain ⟨s, ns, hr, hmap⟩ := refines_map sampleOps (by decide)
  exact ⟨s, ns, hr, hmap, rfl, rfl⟩

/-- **The memtable is what level 0 shows.** -/
theorem refines_memTable (ws : List (Bytes × Bytes × Nat))
    (hws : ∀ w ∈ ws, 1 ≤ w.2.2 ∧ w.2.2 ≤ 32) :
    ∃ s ns, run step empty (ws.map fun w => .put w.1 w.2.1 w.2.2) = some s ∧ s.Rep ns ∧
      ns.map s.pair = (ws.foldl (fun m w => m.put w.1 w.2.1) MemTable.empty).entries ∧
      ∀ k, s.get k = some ((ws.foldl (fun m w => m.put w.1 w.2.1) MemTable.empty).get k) := by
  have hpairs : ∃ s ns, run step empty (ws.map fun w => .put w.1 w.2.1 w.2.2) = some s ∧ s.Rep ns ∧
      ns.map s.pair = (ws.foldl (fun m w => m.put w.1 w.2.1) MemTable.empty).entries := by
    induction ws using List.reverseRecOn with
    | nil => exact ⟨empty, [], rfl, rep_empty, rfl⟩
    | append_singleton ws w ih =>
      obtain ⟨s, ns, hr, hrep, hp⟩ := ih fun w' hw' => hws w' (List.mem_append_left _ hw')
      obtain ⟨h1, h2⟩ := hws w (List.mem_append_right _ (List.mem_singleton_self w))
      obtain ⟨t, ns', ht, hrep', hp'⟩ := hrep.put w.1 w.2.1 h1 h2
      refine ⟨t, ns', ?_, hrep', ?_⟩
      · rw [List.map_append]
        exact run_concat.mpr ⟨s, hr, ht⟩
      · rw [hp', hp, List.foldl_append, List.foldl_cons, List.foldl_nil, MemTable.entries_put]
  obtain ⟨s, ns, hr, hrep, hp⟩ := hpairs
  refine ⟨s, ns, hr, hrep, hp, ?_⟩
  intro k
  rw [hrep.get_eq, hp]
  rfl

theorem Rep.delete_memTable {s : SkipList} {ns : List Nat} {m : MemTable} (h : s.Rep ns)
    (hm : ns.map s.pair = m.entries) (key : Bytes) :
    ∃ t ns', s.delete key = some t ∧ t.Rep ns' ∧ ns'.map t.pair = (m.delete key).entries := by
  obtain ⟨t, ns', ht, hrep, hpairs⟩ := h.delete key
  refine ⟨t, ns', ht, hrep, ?_⟩
  rw [hpairs, hm, MemTable.entries_delete]

end SkipList

end Mokv.LSM
