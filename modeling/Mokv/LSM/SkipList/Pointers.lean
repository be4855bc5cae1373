import Mokv.LSM.SkipList.Search

/-!
# Changing the pointers of a skip list

What the loops of `Put` and `Delete` do to the memory (`foldlM_link`, `foldlM_unlink`), and
what that means for the chains: a new node between its neighbours keeps the shape
(`Inserted.shape`), and so does a head with more or fewer empty levels (`Shape.withHead`).
-/

namespace Mokv.LSM

open Lib

namespace SkipList

/-! ### Changing pointers -/

/-- The same nodes, with other pointers. -/
structure SameNodes (s t : SkipList) : Prop where
  head : t.head = s.head
  fresh : t.fresh = s.fresh
  size : t.size = s.size
  binarySize : t.binarySize = s.binarySize
  isSome : ∀ a, (t.heap a).isSome = (s.heap a).isSome
  pair : ∀ a, t.pair a = s.pair a
  height : ∀ a, t.height a = s.height a

theorem SameNodes.refl (s : SkipList) : SameNodes s s :=
  ⟨rfl, rfl, rfl, rfl, fun _ => rfl, fun _ => rfl, fun _ => rfl⟩

theorem SameNodes.trans {s t u : SkipList} (h : SameNodes s t) (h' : SameNodes t u) :
    SameNodes s u where
  head := h'.head.trans h.head
  fresh := h'.fresh.trans h.fresh
  size := h'.size.trans h.size
  binarySize := h'.binarySize.trans h.binarySize
  isSome a := (h'.isSome a).trans (h.isSome a)
  pair a := (h'.pair a).trans (h.pair a)
  height a := (h'.height a).trans (h.height a)

theorem SameNodes.tall {s t : SkipList} (h : SameNodes s t) : t.tall = s.tall := by
  funext level a
  rw [SkipList.tall, h.height, SkipList.tall]

theorem SameNodes.map_pair {s t : SkipList} (h : SameNodes s t) (ns : List Nat) :
    ns.map t.pair = ns.map s.pair := List.map_congr_left fun a _ => h.pair a

theorem node_update {s t : SkipList} {p : Nat} {n : Node}
    (ht : t.heap = Function.update s.heap p (some n)) (a : Nat) :
    t.node a = if a = p then n else s.node a := by
  unfold node
  rw [ht, Function.update_apply]
  split <;> rfl

theorem isSome_update {s t : SkipList} {p : Nat} {n : Node}
    (ht : t.heap = Function.update s.heap p (some n)) (a : Nat) :
    (t.heap a).isSome = (decide (a = p) || (s.heap a).isSome) := by
  rw [ht, Function.update_apply]
  split
  · rename_i ha
    rw [decide_eq_true ha]
    rfl
  · rename_i ha
    rw [decide_eq_false ha, Bool.false_or]

theorem setNext_spec {s : SkipList} {p level : Nat} (q : Option Nat) (h : level < s.height p) :
    ∃ t, s.setNext p level q = some t ∧ SameNodes s t ∧
      ∀ l a, t.next l a = if a = p ∧ l = level then some q else s.next l a := by
  have hsome : (s.heap p).isSome := by
    cases hp : s.heap p with
    | none =>
      rw [height, node, hp] at h
      cases h
    | some n => rfl
  have hset : s.setNext p level q = some { s with
      heap := Function.update s.heap p
        (some { s.node p with nexts := (s.node p).nexts.set level q }) } := by
    rw [setNext, heap_eq hsome]
    exact if_pos h
  refine ⟨_, hset, ⟨rfl, rfl, rfl, rfl, ?_, ?_, ?_⟩, ?_⟩
  · intro a
    rw [isSome_update rfl]
    by_cases ha : a = p
    · rw [ha, hsome, Bool.or_true]
    · rw [decide_eq_false ha, Bool.false_or]
  · intro a
    rw [SkipList.pair, node_update rfl, SkipList.pair]
    split
    · rename_i ha
      rw [ha]
    · rfl
  · intro a
    rw [SkipList.height, node_update rfl, SkipList.height]
    split
    · rename_i ha
      rw [ha, List.length_set]
    · rfl
  · intro l a
    rw [next_eq, node_update rfl, next_eq]
    by_cases ha : a = p
    · rw [if_pos ha, ha]
      by_cases hl : l = level
      · rw [if_pos ⟨rfl, hl⟩, hl]
        exact List.getElem?_set_self h
      · rw [if_neg fun hc => hl hc.2]
        exact List.getElem?_set_ne (Ne.symm hl)
    · rw [if_neg ha, if_neg fun hc => ha hc.1]

/-- **The loop that links a node.** -/
theorem foldlM_link {s : SkipList} {node n : Nat} {prevNodes : List Nat} {prev : Nat → Nat}
    (hprev : ∀ l < n, prevNodes[l]? = some (prev l)) (hnode : n ≤ s.height node)
    (hp : ∀ l < n, l < s.height (prev l) ∧ prev l ≠ node) {k : Nat} (hk : k ≤ n) :
    ∃ t, (List.range k).foldlM (link node prevNodes) s = some t ∧ SameNodes s t ∧
      ∀ l a, t.next l a =
        if l < k then
          if a = node then s.next l (prev l)
          else if a = prev l then some (some node) else s.next l a
        else s.next l a := by
  induction k with
  | zero => exact ⟨s, rfl, SameNodes.refl s, fun l a => by rw [if_neg (Nat.not_lt_zero l)]⟩
  | succ k ih =>
    obtain ⟨t, ht, hsame, hnext⟩ := ih (Nat.le_of_succ_le hk)
    obtain ⟨hlt, hne⟩ := hp k hk
    obtain ⟨q, hq⟩ := Option.isSome_iff_exists.mp (next_isSome.mpr hlt)
    have hq' : t.next k (prev k) = some q := by
      rw [hnext, if_neg (Nat.lt_irrefl k), hq]
    obtain ⟨t₁, ht₁, hsame₁, hnext₁⟩ := @setNext_spec t node k q
      (by rw [hsame.height]; omega)
    obtain ⟨t₂, ht₂, hsame₂, hnext₂⟩ := @setNext_spec t₁ (prev k) k (some node)
      (by rw [hsame₁.height, hsame.height]; exact hlt)
    refine ⟨t₂, ?_, (hsame.trans hsame₁).trans hsame₂, ?_⟩
    · rw [List.range_succ, List.foldlM_append, ht]
      simp only [Option.bind_eq_bind, Option.bind_some, List.foldlM_cons, List.foldlM_nil, link,
        hprev k hk, hq', ht₁, ht₂]
      rfl
    · intro l a
      rw [hnext₂, hnext₁, hnext]
      by_cases hl : l = k
      · subst hl
        rw [if_neg (Nat.lt_irrefl l), if_pos (Nat.lt_succ_self l)]
        by_cases ha : a = node
        · rw [if_neg fun hc => hne (hc.1.symm.trans ha), if_pos ⟨ha, rfl⟩, if_pos ha, hq]
        · rw [if_neg ha]
          by_cases ha' : a = prev l
          · rw [if_pos ⟨ha', rfl⟩, if_pos ha']
          · rw [if_neg fun hc => ha' hc.1, if_neg fun hc => ha hc.1, if_neg ha']
      · rw [if_neg fun hc => hl hc.2, if_neg fun hc => hl hc.2]
        by_cases hlt' : l < k
        · rw [if_pos hlt', if_pos (Nat.lt_succ_of_lt hlt')]
        · rw [if_neg hlt', if_neg (by omega)]

/-- **The loop that unlinks a node.** -/
theorem foldlM_unlink {s : SkipList} {q : Nat} {prevNodes : List Nat} {targets : List (Option Nat)}
    {prev : Nat → Nat} {k : Nat} (hprev : ∀ l < k, prevNodes[l]? = some (prev l))
    (htar : ∀ l < k, targets[l]? = some (if l < s.height q then some q else none))
    (hp : ∀ l < k, l < s.height (prev l) ∧ prev l ≠ q) :
    ∃ t, (List.range k).reverse.foldlM (unlink prevNodes targets) s = some t ∧ SameNodes s t ∧
      ∀ l a, t.next l a =
        if l < k ∧ l < s.height q ∧ a = prev l then s.next l q else s.next l a := by
  induction k generalizing s with
  | zero =>
    refine ⟨s, rfl, SameNodes.refl s, ?_⟩
    intro l a
    rw [if_neg fun hc => Nat.not_lt_zero l hc.1]
  | succ k ih =>
    obtain ⟨hlt, hne⟩ := hp k (Nat.lt_succ_self k)
    -- the turn at level `k`
    obtain ⟨s₁, hs₁, hsame₁, hnext₁⟩ : ∃ t, unlink prevNodes targets s k = some t ∧
        SameNodes s t ∧ ∀ l a, t.next l a =
          if l = k ∧ l < s.height q ∧ a = prev l then s.next l q else s.next l a := by
      rw [unlink, htar k (Nat.lt_succ_self k)]
      by_cases hq : k < s.height q
      · obtain ⟨r, hr⟩ := Option.isSome_iff_exists.mp (next_isSome.mpr hq)
        obtain ⟨t, ht, hsame, hnext⟩ := setNext_spec (s := s) r hlt
        refine ⟨t, ?_, hsame, ?_⟩
        · simp only [if_pos hq, Option.join_some, hprev k (Nat.lt_succ_self k), hr,
            Option.bind_eq_bind, Option.bind_some, ht]
        · intro l a
          rw [hnext]
          by_cases hl : l = k
          · subst hl
            by_cases ha : a = prev l
            · rw [if_pos ⟨ha, rfl⟩, if_pos ⟨rfl, hq, ha⟩, hr]
            · rw [if_neg fun hc => ha hc.1, if_neg fun hc => ha hc.2.2]
          · rw [if_neg fun hc => hl hc.2, if_neg fun hc => hl hc.1]
      · refine ⟨s, ?_, SameNodes.refl s, ?_⟩
        · simp only [if_neg hq, Option.join_some]
        · intro l a
          rw [if_neg]
          rintro ⟨rfl, hc, -⟩
          exact hq hc
    obtain ⟨t, ht, hsame, hnext⟩ := ih (s := s₁) (fun l hl => hprev l (Nat.lt_succ_of_lt hl))
      (fun l hl => by rw [hsame₁.height]; exact htar l (Nat.lt_succ_of_lt hl))
      (fun l hl => by rw [hsame₁.height]; exact hp l (Nat.lt_succ_of_lt hl))
    refine ⟨t, ?_, hsame₁.trans hsame, ?_⟩
    · rw [List.range_succ, List.reverse_append, List.reverse_singleton, List.singleton_append,
        List.foldlM_cons, hs₁]
      exact ht
    · intro l a
      rw [hnext, hsame₁.height]
      by_cases hl : l = k
      · subst hl
        rw [if_neg fun hc => Nat.lt_irrefl l hc.1, hnext₁]
        by_cases hc : l < s.height q ∧ a = prev l
        · rw [if_pos ⟨rfl, hc⟩, if_pos ⟨Nat.lt_succ_self l, hc⟩]
        · rw [if_neg fun h => hc h.2, if_neg fun h => hc h.2]
      · have hold : ∀ b, s₁.next l b = s.next l b := by
          intro b
          rw [hnext₁, if_neg fun hc => hl hc.1]
        rw [hold, hold]
        by_cases hc : l < k ∧ l < s.height q ∧ a = prev l
        · rw [if_pos hc, if_pos ⟨Nat.lt_succ_of_lt hc.1, hc.2⟩]
        · rw [if_neg hc, if_neg fun h => hc ⟨by omega, h.2⟩]

/-- The shape depends on the heights and pointers of the nodes, and on the order of their
keys. -/
theorem Shape.of_agree {s t : SkipList} {ns : List Nat} (h : s.Shape ns) (hhead : t.head = s.head)
    (hfresh : t.fresh = s.fresh) (hsome : ∀ a ∈ s.head :: ns, (t.heap a).isSome)
    (hheight : ∀ a ∈ s.head :: ns, t.height a = s.height a)
    (hnext : ∀ l, ∀ a ∈ s.head :: ns, t.next l a = s.next l a)
    (hsorted : SortedKeys (ns.map t.pair)) : t.Shape ns := by
  refine ⟨hhead ▸ h.nodup, ?_, hsorted, ?_, ?_, ?_⟩
  · intro a ha
    rw [hhead] at ha
    rw [hfresh]
    exact ⟨(h.alloc a ha).1, hsome a ha⟩
  · intro a ha
    rw [hhead] at ha
    rw [hheight a ha]
    exact h.height_pos a ha
  · intro a ha
    rw [hhead, hheight _ List.mem_cons_self, hheight a (List.mem_cons_of_mem _ ha)]
    exact h.height_le a ha
  · intro level hl
    rw [hhead, hheight _ List.mem_cons_self] at hl
    have hfilter : ns.filter (t.tall level) = ns.filter (s.tall level) := by
      refine List.filter_congr ?_
      intro a ha
      rw [tall, hheight a (List.mem_cons_of_mem _ ha), tall]
    rw [hhead, hfilter]
    refine (h.links level hl).congr ?_
    intro a ha
    exact hnext level a ((List.filter_sublist.cons_cons s.head).subset ha)

/-! ### The levels of the head -/

/-- The head gets other pointers. -/
def withHead (s : SkipList) (nexts : List (Option Nat)) : SkipList :=
  { s with heap := Function.update s.heap s.head (some { s.node s.head with nexts := nexts }) }

theorem withHead_next (s : SkipList) (nexts : List (Option Nat)) (l a : Nat) :
    (s.withHead nexts).next l a = if a = s.head then nexts[l]? else s.next l a := by
  rw [next_eq, withHead, node_update rfl, next_eq]
  split <;> rfl

theorem withHead_height (s : SkipList) (nexts : List (Option Nat)) (a : Nat) :
    (s.withHead nexts).height a = if a = s.head then nexts.length else s.height a := by
  rw [height, withHead, node_update rfl, height]
  split <;> rfl

theorem withHead_pair (s : SkipList) (nexts : List (Option Nat)) :
    (s.withHead nexts).pair = s.pair := by
  funext a
  rw [pair, withHead, node_update rfl, pair]
  split
  · rename_i ha
    rw [ha]
  · rfl

theorem Shape.ne_head {s : SkipList} {ns : List Nat} (h : s.Shape ns) {a : Nat} (ha : a ∈ ns) :
    a ≠ s.head := by
  rintro rfl
  exact (List.nodup_cons.mp h.nodup).1 ha

/-- **Levels without nodes come and go.** -/
theorem Shape.withHead {s : SkipList} {ns : List Nat} (h : s.Shape ns)
    {nexts : List (Option Nat)} (hpos : 0 < nexts.length)
    (hle : ∀ a ∈ ns, s.height a ≤ nexts.length)
    (hn : ∀ l < nexts.length,
      nexts[l]? = if l < s.height s.head then s.next l s.head else some none) :
    (s.withHead nexts).Shape ns := by
  have hheight : ∀ a ∈ ns, (s.withHead nexts).height a = s.height a := by
    intro a ha
    rw [withHead_height, if_neg (h.ne_head ha)]
  have hhead : (s.withHead nexts).height s.head = nexts.length := by
    rw [withHead_height, if_pos rfl]
  refine ⟨h.nodup, ?_, ?_, ?_, ?_, ?_⟩
  · intro a ha
    refine ⟨(h.alloc a ha).1, ?_⟩
    rw [SkipList.withHead, isSome_update rfl, (h.alloc a ha).2, Bool.or_true]
  · rw [withHead_pair]
    exact h.sorted
  · intro a ha
    rcases List.mem_cons.mp ha with rfl | ha
    · exact hhead ▸ hpos
    · rw [hheight a ha]
      exact h.height_pos a (List.mem_cons_of_mem _ ha)
  · intro a ha
    rw [hheight a ha]
    exact hhead ▸ hle a ha
  · intro level hl
    have hl : level < nexts.length := hhead ▸ hl
    have hfilter : ns.filter ((s.withHead nexts).tall level) = ns.filter (s.tall level) := by
      refine List.filter_congr ?_
      intro a ha
      rw [tall, hheight a ha, tall]
    rw [hfilter]
    by_cases hlt : level < s.height s.head
    · refine (h.links level hlt).congr ?_
      intro a ha
      rw [withHead_next]
      split
      · rename_i heq
        rw [hn level hl, if_pos hlt, heq]
      · rfl
    · have hnil : ns.filter (s.tall level) = [] := by
        rw [List.filter_eq_nil_iff]
        intro a ha
        have := h.height_le a ha
        simp only [tall, decide_eq_true_eq]
        omega
      rw [hnil]
      show (s.withHead nexts).next level s.head = some none
      rw [withHead_next, if_pos rfl, hn level hl, if_neg hlt]

/-! ### A new node -/

theorem Split.pred_mem {s : SkipList} {key : Bytes} {ns lo hi : List Nat} {mid : Option Nat}
    (hs : Split s key ns lo mid hi) (level : Nat) : s.pred lo level ∈ s.head :: ns := by
  rcases List.mem_cons.mp (List.getLastD_mem_cons : s.pred lo level ∈ s.head :: _) with h | h
  · rw [pred, h]
    exact List.mem_cons_self
  · rw [hs.eq]
    exact List.mem_cons_of_mem _ (List.mem_append_left _ (List.mem_of_mem_filter h))

theorem lt_height_pred {s : SkipList} {lo : List Nat} {level : Nat}
    (hl : level < s.height s.head) : level < s.height (s.pred lo level) := by
  rcases List.mem_cons.mp (List.getLastD_mem_cons : s.pred lo level ∈ s.head :: _) with h | h
  · rw [pred, h]
    exact hl
  · exact of_decide_eq_true (List.mem_filter.mp h).2

/-- `t` is `s` with a new node that is not linked yet. -/
structure Added (s t : SkipList) (n : Nat) (key value : Bytes) : Prop where
  head : t.head = s.head
  fresh : t.fresh = s.fresh + 1
  node : ∀ a, t.node a = if a = s.fresh then ⟨List.replicate n none, key, value⟩ else s.node a
  isSome : ∀ a, (t.heap a).isSome = (decide (a = s.fresh) || (s.heap a).isSome)

/-- `t` is `s` with a new node that is linked behind `lo`. -/
structure Inserted (s t : SkipList) (lo : List Nat) (n : Nat) (key value : Bytes) : Prop where
  head : t.head = s.head
  fresh : t.fresh = s.fresh + 1
  isSome : ∀ a, (t.heap a).isSome = (decide (a = s.fresh) || (s.heap a).isSome)
  pair : ∀ a, t.pair a = if a = s.fresh then (key, value) else s.pair a
  height : ∀ a, t.height a = if a = s.fresh then n else s.height a
  next_new : ∀ l < n, t.next l s.fresh = s.next l (s.pred lo l)
  next_pred : ∀ l < n, t.next l (s.pred lo l) = some (some s.fresh)
  next_old : ∀ l a, a ≠ s.fresh → (l < n → a ≠ s.pred lo l) → t.next l a = s.next l a

theorem Added.exists_inserted {s t₁ : SkipList} {lo prevNodes : List Nat} {n : Nat}
    {key value : Bytes} (h : Added s t₁ n key value) (hle : n ≤ s.height s.head)
    (hpred : ∀ l, s.pred lo l ≠ s.fresh) (hprev : ∀ l < n, prevNodes[l]? = some (s.pred lo l)) :
    ∃ t, (List.range n).foldlM (link s.fresh prevNodes) t₁ = some t ∧ SameNodes t₁ t ∧
      Inserted s t lo n key value := by
  have hheight : ∀ a, t₁.height a = if a = s.fresh then n else s.height a := by
    intro a
    rw [SkipList.height, h.node, SkipList.height]
    split
    · exact List.length_replicate
    · rfl
  have hold : ∀ l a, a ≠ s.fresh → t₁.next l a = s.next l a := by
    intro l a ha
    rw [next_eq, h.node, if_neg ha, next_eq]
  obtain ⟨t, ht, hsame, hnext⟩ := @foldlM_link t₁ s.fresh n _ (s.pred lo)
    hprev (by rw [hheight, if_pos rfl])
    (fun l hl => ⟨by rw [hheight, if_neg (hpred l)]; exact lt_height_pred (by omega), hpred l⟩)
    n (Nat.le_refl n)
  refine ⟨t, ht, hsame, hsame.head.trans h.head, hsame.fresh.trans h.fresh,
    fun a => (hsame.isSome a).trans (h.isSome a), ?_, fun a => (hsame.height a).trans (hheight a),
    ?_, ?_, ?_⟩
  · intro a
    rw [hsame.pair, SkipList.pair, h.node, SkipList.pair]
    split <;> rfl
  · intro l hl
    rw [hnext, if_pos hl, if_pos rfl, hold _ _ (hpred l)]
  · intro l hl
    rw [hnext, if_pos hl, if_neg (hpred l), if_pos rfl]
  · intro l a ha hp
    rw [hnext]
    by_cases hl : l < n
    · rw [if_pos hl, if_neg ha, if_neg (hp hl), hold l a ha]
    · rw [if_neg hl, hold l a ha]

section Insert

variable {s t : SkipList} {key value : Bytes} {ns lo hi : List Nat} {n : Nat}

theorem Shape.ne_fresh (h : s.Shape ns) {a : Nat} (ha : a ∈ s.head :: ns) : a ≠ s.fresh :=
  Nat.ne_of_lt (h.alloc a ha).1

theorem Split.mem_insert {new a : Nat} (hs : Split s key ns lo none hi)
    (ha : a ∈ lo ++ new :: hi) : a = new ∨ a ∈ ns := by
  rw [hs.eq]
  rcases List.mem_append.mp ha with ha | ha
  · exact Or.inr (List.mem_append_left _ ha)
  · exact (List.mem_cons.mp ha).imp_right (List.mem_append_right _)

theorem Inserted.map_pair (hi' : Inserted s t lo n key value) (h : s.Shape ns)
    (hs : Split s key ns lo none hi) :
    (lo ++ s.fresh :: hi).map t.pair = Lib.put key value (ns.map s.pair) := by
  have hns : ns = lo ++ hi := hs.eq
  have hold : ∀ l : List Nat, l ⊆ ns → l.map t.pair = l.map s.pair := by
    intro l hl
    refine List.map_congr_left ?_
    intro a ha
    rw [hi'.pair, if_neg (h.ne_fresh (List.mem_cons_of_mem _ (hl ha)))]
  rw [List.map_append, List.map_cons, hold lo (by rw [hns]; exact List.subset_append_left _ _),
    hold hi (by rw [hns]; exact List.subset_append_right _ _), hi'.pair, if_pos rfl, hns,
    List.map_append, put_append, put_of_lt]
  · intro b hb
    obtain ⟨a, ha, rfl⟩ := List.mem_map.mp hb
    exact hs.gt a ha
  · intro b hb
    obtain ⟨a, ha, rfl⟩ := List.mem_map.mp hb
    exact hs.lt a ha

/-- Each level of the new node has it between its neighbours; the others stay. -/
theorem Inserted.links (hi' : Inserted s t lo n key value) (h : s.Shape ns)
    (hs : Split s key ns lo none hi) {level : Nat} (hl : level < s.height s.head) :
    Links (t.next level) s.head ((lo ++ s.fresh :: hi).filter (t.tall level)) := by
  have hns : ns = lo ++ hi := hs.eq
  have hlinks := h.links level hl
  rw [hns, List.filter_append] at hlinks
  have hfilter : ∀ l : List Nat, l ⊆ ns → l.filter (t.tall level) = l.filter (s.tall level) := by
    intro l hl
    refine List.filter_congr ?_
    intro a ha
    rw [tall, hi'.height, if_neg (h.ne_fresh (List.mem_cons_of_mem _ (hl ha))), tall]
  have hsub : (lo.filter (s.tall level) ++ hi.filter (s.tall level)).Sublist ns := by
    rw [hns, ← List.filter_append]
    exact List.filter_sublist
  have hsub' := hsub.cons_cons s.head
  rw [List.filter_append, List.filter_cons,
    hfilter lo (by rw [hns]; exact List.subset_append_left _ _),
    hfilter hi (by rw [hns]; exact List.subset_append_right _ _), tall, hi'.height, if_pos rfl]
  by_cases hlt : level < n
  · rw [if_pos (decide_eq_true hlt)]
    refine hlinks.insert (hsub'.nodup h.nodup) (hi'.next_pred level hlt)
      (hi'.next_new level hlt) ?_
    intro a ha hlast
    exact hi'.next_old level a (h.ne_fresh (hsub'.subset ha)) fun _ => hlast
  · rw [if_neg (by simpa using hlt)]
    refine hlinks.congr ?_
    intro a ha
    exact hi'.next_old level a (h.ne_fresh (hsub'.subset ha)) fun hc => absurd hc hlt

/-- **A new node is put between its neighbours.** -/
theorem Inserted.shape (hi' : Inserted s t lo n key value) (h : s.Shape ns)
    (hs : Split s key ns lo none hi) (hn : 0 < n) (hle : n ≤ s.height s.head) :
    t.Shape (lo ++ s.fresh :: hi) := by
  have hheadH : t.height t.head = s.height s.head := by
    rw [hi'.head, hi'.height, if_neg (h.ne_fresh List.mem_cons_self)]
  have hmem : ∀ a ∈ t.head :: (lo ++ s.fresh :: hi), a = s.fresh ∨ a ∈ s.head :: ns := by
    intro a ha
    rw [hi'.head] at ha
    rcases List.mem_cons.mp ha with rfl | ha
    · exact Or.inr List.mem_cons_self
    · exact (hs.mem_insert ha).imp_right (List.mem_cons_of_mem _)
  refine ⟨?_, ?_, ?_, ?_, ?_, ?_⟩
  · have hperm : (s.head :: (lo ++ s.fresh :: hi)).Perm (s.fresh :: s.head :: ns) := by
      rw [hs.eq]
      exact (List.perm_middle.cons s.head).trans (List.Perm.swap _ _ _)
    rw [hi'.head, hperm.nodup_iff, List.nodup_cons]
    exact ⟨fun hc => h.ne_fresh hc rfl, h.nodup⟩
  · intro a ha
    rw [hi'.fresh, hi'.isSome]
    rcases hmem a ha with rfl | ha
    · rw [decide_eq_true rfl]
      exact ⟨Nat.lt_succ_self _, rfl⟩
    · obtain ⟨h1, h2⟩ := h.alloc a ha
      rw [h2, Bool.or_true]
      exact ⟨Nat.lt_succ_of_lt h1, rfl⟩
  · rw [hi'.map_pair h hs]
    exact h.sorted.put key value
  · intro a ha
    rw [hi'.height]
    split
    · exact hn
    · rename_i hnew
      exact h.height_pos a ((hmem a ha).resolve_left hnew)
  · intro a ha
    rw [hheadH, hi'.height]
    split
    · exact hle
    · rename_i hnew
      exact h.height_le a ((hs.mem_insert ha).resolve_left hnew)
  · intro level hl
    rw [hheadH] at hl
    rw [hi'.head]
    exact hi'.links h hs hl

end Insert

end SkipList

end Mokv.LSM
