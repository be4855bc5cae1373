import Mathlib.Data.List.Basic
import Mokv.Lib.MapM
import Mokv.Lib.Ring
import Mokv.Lib.Run

/-!
# The intrusive list

`list::List` (`mokv/cache/list.hpp`): nodes with a link to either side, in a ring through the
node `dummy_`, and a size that some operations keep by hand.

`Linked l seq`: the links of `l` are a ring through the nodes of `seq`.  Every operation but
`Insert` carries it to the sequence the operation stands for; `Insert` leaves the link back
to its new node out, and does not count it.
-/

namespace Mokv.Cache

open Lib Function

/-- `list::List`.  A node is named by its address: `dummy_` is `0` and `fresh` is the next one.
A node that was deleted has no value. -/
structure NodeList (V : Type) where
  nxt : Nat → Nat
  pre : Nat → Nat
  value : Nat → Option V
  promotions : Nat → Nat
  fresh : Nat
  size : Nat

namespace NodeList

variable {V : Type}

/-- `List()`. -/
def empty (V : Type) : NodeList V := ⟨fun _ => 0, fun _ => 0, fun _ => none, fun _ => 0, 1, 0⟩

/-- `p->nxt = q`. -/
def setNxt (l : NodeList V) (p q : Nat) : NodeList V := { l with nxt := update l.nxt p q }

/-- `p->pre = q`. -/
def setPre (l : NodeList V) (p q : Nat) : NodeList V := { l with pre := update l.pre p q }

/-- `p->promotions`. -/
def setPromotions (l : NodeList V) (p n : Nat) : NodeList V :=
  { l with promotions := update l.promotions p n }

/-- `new Node<T>(value)`, at the address `fresh`. -/
def alloc (l : NodeList V) (value : V) : NodeList V :=
  { l with
    value := update l.value l.fresh (some value)
    promotions := update l.promotions l.fresh 0
    fresh := l.fresh + 1 }

/-- `delete`. -/
def delete (l : NodeList V) (node : Nat) : NodeList V :=
  { l with value := update l.value node none }

/-- `PushFront`.  The new node is at the address that was `fresh`. -/
def pushFront (l : NodeList V) (value : V) : NodeList V :=
  let node := l.fresh
  let l := l.alloc value
  let l := l.setNxt node (l.nxt 0)
  let l := l.setPre node 0
  let l := l.setPre (l.nxt 0) node
  let l := l.setNxt 0 node
  { l with size := l.size + 1 }

/-- `PushBack`. -/
def pushBack (l : NodeList V) (value : V) : NodeList V :=
  let node := l.fresh
  let l := l.alloc value
  let l := l.setPre node (l.pre 0)
  let l := l.setNxt node 0
  let l := l.setNxt (l.pre 0) node
  let l := l.setPre 0 node
  { l with size := l.size + 1 }

/-- `Extract`. -/
def extract (l : NodeList V) (node : Nat) : NodeList V :=
  let l := l.setNxt (l.pre node) (l.nxt node)
  l.setPre (l.nxt node) (l.pre node)

/-- `PopFront`, and the node that the caller owns now. -/
def popFront (l : NodeList V) : NodeList V × Option Nat :=
  if l.size = 0 then (l, none)
  else
    let l := { l with size := l.size - 1 }
    (l.extract (l.nxt 0), some (l.nxt 0))

/-- `PopBack`, and the node that the caller owns now. -/
def popBack (l : NodeList V) : NodeList V × Option Nat :=
  if l.size = 0 then (l, none)
  else
    let l := { l with size := l.size - 1 }
    (l.extract (l.pre 0), some (l.pre 0))

/-- `InsertFront`. -/
def insertFront (l : NodeList V) (node : Nat) : NodeList V :=
  let l := l.setNxt node (l.nxt 0)
  let l := l.setPre node 0
  let l := l.setPre (l.nxt 0) node
  l.setNxt 0 node

/-- `Insert`.  Neither the node behind the new one nor the size is changed. -/
def insert (l : NodeList V) (node : Nat) (value : V) : NodeList V :=
  let newNode := l.fresh
  let l := l.alloc value
  let l := l.setNxt newNode (l.nxt node)
  let l := l.setPre newNode node
  l.setNxt node newNode

/-- The values from `begin()` on, if a walk of `fuel` steps gets to `end()`. -/
def forward (l : NodeList V) (fuel : Nat) : Option (List V) :=
  (follow (toward l.nxt 0) fuel 0).bind fun nodes => nodes.mapM l.value

/-- The values from `end()` backwards. -/
def backward (l : NodeList V) (fuel : Nat) : Option (List V) :=
  (follow (toward l.pre 0) fuel 0).bind fun nodes => nodes.mapM l.value

/-- The links of `l` are a ring through the nodes of `seq`. -/
structure Linked (l : NodeList V) (seq : List (Nat × V)) : Prop where
  ring : Ring l.nxt l.pre 0 (seq.map Prod.fst)
  values : ∀ n ∈ seq, l.value n.1 = some n.2
  below : ∀ p ∈ 0 :: seq.map Prod.fst, p < l.fresh

variable {l : NodeList V} {seq s₁ s₂ : List (Nat × V)} {p : Nat} {v : V}

theorem alloc_value_self (l : NodeList V) (v : V) : (l.alloc v).value l.fresh = some v :=
  update_self _ _ _

theorem linked_empty : (empty V).Linked [] where
  ring := Ring.nil rfl rfl
  values := by simp
  below := by simp [empty]

theorem mapM_values (h : ∀ n ∈ seq, l.value n.1 = some n.2) :
    (seq.map Prod.fst).mapM l.value = some (seq.map Prod.snd) := by
  rw [List.mapM_map]
  exact mapM_eq_some h

/-- **Both traversals read the sequence.** -/
theorem Linked.forward_eq (h : l.Linked seq) {fuel : Nat} (hf : seq.length < fuel) :
    l.forward fuel = some (seq.map Prod.snd) := by
  have hfuel : (seq.map Prod.fst).length < fuel := by rwa [List.length_map]
  rw [forward, (h.ring.follow_eq hfuel).1, Option.bind_some, mapM_values h.values]

theorem Linked.backward_eq (h : l.Linked seq) {fuel : Nat} (hf : seq.length < fuel) :
    l.backward fuel = some (seq.map Prod.snd).reverse := by
  have hfuel : (seq.map Prod.fst).length < fuel := by rwa [List.length_map]
  rw [backward, (h.ring.follow_eq hfuel).2, Option.bind_some, ← List.map_reverse,
    mapM_values fun n hn => h.values n (List.mem_reverse.mp hn), List.map_reverse]

theorem Linked.fresh_notMem (h : l.Linked seq) : l.fresh ∉ 0 :: seq.map Prod.fst :=
  fun hmem => Nat.lt_irrefl _ (h.below _ hmem)

theorem Linked.congr {l' : NodeList V} (h : l.Linked seq) (hnxt : l'.nxt = l.nxt)
    (hpre : l'.pre = l.pre) (hvalue : ∀ n ∈ seq, l'.value n.1 = l.value n.1)
    (hfresh : l.fresh ≤ l'.fresh) : l'.Linked seq where
  ring := by
    rw [hnxt, hpre]
    exact h.ring
  values n hn := (hvalue n hn).trans (h.values n hn)
  below p hp := Nat.lt_of_lt_of_le (h.below p hp) hfresh

theorem Linked.alloc (h : l.Linked seq) (v : V) : (l.alloc v).Linked seq := by
  refine h.congr rfl rfl ?_ (Nat.le_succ _)
  intro n hn
  refine update_of_ne ?_ _ _
  rintro heq
  exact h.fresh_notMem (heq ▸ List.mem_cons_of_mem _ (List.mem_map_of_mem hn))

theorem Linked.delete (h : l.Linked seq) (hp : p ∉ seq.map Prod.fst) :
    (l.delete p).Linked seq := by
  refine h.congr rfl rfl ?_ (Nat.le_refl _)
  intro n hn
  refine update_of_ne ?_ _ _
  rintro rfl
  exact hp (List.mem_map_of_mem hn)

theorem Linked.setPromotions (h : l.Linked seq) (p n : Nat) : (l.setPromotions p n).Linked seq :=
  h.congr rfl rfl (fun _ _ => rfl) (Nat.le_refl _)

theorem Linked.link {l' : NodeList V} (h : l.Linked (s₁ ++ s₂))
    (hring : Ring l'.nxt l'.pre 0 (s₁.map Prod.fst ++ p :: s₂.map Prod.fst))
    (hvalue : l'.value = l.value) (hfresh : l'.fresh = l.fresh) (hp : p < l.fresh)
    (hv : l.value p = some v) : l'.Linked (s₁ ++ (p, v) :: s₂) where
  ring := by
    rw [List.map_append, List.map_cons]
    exact hring
  values n hn := by
    rw [hvalue]
    rcases List.mem_append.mp hn with hn | hn
    · exact h.values n (List.mem_append_left _ hn)
    · rcases List.mem_cons.mp hn with rfl | hn
      · exact hv
      · exact h.values n (List.mem_append_right _ hn)
  below q hq := by
    rw [hfresh]
    rw [List.map_append, List.map_cons] at hq
    have hbelow := h.below q
    rw [List.map_append] at hbelow
    simp only [List.mem_cons, List.mem_append] at hq hbelow
    rcases hq with hq | hq | rfl | hq
    · exact hbelow (.inl hq)
    · exact hbelow (.inr (.inl hq))
    · exact hp
    · exact hbelow (.inr (.inr hq))

/-- **`InsertFront` of a node that is not in the list.** -/
theorem Linked.insertFront (h : l.Linked seq) (hp : p ∉ 0 :: seq.map Prod.fst)
    (hlt : p < l.fresh) (hv : l.value p = some v) :
    (l.insertFront p).Linked ((p, v) :: seq) := by
  have hp0 : p ≠ 0 := fun heq => hp (heq ▸ List.mem_cons_self)
  have hhead : l.nxt 0 = (seq.map Prod.fst).headD 0 := h.ring.first_eq
  have hheadp : (seq.map Prod.fst).headD 0 ≠ p := by
    intro heq
    refine hp ?_
    rw [← heq]
    cases seq with
    | nil => exact List.mem_cons_self
    | cons n seq => exact List.mem_cons_of_mem _ List.mem_cons_self
  have hnxt : (l.insertFront p).nxt = update (update l.nxt p (l.nxt 0)) 0 p := rfl
  have hpre : (l.insertFront p).pre =
      update (update l.pre p 0) ((seq.map Prod.fst).headD 0) p := by
    rw [← hhead]
    show update (update l.pre p 0) (update l.nxt p (l.nxt 0) 0) p = _
    rw [update_of_ne hp0.symm]
  have hfront : l.Linked ([] ++ seq) := h
  have hring : Ring l.nxt l.pre 0 ([] ++ seq.map Prod.fst) := h.ring
  refine hfront.link ?_ rfl rfl hlt hv
  refine hring.insert hp ?_ ?_ ?_ ?_ ?_ ?_
  · rw [hnxt]
    exact update_self _ _ _
  · rw [hnxt, update_of_ne hp0, update_self, hhead]
  · rw [hpre, update_self]
  · rw [hpre, update_of_ne hheadp.symm, update_self]
    rfl
  · intro a ha hne
    have hap : a ≠ p := fun heq => hp (heq ▸ ha)
    rw [hnxt, update_of_ne (show a ≠ 0 from hne), update_of_ne hap]
  · intro a ha hne
    have hap : a ≠ p := fun heq => hp (heq ▸ ha)
    rw [hpre, update_of_ne hne, update_of_ne hap]

theorem Linked.pushFront (h : l.Linked seq) (v : V) :
    (l.pushFront v).Linked ((l.fresh, v) :: seq) := by
  have halloc := (h.alloc v).insertFront h.fresh_notMem (Nat.lt_succ_self _)
    (l.alloc_value_self v)
  exact halloc.congr rfl rfl (fun _ _ => rfl) (Nat.le_refl _)

theorem Linked.pushBack (h : l.Linked seq) (v : V) :
    (l.pushBack v).Linked (seq ++ [(l.fresh, v)]) := by
  have hp := h.fresh_notMem
  have hp0 : l.fresh ≠ 0 := fun heq => hp (heq ▸ List.mem_cons_self)
  have hlast : l.pre 0 = (seq.map Prod.fst).getLastD 0 := h.ring.last_eq
  have hlastp : (seq.map Prod.fst).getLastD 0 ≠ l.fresh := by
    intro heq
    exact hp (heq ▸ List.getLastD_mem_cons)
  have hpre : (l.pushBack v).pre = update (update l.pre l.fresh (l.pre 0)) 0 l.fresh := rfl
  have hnxt : (l.pushBack v).nxt =
      update (update l.nxt l.fresh 0) ((seq.map Prod.fst).getLastD 0) l.fresh := by
    rw [← hlast]
    show update (update l.nxt l.fresh 0) (update l.pre l.fresh (l.pre 0) 0) l.fresh = _
    rw [update_of_ne hp0.symm]
  have happ : (l.alloc v).Linked (seq ++ []) := by
    rw [List.append_nil]
    exact h.alloc v
  have hring : Ring l.nxt l.pre 0 (seq.map Prod.fst ++ []) := by
    rw [List.append_nil]
    exact h.ring
  have hmem : ∀ a, a ∈ 0 :: (seq.map Prod.fst ++ []) → a ≠ l.fresh := by
    rintro a ha rfl
    rw [List.append_nil] at ha
    exact hp ha
  refine happ.link ?_ rfl rfl (Nat.lt_succ_self _) (l.alloc_value_self v)
  refine hring.insert (fun ha => hmem _ ha rfl) ?_ ?_ ?_ ?_ ?_ ?_
  · rw [hnxt, update_self]
  · rw [hnxt, update_of_ne hlastp.symm, update_self]
    rfl
  · rw [hpre]
    exact update_self _ _ _
  · rw [hpre, update_of_ne hp0, update_self, hlast]
  · intro a ha hne
    rw [hnxt, update_of_ne hne, update_of_ne (hmem a ha)]
  · intro a ha hne
    rw [hpre, update_of_ne (show a ≠ 0 from hne), update_of_ne (hmem a ha)]

/-- **`Extract` of a node of the list.** -/
theorem Linked.extract (h : l.Linked (s₁ ++ (p, v) :: s₂)) : (l.extract p).Linked (s₁ ++ s₂) := by
  have hring := h.ring
  rw [List.map_append, List.map_cons] at hring
  have hsplit : Ring l.nxt l.pre 0 ((s₁.map Prod.fst ++ [p]) ++ s₂.map Prod.fst) := by
    rw [List.append_assoc, List.singleton_append]
    exact hring
  have hnxtp : l.nxt p = (s₂.map Prod.fst).headD 0 := by
    have hlink := hsplit.nxt_eq
    rwa [List.getLastD_concat] at hlink
  have hprep : l.pre p = (s₁.map Prod.fst).getLastD 0 := hring.pre_eq
  have hnxt : (l.extract p).nxt =
      update l.nxt ((s₁.map Prod.fst).getLastD 0) ((s₂.map Prod.fst).headD 0) := by
    rw [← hprep, ← hnxtp]
    rfl
  have hpre : (l.extract p).pre =
      update l.pre ((s₂.map Prod.fst).headD 0) ((s₁.map Prod.fst).getLastD 0) := by
    rw [← hprep, ← hnxtp]
    show update l.pre (update l.nxt (l.pre p) (l.nxt p) p) (l.pre p) = _
    by_cases hself : p = l.pre p
    · rw [← hself, update_self]
    · rw [update_of_ne hself]
  have hsub : ∀ n ∈ s₁ ++ s₂, n ∈ s₁ ++ (p, v) :: s₂ := by
    intro n hn
    rcases List.mem_append.mp hn with hn | hn
    · exact List.mem_append_left _ hn
    · exact List.mem_append_right _ (List.mem_cons_of_mem _ hn)
  refine ⟨?_, fun n hn => h.values n (hsub n hn), ?_⟩
  · rw [List.map_append]
    refine hring.remove ?_ ?_ ?_ ?_
    · rw [hnxt, update_self]
    · rw [hpre, update_self]
    · intro a _ hne
      rw [hnxt, update_of_ne hne]
    · intro a _ hne
      rw [hpre, update_of_ne hne]
  · intro q hq
    refine h.below q ?_
    rcases List.mem_cons.mp hq with rfl | hq
    · exact List.mem_cons_self
    · obtain ⟨n, hn, rfl⟩ := List.mem_map.mp hq
      exact List.mem_cons_of_mem _ (List.mem_map_of_mem (hsub n hn))

/-- The operations.  `moveToFront` is `Extract` and `InsertFront` of one node. -/
inductive Op (V : Type) where
  | pushFront (value : V)
  | pushBack (value : V)
  | popFront
  | popBack
  | insert (node : Nat) (value : V)
  | moveToFront (node : Nat)
deriving DecidableEq

/-- The operation is `Insert`. -/
def Op.isInsert : Op V → Bool
  | .insert _ _ => true
  | _ => false

/-- The caller drops the node that a pop gave it. -/
def dropNode : NodeList V × Option Nat → NodeList V
  | (l, none) => l
  | (l, some node) => l.delete node

/-- What an operation does to the list. -/
def apply (l : NodeList V) : Op V → NodeList V
  | .pushFront value => l.pushFront value
  | .pushBack value => l.pushBack value
  | .popFront => dropNode l.popFront
  | .popBack => dropNode l.popBack
  | .insert node value => l.insert node value
  | .moveToFront node => (l.extract node).insertFront node

/-- A sequence of nodes, with the number of the next one. -/
structure Sequence (V : Type) where
  items : List (Nat × V)
  next : Nat

/-- Put an item behind a node. -/
def insertAfter (node : Nat) (item : Nat × V) : List (Nat × V) → List (Nat × V)
  | [] => []
  | n :: items => if n.1 = node then n :: item :: items else n :: insertAfter node item items

/-- The sequence that the operations define.  `Insert` and `Extract` are given a member. -/
def Sequence.apply (s : Sequence V) : Op V → Option (Sequence V)
  | .pushFront value => some ⟨(s.next, value) :: s.items, s.next + 1⟩
  | .pushBack value => some ⟨s.items ++ [(s.next, value)], s.next + 1⟩
  | .popFront => some ⟨s.items.tail, s.next⟩
  | .popBack => some ⟨s.items.dropLast, s.next⟩
  | .insert node value =>
    if node ∈ s.items.map Prod.fst then
      some ⟨insertAfter node (s.next, value) s.items, s.next + 1⟩
    else none
  | .moveToFront node =>
    (s.items.find? fun n => n.1 = node).map fun n =>
      ⟨n :: s.items.eraseP fun n => n.1 = node, s.next⟩

/-- The list and the sequence side by side. -/
def step (x : NodeList V × Sequence V) (op : Op V) : Option (NodeList V × Sequence V) :=
  (x.2.apply op).map fun s => (x.1.apply op, s)

/-- `List()` and the empty sequence. -/
def start (V : Type) : NodeList V × Sequence V := (empty V, ⟨[], 1⟩)

/-- Both traversals and the size are those of the sequence. -/
def Agrees (l : NodeList V) (s : Sequence V) : Prop :=
  (∃ fuel, l.forward fuel = some (s.items.map Prod.snd)) ∧
    (∃ fuel, l.backward fuel = some (s.items.map Prod.snd).reverse) ∧
      l.size = s.items.length

/-- The list holds the sequence. -/
structure Holds (l : NodeList V) (s : Sequence V) : Prop where
  linked : l.Linked s.items
  fresh : l.fresh = s.next
  size : l.size = s.items.length

theorem Holds.agrees {s : Sequence V} (h : l.Holds s) : l.Agrees s :=
  ⟨⟨_, h.linked.forward_eq (Nat.lt_succ_self _)⟩, ⟨_, h.linked.backward_eq (Nat.lt_succ_self _)⟩,
    h.size⟩

/-- **`PopFront`** of a list that is not empty takes its first node. -/
theorem Linked.popFront (h : l.Linked ((p, v) :: seq)) (hsize : l.size = seq.length + 1) :
    ∃ l', l.popFront = (l', some p) ∧ l'.Linked seq ∧ l'.size = seq.length ∧
      l'.fresh = l.fresh ∧ l'.value = l.value ∧ l'.promotions = l.promotions := by
  have hp : l.nxt 0 = p := h.ring.first_eq
  have hne : l.size ≠ 0 := by omega
  refine ⟨({ l with size := l.size - 1 } : NodeList V).extract p, ?_, ?_, ?_, rfl, rfl, rfl⟩
  · rw [NodeList.popFront, if_neg hne, ← hp]
  · have hsame : ({ l with size := l.size - 1 } : NodeList V).Linked ([] ++ (p, v) :: seq) :=
      h.congr rfl rfl (fun _ _ => rfl) (Nat.le_refl _)
    exact hsame.extract
  · show l.size - 1 = _
    omega

/-- **`PopBack`** of a list that is not empty takes its last node. -/
theorem Linked.popBack (h : l.Linked (seq ++ [(p, v)])) (hsize : l.size = seq.length + 1) :
    ∃ l', l.popBack = (l', some p) ∧ l'.Linked seq ∧ l'.size = seq.length ∧
      l'.fresh = l.fresh ∧ l'.value = l.value ∧ l'.promotions = l.promotions := by
  have hp : l.pre 0 = p := by
    rw [h.ring.last_eq, List.map_append]
    exact List.getLastD_concat ..
  have hne : l.size ≠ 0 := by omega
  refine ⟨({ l with size := l.size - 1 } : NodeList V).extract p, ?_, ?_, ?_, rfl, rfl, rfl⟩
  · rw [NodeList.popBack, if_neg hne, ← hp]
  · have hsame : ({ l with size := l.size - 1 } : NodeList V).Linked (seq ++ (p, v) :: []) :=
      h.congr rfl rfl (fun _ _ => rfl) (Nat.le_refl _)
    have hextract := hsame.extract
    rwa [List.append_nil] at hextract
  · show l.size - 1 = _
    omega

theorem exists_split_of_find? {items : List (Nat × V)} {node : Nat} {n : Nat × V}
    (hf : (items.find? fun n => n.1 = node) = some n) :
    n.1 = node ∧ ∃ s₁ s₂, items = s₁ ++ n :: s₂ ∧
      (items.eraseP fun n => n.1 = node) = s₁ ++ s₂ := by
  have hn : n.1 = node := by simpa using List.find?_some hf
  obtain ⟨-, s₁, s₂, rfl, hs⟩ := List.find?_eq_some_iff_append.mp hf
  refine ⟨hn, s₁, s₂, rfl, ?_⟩
  have hs₁ : ∀ m ∈ s₁, ¬(decide (m.1 = node) = true) := fun m hm => by simpa using hs m hm
  rw [List.eraseP_append_right _ hs₁, List.eraseP_cons_of_pos (by simpa using hn)]

theorem length_insertAfter {node : Nat} {item : Nat × V} {items : List (Nat × V)}
    (h : node ∈ items.map Prod.fst) :
    (insertAfter node item items).length = items.length + 1 := by
  induction items with
  | nil => cases h
  | cons n items ih =>
    rw [insertAfter]
    split
    · rfl
    · rename_i hne
      rw [List.map_cons] at h
      have hrest := ih ((List.mem_cons.mp h).resolve_left fun heq => hne heq.symm)
      rw [List.length_cons, List.length_cons, hrest]

/-- **Extracting a node of the list and inserting it in front** keeps the list. -/
theorem Linked.moveToFront (h : l.Linked (s₁ ++ (p, v) :: s₂)) :
    ((l.extract p).insertFront p).Linked ((p, v) :: (s₁ ++ s₂)) := by
  have hmem : (p, v) ∈ s₁ ++ (p, v) :: s₂ := List.mem_append_right _ List.mem_cons_self
  have hnodup := h.ring.nodup
  rw [List.map_append, List.map_cons] at hnodup
  have hperm : (0 :: (s₁.map Prod.fst ++ p :: s₂.map Prod.fst)).Perm
      (p :: 0 :: (s₁ ++ s₂).map Prod.fst) := by
    rw [List.map_append]
    exact (List.perm_middle.cons 0).trans (List.Perm.swap _ _ _)
  have hp := (List.nodup_cons.mp (hperm.nodup_iff.mp hnodup)).1
  refine h.extract.insertFront hp ?_ (h.values _ hmem)
  exact h.below p (List.mem_cons_of_mem _ (List.mem_map_of_mem hmem))

/-- **Every operation but `Insert`** keeps the list and the sequence together. -/
theorem Holds.apply {s s' : Sequence V} {op : Op V} (h : l.Holds s) (hop : op.isInsert = false)
    (hs : s.apply op = some s') : (l.apply op).Holds s' := by
  obtain ⟨items, next⟩ := s
  obtain ⟨hlinked, rfl, hsize⟩ := h
  cases op with
  | pushFront value =>
    obtain rfl := Option.some.inj hs
    exact ⟨hlinked.pushFront value, rfl, congrArg (· + 1) hsize⟩
  | pushBack value =>
    obtain rfl := Option.some.inj hs
    refine ⟨hlinked.pushBack value, rfl, ?_⟩
    rw [List.length_append]
    exact congrArg (· + 1) hsize
  | popFront =>
    obtain rfl := Option.some.inj hs
    cases items with
    | nil =>
      have hpop : l.popFront = (l, none) := if_pos hsize
      rw [NodeList.apply, hpop]
      exact ⟨hlinked, rfl, hsize⟩
    | cons n items =>
      obtain ⟨l', hpop, hlinked', hsize', hfresh, -⟩ := hlinked.popFront hsize
      have hn : n.1 ∉ items.map Prod.fst := (List.nodup_cons.mp hlinked.ring.nodup_list).1
      rw [NodeList.apply, hpop]
      exact ⟨hlinked'.delete hn, hfresh, hsize'⟩
  | popBack =>
    obtain rfl := Option.some.inj hs
    rcases List.eq_nil_or_concat' items with rfl | ⟨rest, n, rfl⟩
    · have hpop : l.popBack = (l, none) := if_pos hsize
      rw [NodeList.apply, hpop]
      exact ⟨hlinked, rfl, hsize⟩
    · have hsize : l.size = rest.length + 1 := hsize.trans (by simp)
      obtain ⟨l', hpop, hlinked', hsize', hfresh, -⟩ := hlinked.popBack hsize
      have hnodup := hlinked.ring.nodup_list
      rw [List.map_append] at hnodup
      have hn : n.1 ∉ rest.map Prod.fst := fun hmem =>
        (List.nodup_append.mp hnodup).2.2 _ hmem _ List.mem_cons_self rfl
      rw [NodeList.apply, hpop]
      simp only [List.dropLast_concat]
      exact ⟨hlinked'.delete hn, hfresh, hsize'⟩
  | insert node value => cases hop
  | moveToFront node =>
    obtain ⟨n, hf, rfl⟩ := Option.map_eq_some_iff.mp hs
    obtain ⟨rfl, s₁, s₂, rfl, he⟩ := exists_split_of_find? hf
    refine ⟨?_, rfl, ?_⟩
    · simp only [he]
      exact hlinked.moveToFront
    · refine hsize.trans ?_
      simp only [he, List.length_append, List.length_cons]
      omega

/-- **`Insert` does not count its node.** -/
theorem Holds.not_agrees_insert {s s' : Sequence V} {node : Nat} {value : V} (h : l.Holds s)
    (hs : s.apply (.insert node value) = some s') : ¬(l.apply (.insert node value)).Agrees s' := by
  rintro ⟨-, -, hsize⟩
  rw [Sequence.apply] at hs
  split at hs
  · rename_i hmem
    obtain rfl := Option.some.inj hs
    have hlen : (insertAfter node (s.next, value) s.items).length = s.items.length + 1 :=
      length_insertAfter hmem
    have hkeep : (l.apply (.insert node value)).size = l.size := rfl
    rw [hkeep, h.size] at hsize
    simp only [hlen] at hsize
    omega
  · cases hs

/-- **Traversals and size are those of the sequence throughout a run exactly if the run makes no
call of `Insert`.** -/
theorem agrees_iff_no_insert (ops : List (Op V)) (h : ∃ x, run step (start V) ops = some x) :
    (∀ p x, p <+: ops → run step (start V) p = some x → x.1.Agrees x.2) ↔
      ∀ op ∈ ops, op.isInsert = false := by
  obtain ⟨u, hu⟩ := h
  have hstart : (empty V).Holds ⟨[], 1⟩ := ⟨linked_empty, rfl, rfl⟩
  rw [← stepsOk_or_stuck_iff hu]
  have hfree : StepsOk step (fun _ _ => True) (start V) ops := stepsOk_true _ _
  refine forall_prefix_iff_stepsOk
    (I := fun x : NodeList V × Sequence V => x.1.Agrees x.2 → x.1.Holds x.2)
    (fun _ => hstart) hstart.agrees ?_ (fun _ _ hnone => .inr hnone) hfree
  rintro x op y hI hA - hy
  have hx := hI hA
  have hns : ¬step x op = none := fun hnone => by rw [hy] at hnone; cases hnone
  rw [or_iff_left hns]
  obtain ⟨s', hs, rfl⟩ := Option.map_eq_some_iff.mp hy
  have hiff : (x.1.apply op).Agrees s' ↔ op.isInsert = false := by
    refine ⟨fun hag => ?_, fun hop => (hx.apply hop hs).agrees⟩
    cases op with
    | insert node value => exact absurd hag (hx.not_agrees_insert hs)
    | _ => rfl
  exact ⟨fun hag => hx.apply (hiff.mp hag) hs, hiff⟩

/-- A list that is pushed to at both ends, popped and relinked. -/
theorem agrees_iff_no_insert_pops :
    (∀ p x, p <+: [Op.pushBack 10, .pushFront 20, .moveToFront 1, .popBack] →
      run step (start Nat) p = some x → x.1.Agrees x.2) ↔
        ∀ op ∈ [Op.pushBack 10, .pushFront 20, .moveToFront 1, .popBack], op.isInsert = false :=
  agrees_iff_no_insert _ ⟨_, rfl⟩

/-- After `PushBack(10)` and `Insert` behind its node the list has size 1, and the walk from
`end()` backwards misses the new node. -/
theorem insert_loses_back_link :
    ∃ x, run step (start Nat) [.pushBack 10, .insert 1 20] = some x ∧
      x.2.items.map Prod.snd = [10, 20] ∧ x.1.forward 3 = some [10, 20] ∧
        x.1.backward 3 = some [10] ∧ x.1.size = 1 ∧ ¬x.1.Agrees x.2 := by
  refine ⟨_, rfl, rfl, rfl, rfl, rfl, ?_⟩
  rintro ⟨-, -, hsize⟩
  exact absurd hsize (by decide)

end NodeList

end Mokv.Cache
