import Mokv.Lib.Links

/-!
# Rings of doubly linked cells

`nxt` and `pre` are the two links of every cell and `d` is a cell that holds nothing.
`Ring nxt pre d l` says that `nxt` leads from `d` through exactly the cells `l` back to `d`,
and `pre` through the same cells the other way.

A ring is a chain in each direction, with `d` as its end (`toward`), so that `Ring.insert` and
`Ring.remove` are two applications each of the rules for chains.
-/

namespace Lib

theorem getLastD_reverse {α : Type*} (l : List α) (d : α) : l.reverse.getLastD d = l.headD d := by
  cases l with
  | nil => rfl
  | cons a l => rw [List.reverse_cons, List.getLastD_concat, List.headD_cons]

theorem headD_reverse {α : Type*} (l : List α) (d : α) : l.reverse.headD d = l.getLastD d := by
  rw [← getLastD_reverse, List.reverse_reverse]

theorem mem_mirror {α : Type*} {l₁ l₂ : List α} {a d : α} :
    a ∈ d :: (l₂.reverse ++ l₁.reverse) ↔ a ∈ d :: (l₁ ++ l₂) := by
  simp [or_comm]

theorem nodup_mirror {α : Type*} {l₁ l₂ : List α} {d : α} (h : (d :: (l₁ ++ l₂)).Nodup) :
    (d :: (l₂.reverse ++ l₁.reverse)).Nodup := by
  rw [← List.reverse_append]
  exact (((List.reverse_perm _).cons d).nodup_iff).mpr h

variable {α : Type*} [DecidableEq α] {nxt pre nxt' pre' : α → α} {d : α}

/-- The link of a cell, null where it leads to `d`. -/
def toward (link : α → α) (d a : α) : Option (Option α) :=
  some (if link a = d then none else some (link a))

theorem toward_of_eq {link : α → α} {a : α} (h : link a = d) : toward link d a = some none := by
  rw [toward, if_pos h]

theorem toward_of_ne {link : α → α} {a b : α} (h : link a = b) (hb : b ≠ d) :
    toward link d a = some (some b) := by
  rw [toward, h, if_neg hb]

theorem toward_congr {link link' : α → α} {a b : α} (h : link' a = link b) :
    toward link' d a = toward link d b := by
  rw [toward, toward, h]

/-- A chain that follows a link tells where the link leads. -/
theorem link_eq_headD {link : α → α} {a : α} {l : List α} (h : Links (toward link d) a l) :
    link a = l.headD d := by
  have hnext := Option.some.inj h.next_eq
  cases l with
  | nil =>
    by_contra hne
    rw [if_neg (show ¬link a = d from hne)] at hnext
    cases hnext
  | cons b l =>
    rw [List.head?_cons] at hnext
    split at hnext
    · cases hnext
    · exact Option.some.inj hnext

/-- The links run through `l` in both directions. -/
structure Ring (nxt pre : α → α) (d : α) (l : List α) : Prop where
  nodup : (d :: l).Nodup
  forth : Links (toward nxt d) d l
  back : Links (toward pre d) d l.reverse

namespace Ring

variable {l l₁ l₂ : List α} {q new : α}

theorem nil (hnxt : nxt d = d) (hpre : pre d = d) : Ring nxt pre d [] where
  nodup := List.nodup_cons.mpr ⟨List.not_mem_nil, List.nodup_nil⟩
  forth := toward_of_eq hnxt
  back := toward_of_eq hpre

theorem first_eq (h : Ring nxt pre d l) : nxt d = l.headD d := link_eq_headD h.forth

theorem nxt_eq (h : Ring nxt pre d (l₁ ++ l₂)) : nxt (l₁.getLastD d) = l₂.headD d :=
  link_eq_headD h.forth.of_append

theorem pre_eq (h : Ring nxt pre d (l₁ ++ l₂)) : pre (l₂.headD d) = l₁.getLastD d := by
  have hback := h.back
  rw [List.reverse_append] at hback
  have hlink := link_eq_headD hback.of_append
  rw [getLastD_reverse, headD_reverse] at hlink
  exact hlink

theorem last_eq (h : Ring nxt pre d l) : pre d = l.getLastD d := by
  have happ : Ring nxt pre d (l ++ []) := by
    rw [List.append_nil]
    exact h
  exact happ.pre_eq

theorem nodup_list (h : Ring nxt pre d l) : l.Nodup := (List.nodup_cons.mp h.nodup).2

/-- **A new cell is put between `l₁` and `l₂`**: two links lead to it and two away. -/
theorem insert (h : Ring nxt pre d (l₁ ++ l₂)) (hnew : new ∉ d :: (l₁ ++ l₂))
    (hto : nxt' (l₁.getLastD d) = new) (haway : nxt' new = l₂.headD d)
    (hto' : pre' (l₂.headD d) = new) (haway' : pre' new = l₁.getLastD d)
    (hnxt : ∀ a ∈ d :: (l₁ ++ l₂), a ≠ l₁.getLastD d → nxt' a = nxt a)
    (hpre : ∀ a ∈ d :: (l₁ ++ l₂), a ≠ l₂.headD d → pre' a = pre a) :
    Ring nxt' pre' d (l₁ ++ new :: l₂) := by
  have hd : new ≠ d := fun heq => hnew (heq ▸ List.mem_cons_self)
  have hperm : (d :: (l₁ ++ new :: l₂)).Perm (new :: d :: (l₁ ++ l₂)) :=
    (List.perm_middle.cons d).trans (List.Perm.swap _ _ _)
  refine ⟨hperm.nodup_iff.mpr (List.nodup_cons.mpr ⟨hnew, h.nodup⟩), ?_, ?_⟩
  · refine h.forth.insert h.nodup (toward_of_ne hto hd) ?_ ?_
    · exact toward_congr (haway.trans h.nxt_eq.symm)
    · intro a ha hne
      exact toward_congr (hnxt a ha hne)
  · have hback := h.back
    rw [List.reverse_append] at hback
    rw [List.reverse_append, List.reverse_cons, List.append_assoc, List.singleton_append]
    refine hback.insert (nodup_mirror h.nodup) ?_ ?_ ?_
    · rw [getLastD_reverse]
      exact toward_of_ne hto' hd
    · rw [getLastD_reverse]
      exact toward_congr (haway'.trans h.pre_eq.symm)
    · intro a ha hne
      rw [getLastD_reverse] at hne
      exact toward_congr (hpre a (mem_mirror.mp ha) hne)

/-- **The cell between `l₁` and `l₂` is taken out**: its neighbours are linked. -/
theorem remove (h : Ring nxt pre d (l₁ ++ q :: l₂)) (hto : nxt' (l₁.getLastD d) = l₂.headD d)
    (hto' : pre' (l₂.headD d) = l₁.getLastD d)
    (hnxt : ∀ a ∈ d :: (l₁ ++ l₂), a ≠ l₁.getLastD d → nxt' a = nxt a)
    (hpre : ∀ a ∈ d :: (l₁ ++ l₂), a ≠ l₂.headD d → pre' a = pre a) :
    Ring nxt' pre' d (l₁ ++ l₂) := by
  have hperm : (d :: (l₁ ++ q :: l₂)).Perm (q :: d :: (l₁ ++ l₂)) :=
    (List.perm_middle.cons d).trans (List.Perm.swap _ _ _)
  have hnodup : (d :: (l₁ ++ l₂)).Nodup := (hperm.nodup_iff.mp h.nodup).of_cons
  have hsplit : Ring nxt pre d ((l₁ ++ [q]) ++ l₂) := by
    rw [List.append_assoc, List.singleton_append]
    exact h
  have hq : nxt q = l₂.headD d := by
    have hlink := hsplit.nxt_eq
    rw [List.getLastD_concat] at hlink
    exact hlink
  have hq' : pre q = l₁.getLastD d := h.pre_eq
  refine ⟨hnodup, ?_, ?_⟩
  · refine h.forth.remove hnodup (toward_congr (hto.trans hq.symm)) ?_
    intro a ha hne
    exact toward_congr (hnxt a ha hne)
  · have hback := h.back
    rw [List.reverse_append, List.reverse_cons, List.append_assoc, List.singleton_append] at hback
    rw [List.reverse_append]
    refine hback.remove (nodup_mirror hnodup) ?_ ?_
    · rw [getLastD_reverse]
      exact toward_congr (hto'.trans hq'.symm)
    · intro a ha hne
      rw [getLastD_reverse] at hne
      exact toward_congr (hpre a (mem_mirror.mp ha) hne)

theorem follow_eq (h : Ring nxt pre d l) {n : Nat} (hn : l.length < n) :
    follow (toward nxt d) n d = some l ∧ follow (toward pre d) n d = some l.reverse :=
  ⟨h.forth.follow_eq hn, h.back.follow_eq (by rw [List.length_reverse]; exact hn)⟩

end Ring

end Lib
