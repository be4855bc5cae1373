import Mathlib.Data.List.Induction

/-!
# Runs of a partial step function

A system is a state and a partial step function `step : σ → α → Option σ`: an
action that is not enabled in a state has no successor there.  Everything a
schedule can choose (which thread moves, which message arrives) is part of the
action, so one list of actions is one run.

* `run step s as`: the state that the actions `as` lead to from `s`.
* `StepsOk step ok s as`: every step of that run meets `ok`, a condition on the
  action and the state before it.
* `run_induction`: what holds at the start and is carried by every `ok` step
  holds at the end of every run of `ok` steps.  The actions taken so far are
  part of the statement, so a property may speak about the history.
-/

namespace Lib

variable {σ α : Type*} {step : σ → α → Option σ} {ok : σ → α → Prop}

/-- The state that a list of actions leads to, if each of them is enabled. -/
def run (step : σ → α → Option σ) : σ → List α → Option σ
  | s, [] => some s
  | s, a :: as => (step s a).bind fun t => run step t as

/-- Every step of the run from `s` meets `ok`. -/
def StepsOk (step : σ → α → Option σ) (ok : σ → α → Prop) : σ → List α → Prop
  | _, [] => True
  | s, a :: as => ok s a ∧ ∀ t, step s a = some t → StepsOk step ok t as

instance StepsOk.decidable [∀ s a, Decidable (ok s a)] :
    ∀ (s : σ) (as : List α), Decidable (StepsOk step ok s as)
  | _, [] => isTrue trivial
  | s, a :: as =>
    match h : step s a with
    | none => decidable_of_iff (ok s a)
        ⟨fun hok => ⟨hok, fun t ht => by rw [h] at ht; cases ht⟩, fun hok => hok.1⟩
    | some t =>
      have := StepsOk.decidable t as
      decidable_of_iff (ok s a ∧ StepsOk step ok t as)
        ⟨fun hok => ⟨hok.1, fun u hu => Option.some.inj (h.symm.trans hu) ▸ hok.2⟩,
          fun hok => ⟨hok.1, hok.2 t h⟩⟩

@[simp] theorem run_nil (s : σ) : run step s [] = some s := rfl

theorem run_cons (s : σ) (a : α) (as : List α) :
    run step s (a :: as) = (step s a).bind fun t => run step t as := rfl

theorem run_append (as bs : List α) (s : σ) :
    run step s (as ++ bs) = (run step s as).bind fun t => run step t bs := by
  induction as generalizing s with
  | nil => rfl
  | cons a as ih =>
    rw [List.cons_append, run_cons, run_cons, Option.bind_assoc]
    exact congrArg _ (funext fun t => ih t)

theorem run_concat {as : List α} {a : α} {s u : σ} :
    run step s (as ++ [a]) = some u ↔ ∃ t, run step s as = some t ∧ step t a = some u := by
  rw [run_append]
  cases run step s as with
  | none => simp
  | some t => simp [run_cons]

theorem stepsOk_true (s : σ) (as : List α) : StepsOk step (fun _ _ => True) s as := by
  induction as generalizing s with
  | nil => trivial
  | cons a as ih => exact ⟨trivial, fun t _ => ih t⟩

theorem stepsOk_of_forall {s : σ} {as : List α} (h : ∀ a ∈ as, ∀ s, ok s a) :
    StepsOk step ok s as := by
  induction as generalizing s with
  | nil => trivial
  | cons a as ih =>
    exact ⟨h a List.mem_cons_self s, fun t _ => ih fun b hb => h b (List.mem_cons_of_mem _ hb)⟩

theorem StepsOk.mono {ok' : σ → α → Prop} (h : ∀ s a, ok s a → ok' s a) {s : σ} {as : List α}
    (hok : StepsOk step ok s as) : StepsOk step ok' s as := by
  induction as generalizing s with
  | nil => trivial
  | cons a as ih => exact ⟨h s a hok.1, fun t ht => ih (hok.2 t ht)⟩

theorem exists_step_of_run {s u : σ} {as : List α} (h : run step s as = some u) {a : α}
    (ha : a ∈ as) : ∃ t t', step t a = some t' := by
  induction as generalizing s with
  | nil => cases ha
  | cons b as ih =>
    obtain ⟨t, ht, hu⟩ := Option.bind_eq_some_iff.mp h
    rcases List.mem_cons.mp ha with rfl | ha
    · exact ⟨s, t, ht⟩
    · exact ih hu ha

theorem stepsOk_or_stuck_iff {q : α → Prop} {s u : σ} {as : List α} (h : run step s as = some u) :
    StepsOk step (fun s a => q a ∨ step s a = none) s as ↔ ∀ a ∈ as, q a := by
  refine ⟨?_, fun hq => ?_⟩
  · induction as generalizing s with
    | nil => simp
    | cons b as ih =>
      obtain ⟨t, ht, hu⟩ := Option.bind_eq_some_iff.mp h
      rintro ⟨hb, hrest⟩ a ha
      rcases List.mem_cons.mp ha with rfl | ha
      · exact hb.resolve_right fun hnone => by rw [ht] at hnone; cases hnone
      · exact ih hu (hrest t ht) a ha
  · exact stepsOk_of_forall fun a ha _ => .inl (hq a ha)

theorem StepsOk.forall_mem {q : α → Prop} (h : ∀ s a, ok s a → q a) {s u : σ} {as : List α}
    (hr : run step s as = some u) (hok : StepsOk step ok s as) : ∀ a ∈ as, q a :=
  (stepsOk_or_stuck_iff hr).mp (hok.mono fun s a ha => .inl (h s a ha))

theorem stepsOk_append {as bs : List α} {s : σ} :
    StepsOk step ok s (as ++ bs) ↔
      StepsOk step ok s as ∧ ∀ t, run step s as = some t → StepsOk step ok t bs := by
  induction as generalizing s with
  | nil => simp [StepsOk]
  | cons a as ih =>
    rw [List.cons_append, StepsOk, StepsOk, run_cons, and_assoc]
    refine and_congr_right ?_
    intro _
    constructor
    · intro h
      refine ⟨fun t ht => (ih.mp (h t ht)).1, ?_⟩
      intro u hu
      obtain ⟨t, ht, hr⟩ := Option.bind_eq_some_iff.mp hu
      exact (ih.mp (h t ht)).2 u hr
    · intro h t ht
      exact ih.mpr ⟨h.1 t ht, fun u hu => h.2 u (by rw [ht]; exact hu)⟩

theorem stepsOk_concat {as : List α} {a : α} {s : σ} :
    StepsOk step ok s (as ++ [a]) ↔
      StepsOk step ok s as ∧ ∀ t, run step s as = some t → ok t a := by
  rw [stepsOk_append]
  simp [StepsOk]

theorem exists_run (htotal : ∀ s a, ok s a → ∃ t, step s a = some t) {as : List α} {s : σ}
    (hok : StepsOk step ok s as) : ∃ t, run step s as = some t := by
  induction as generalizing s with
  | nil => exact ⟨s, rfl⟩
  | cons a as ih =>
    obtain ⟨t, ht⟩ := htotal s a hok.1
    obtain ⟨u, hu⟩ := ih (hok.2 t ht)
    exact ⟨u, by rw [run_cons, ht]; exact hu⟩

/-- **Induction along a run.**  The last action is peeled off, so the step
lemma sees the state the earlier actions led to and the actions themselves. -/
theorem run_induction {s₀ : σ} {P : List α → σ → Prop} (h0 : P [] s₀)
    (hstep : ∀ as s a t, run step s₀ as = some s → P as s → ok s a → step s a = some t →
      P (as ++ [a]) t) :
    ∀ as s, run step s₀ as = some s → StepsOk step ok s₀ as → P as s := by
  intro as
  induction as using List.reverseRecOn with
  | nil =>
    intro s hr _
    obtain rfl : s₀ = s := Option.some.inj hr
    exact h0
  | append_singleton as a ih =>
    intro u hr hok
    obtain ⟨t, ht, hu⟩ := run_concat.mp hr
    obtain ⟨hok, ha⟩ := stepsOk_concat.mp hok
    exact hstep as t a u ht (ih t ht hok) (ha t ht) hu

theorem run_invariant {s₀ : σ} {I : σ → Prop} (h0 : I s₀)
    (hstep : ∀ s a t, I s → ok s a → step s a = some t → I t) {as : List α} {s : σ}
    (hr : run step s₀ as = some s) (hok : StepsOk step ok s₀ as) : I s :=
  run_induction (P := fun _ s => I s) h0
    (fun _ s a t _ hi ha ht => hstep s a t hi ha ht) as s hr hok

theorem countP_add_le_of_run {mark : α → Bool} {μ : σ → Nat}
    (h : ∀ s a t, step s a = some t → μ t + (if mark a then 1 else 0) ≤ μ s) {as : List α}
    {s t : σ} (hr : run step s as = some t) : as.countP mark + μ t ≤ μ s := by
  induction as generalizing s with
  | nil =>
    obtain rfl := Option.some.inj hr
    simp
  | cons a as ih =>
    obtain ⟨u, hu, hr⟩ := Option.bind_eq_some_iff.mp hr
    have hle := ih hr
    have hstep := h s a u hu
    rw [List.countP_cons]
    omega

/-- **When a property holds along a whole run.**  `I` is kept by every step that meets `pre`,
and `A` exactly by those that meet `ok`. -/
theorem forall_prefix_iff_stepsOk {pre : σ → α → Prop} {I A : σ → Prop} {s₀ : σ} (h0 : I s₀)
    (hA : A s₀)
    (hstep : ∀ s a t, I s → A s → pre s a → step s a = some t → I t ∧ (A t ↔ ok s a))
    (hstuck : ∀ s a, step s a = none → ok s a) {as : List α} (hpre : StepsOk step pre s₀ as) :
    (∀ p s, p <+: as → run step s₀ p = some s → A s) ↔ StepsOk step ok s₀ as := by
  have hinv : ∀ p s, StepsOk step pre s₀ p → StepsOk step ok s₀ p → run step s₀ p = some s →
      I s ∧ A s := by
    intro p s hp hok hr
    induction p using List.reverseRecOn generalizing s with
    | nil =>
      obtain rfl := Option.some.inj hr
      exact ⟨h0, hA⟩
    | append_singleton p a ih =>
      obtain ⟨t, ht, hs⟩ := run_concat.mp hr
      obtain ⟨hp, hpa⟩ := stepsOk_concat.mp hp
      obtain ⟨hok, hoka⟩ := stepsOk_concat.mp hok
      obtain ⟨hI, hA⟩ := ih t hp hok ht
      obtain ⟨hI', hiff⟩ := hstep t a s hI hA (hpa t ht) hs
      exact ⟨hI', hiff.mpr (hoka t ht)⟩
  constructor
  · intro hall
    induction as using List.reverseRecOn with
    | nil => trivial
    | append_singleton as a ih =>
      have hpre' := stepsOk_concat.mp hpre
      have hok := ih hpre'.1 fun p s hp => hall p s (hp.trans (List.prefix_append _ _))
      refine stepsOk_concat.mpr ⟨hok, ?_⟩
      intro s hs
      obtain ⟨hI, hA⟩ := hinv as s hpre'.1 hok hs
      cases ht : step s a with
      | none => exact hstuck s a ht
      | some t =>
        refine (hstep s a t hI hA (hpre'.2 s hs) ht).2.mp ?_
        exact hall _ t (List.prefix_refl _) (run_concat.mpr ⟨s, hs, ht⟩)
  · intro hok p s hp hr
    obtain ⟨rest, rfl⟩ := hp
    exact (hinv p s (stepsOk_append.mp hpre).1 (stepsOk_append.mp hok).1 hr).2

/-- **When a run goes on and keeps a property** of the actions and the state.  `I` is kept by
every step, and exactly the steps that meet `ok` exist and keep `A`. -/
theorem forall_prefix_exists_iff {I A : List α → σ → Prop} {s₀ : σ} (h0 : I [] s₀) (hA : A [] s₀)
    (hI : ∀ p s a t, I p s → step s a = some t → I (p ++ [a]) t)
    (hstep : ∀ p s a, I p s → A p s →
      ((∃ t, step s a = some t ∧ A (p ++ [a]) t) ↔ ok s a)) {as : List α} :
    (∀ p, p <+: as → ∃ s, run step s₀ p = some s ∧ A p s) ↔ StepsOk step ok s₀ as := by
  have hinv : ∀ p, StepsOk step ok s₀ p → ∃ s, run step s₀ p = some s ∧ I p s ∧ A p s := by
    intro p hok
    induction p using List.reverseRecOn with
    | nil => exact ⟨s₀, rfl, h0, hA⟩
    | append_singleton p a ih =>
      obtain ⟨hok, hoka⟩ := stepsOk_concat.mp hok
      obtain ⟨s, hs, hIs, hAs⟩ := ih hok
      obtain ⟨t, ht, hAt⟩ := (hstep p s a hIs hAs).mpr (hoka s hs)
      exact ⟨t, run_concat.mpr ⟨s, hs, ht⟩, hI p s a t hIs ht, hAt⟩
  constructor
  · intro hall
    induction as using List.reverseRecOn with
    | nil => trivial
    | append_singleton as a ih =>
      have hok := ih fun p hp => hall p (hp.trans (List.prefix_append _ _))
      refine stepsOk_concat.mpr ⟨hok, ?_⟩
      intro s hs
      obtain ⟨s', hs', hIs, hAs⟩ := hinv as hok
      obtain rfl := Option.some.inj (hs.symm.trans hs')
      obtain ⟨u, hu, hAu⟩ := hall _ (List.prefix_refl _)
      obtain ⟨t, ht, htu⟩ := run_concat.mp hu
      obtain rfl := Option.some.inj (hs.symm.trans ht)
      exact (hstep as s a hIs hAs).mp ⟨u, htu, hAu⟩
  · rintro hok p ⟨rest, rfl⟩
    obtain ⟨s, hs, -, hAs⟩ := hinv p (stepsOk_append.mp hok).1
    exact ⟨s, hs, hAs⟩

end Lib
