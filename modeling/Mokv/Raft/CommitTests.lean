import Mathlib.Data.Fin.VecNotation
import Mokv.Raft.Transport

/-!
# The two commit tests of a leader

A leader counts its followers twice: in the loop of `InnerPut`, and in `Follower::Run` after
an answer.  Both compare `nextindex_`, the index of the last entry that a follower has
acknowledged, with the index in question; but `InnerPut` asks for more than that index.

`Replicas.run_pollCount` and `Replicas.run_syncCount` say that the tests are what the counting
steps compute when no `nextindex_` moves in between.  `commit_tests_iff`: the test of
`Follower::Run` is the majority, and the one of `InnerPut` is too unless the entry is the
last one that a majority has acknowledged.
-/

namespace Mokv.Raft

open Lib

variable {N : Nat}

/-- The count of `InnerPut`. -/
def innerPutSum (nextindex : Fin N → Int) (nowIdx : Nat) (followers : List (Fin N)) (sum : Nat) :
    Nat :=
  followers.foldl (fun sum f => if toSizeT (nextindex f) > nowIdx then sum + 1 else sum) sum

/-- The exit condition of `InnerPut`. -/
def innerPutTest (nextindex : Fin N → Int) (i : Fin N) (nowIdx : Nat) : Bool :=
  innerPutSum nextindex nowIdx (others i) 1 > ((others i).length + 1) / 2

/-- The count of `Follower::Run`. -/
def runSum (nextindex : Fin N → Int) (f : Fin N) (otherFollowers : List (Fin N)) (sum : Nat) :
    Nat :=
  otherFollowers.foldl (fun sum g => if nextindex g ≥ nextindex f then sum + 1 else sum) sum

/-- The commit condition of `Follower::Run`. -/
def runTest (nextindex : Fin N → Int) (i f : Fin N) : Bool :=
  runSum nextindex f (otherFollowers i f) 2 > ((otherFollowers i f).length + 2) / 2

/-! ### The counting steps -/

namespace Replicas

theorem setPut_setPut (r : Replicas N) (i : Fin N) (k : Nat) (t t' : PutThread N) :
    (r.setPut i k t).setPut i k t' = r.setPut i k t' := by
  simp [setPut]

theorem setSync_setSync (r : Replicas N) (i f : Fin N) (t t' : SyncThread N) :
    (r.setSync i f t).setSync i f t' = r.setSync i f t' := by
  simp [setSync]

/-- **The count of a put**, when no `nextindex_` moves. -/
theorem run_pollCount (r : Replicas N) (pod : Fin N → Pod N) (i : Fin N) (k nowIdx : Nat)
    (rest : List (Fin N)) (sum : Nat) :
    run (fun r a => r.step pod a) (r.setPut i k (.counting nowIdx rest sum))
        (rest.map fun _ => .pollCount i k) =
      some (r.setPut i k (.counting nowIdx [] (innerPutSum (r.nextindex i) nowIdx rest sum))) := by
  induction rest generalizing sum with
  | nil => rfl
  | cons f rest ih =>
    have hput : (r.setPut i k (.counting nowIdx (f :: rest) sum)).puts i k =
        .counting nowIdx (f :: rest) sum := by simp [setPut]
    have hstep : (r.setPut i k (.counting nowIdx (f :: rest) sum)).step pod (.pollCount i k) =
        some (r.setPut i k (.counting nowIdx rest
          (if toSizeT (r.nextindex i f) > nowIdx then sum + 1 else sum))) := by
      rw [step, pollCount, hput]
      exact congrArg some (setPut_setPut r i k _ _)
    rw [List.map_cons, run_cons, hstep]
    exact ih _

/-- **The count of a follower's thread**, when no `nextindex_` moves. -/
theorem run_syncCount (r : Replicas N) (pod : Fin N → Pod N) (i f : Fin N) (rest : List (Fin N))
    (sum : Nat) :
    run (fun r a => r.step pod a) (r.setSync i f (.counting rest sum))
        (rest.map fun _ => .syncCount i f) =
      some (r.setSync i f (.counting [] (runSum (r.nextindex i) f rest sum))) := by
  induction rest generalizing sum with
  | nil => rfl
  | cons g rest ih =>
    have hsync : (r.setSync i f (.counting (g :: rest) sum)).sync i f =
        .counting (g :: rest) sum := by simp [setSync]
    have hstep : (r.setSync i f (.counting (g :: rest) sum)).step pod (.syncCount i f) =
        some (r.setSync i f (.counting rest
          (if r.nextindex i g ≥ r.nextindex i f then sum + 1 else sum))) := by
      rw [step, syncCount, hsync]
      exact congrArg some (setSync_setSync r i f _ _)
    rw [List.map_cons, run_cons, hstep]
    exact ih _

end Replicas

/-! ### The majorities -/

/-- The leader and the followers that have acknowledged entry `n`. -/
def storing (nextindex : Fin N → Int) (i : Fin N) (n : Nat) : Finset (Fin N) :=
  Finset.univ.filter fun f => f = i ∨ (n : Int) ≤ nextindex f

/-- **The test of `InnerPut` asks for the entry after `n`.** -/
theorem innerPutTest_iff {nextindex : Fin N → Int} (i : Fin N)
    (hmatch : ∀ f, f ≠ i → 0 ≤ nextindex f ∧ nextindex f < 2 ^ 63) (n : Nat) :
    innerPutTest nextindex i n = true ↔ Majority (storing nextindex i (n + 1)) := by
  have hcast : ∀ f, f ≠ i →
      (toSizeT (nextindex f) > n ↔ ((n + 1 : Nat) : Int) ≤ nextindex f) := by
    intro f hf
    obtain ⟨h0, h1⟩ := hmatch f hf
    rw [toSizeT_of_nonneg h0 (by omega)]
    omega
  have hcard : innerPutSum nextindex n (others i) 1 = (storing nextindex i (n + 1)).card := by
    refine foldl_count_eq_card [i] (List.nodup_singleton i) (nodup_others i) ?_ ?_
    · intro f hf hmem
      exact mem_others.mp hmem (List.mem_singleton.mp hf)
    · intro f
      rw [storing, Finset.mem_filter, List.mem_singleton, mem_others]
      by_cases hf : f = i
      · simp [hf]
      · simp [hf, hcast f hf]
  rw [innerPutTest, decide_eq_true_eq, hcard, length_others, Majority, Fintype.card_fin]
  omega

/-- **The test of `Follower::Run` is the majority** for the entry that was just acknowledged. -/
theorem runTest_iff {nextindex : Fin N → Int} {i f : Fin N} (hf : f ≠ i) {n : Nat}
    (hn : nextindex f = n) :
    runTest nextindex i f = true ↔ Majority (storing nextindex i n) := by
  have hcard : runSum nextindex f (otherFollowers i f) 2 = (storing nextindex i n).card := by
    refine foldl_count_eq_card [i, f] (by simpa using hf.symm) (nodup_otherFollowers i f) ?_ ?_
    · intro g hg hmem
      rw [mem_otherFollowers] at hmem
      rcases List.mem_cons.mp hg with rfl | hg
      · exact hmem.1 rfl
      · exact hmem.2 (List.mem_singleton.mp hg)
    · intro g
      rw [storing, Finset.mem_filter, mem_otherFollowers, hn]
      by_cases hgi : g = i
      · simp [hgi]
      · by_cases hgf : g = f
        · simp [hgf, hn]
        · simp [hgi, hgf]
  rw [runTest, decide_eq_true_eq, hcard, length_otherFollowers hf, Majority, Fintype.card_fin]
  omega

theorem majority_storing_mono (nextindex : Fin N → Int) (i : Fin N) (n : Nat)
    (h : Majority (storing nextindex i (n + 1))) : Majority (storing nextindex i n) := by
  have hsub : storing nextindex i (n + 1) ⊆ storing nextindex i n := by
    intro f hf
    rw [storing, Finset.mem_filter] at hf ⊢
    refine ⟨hf.1, hf.2.imp_right ?_⟩
    intro hle
    push_cast at hle
    omega
  have hcard := Finset.card_le_card hsub
  rw [Majority] at h ⊢
  omega

/-- **When both tests are the majority**: exactly when the entry is not the last one that a
majority has acknowledged. -/
theorem commit_tests_iff (i : Fin N) (nextindex : Fin N → Int)
    (hmatch : ∀ f, f ≠ i → 0 ≤ nextindex f ∧ nextindex f < 2 ^ 63) (n : Nat) :
    ((innerPutTest nextindex i n = true ↔ Majority (storing nextindex i n)) ∧
        ∀ f, f ≠ i → nextindex f = n →
          (runTest nextindex i f = true ↔ Majority (storing nextindex i n))) ↔
      (Majority (storing nextindex i n) → Majority (storing nextindex i (n + 1))) := by
  rw [innerPutTest_iff i hmatch]
  constructor
  · rintro ⟨hinner, -⟩ hmaj
    exact hinner.mpr hmaj
  · intro hnext
    exact ⟨⟨majority_storing_mono nextindex i n, hnext⟩, fun f hf hn => runTest_iff hf hn⟩

/-- Three followers that have acknowledged the entries up to 2, 3 and 5. -/
theorem commit_tests_iff_sample :
    (((innerPutTest ![0, 2, 3, 5] (0 : Fin 4) 2 = true ↔
          Majority (storing ![0, 2, 3, 5] (0 : Fin 4) 2)) ∧
        ∀ f : Fin 4, f ≠ 0 → (![0, 2, 3, 5] : Fin 4 → Int) f = (2 : Nat) →
          (runTest ![0, 2, 3, 5] 0 f = true ↔ Majority (storing ![0, 2, 3, 5] (0 : Fin 4) 2))) ↔
      (Majority (storing ![0, 2, 3, 5] (0 : Fin 4) 2) →
        Majority (storing ![0, 2, 3, 5] (0 : Fin 4) (2 + 1)))) ∧
    Majority (storing ![0, 2, 3, 5] (0 : Fin 4) 3) :=
  ⟨commit_tests_iff 0 ![0, 2, 3, 5] (by decide) 2, by decide⟩

/-- **A put of the last entry waits although all have it**: three nodes, and both followers have
acknowledged entry 1. -/
theorem innerPutTest_misses_majority :
    innerPutTest ![0, 1, 1] (0 : Fin 3) 1 = false ∧
      Majority (storing ![0, 1, 1] (0 : Fin 3) 1) := by
  decide

end Mokv.Raft
