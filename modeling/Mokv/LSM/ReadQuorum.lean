import Mathlib.Data.List.Induction
import Mokv.Bytes

/-!
# Quorum reads

`ReadQuorum` (`mokv/lsm/read_quorum.hpp`): `Read` asks every replica and looks for the largest
version; `LinearizableRead` reads again until enough replicas agree on it.

The replicas answer a key always the same, so `LinearizableRead` returns in its first turn or
never.  What it returns has the largest version, but its value is that of the first answer
with this version, and the empty string if the version is 0.  `endsBacked_iff` is the exact
condition for it to end with what a quorum returned.
-/

namespace Mokv.LSM

/-- `ReadQuorumConfig`, as far as reads look at it. -/
structure ReadQuorumConfig where
  replicaCount : Nat
  readQuorum : Nat

/-- `ReadResult`.  Without an answer `version_id` is not set. -/
structure ReadResult where
  value : Bytes
  versionId : Nat
  replicasRead : Nat
  isStrongConsistent : Bool
deriving DecidableEq

/-- What a replica returns for a key: nothing, or a value and its version. -/
abbrev ReadFunc := Bytes → Nat → Option (Bytes × Nat)

namespace ReadQuorum

/-- `max_version`, `max_version_count` and `result.value`. -/
structure Newest where
  version : Nat
  count : Nat
  value : Bytes
deriving DecidableEq

/-- One turn of the loop over the answers. -/
def Newest.visit (s : Newest) (answer : Bytes × Nat) : Newest :=
  if answer.2 > s.version then ⟨answer.2, 1, answer.1⟩
  else if answer.2 = s.version then { s with count := s.count + 1 }
  else s

/-- The loop over the answers. -/
def newest (answers : List (Bytes × Nat)) : Newest := answers.foldl Newest.visit ⟨0, 0, []⟩

/-- `values`: the answers, in the order of the replicas. -/
def answers (config : ReadQuorumConfig) (readFunc : ReadFunc) (key : Bytes) : List (Bytes × Nat) :=
  (List.range config.replicaCount).filterMap (readFunc key)

/-- `Read`. -/
def read (config : ReadQuorumConfig) (readFunc : ReadFunc) (key : Bytes) : ReadResult :=
  let values := answers config readFunc key
  if values.isEmpty then ⟨[], 0, 0, true⟩
  else
    let s := newest values
    ⟨s.value, s.version, values.length, config.readQuorum ≤ s.count⟩

/-- `LinearizableRead`, for a bounded number of turns. -/
def linearizableRead (config : ReadQuorumConfig) (readFunc : ReadFunc) (key : Bytes) :
    Nat → Option (Option ReadResult)
  | 0 => none
  | turns + 1 =>
    let result := read config readFunc key
    if result.replicasRead < config.readQuorum then some none
    else if !result.isStrongConsistent then linearizableRead config readFunc key turns
    else some (some result)

/-- The number of replicas that return a value with a version. -/
def backers (config : ReadQuorumConfig) (readFunc : ReadFunc) (key value : Bytes) (version : Nat) :
    Nat :=
  (List.range config.replicaCount).countP fun replica =>
    decide (readFunc key replica = some (value, version))

/-- The read ends, and what it returns was returned by a quorum of the replicas, none of which
returned a larger version. -/
def EndsBacked (config : ReadQuorumConfig) (readFunc : ReadFunc) (key : Bytes) : Prop :=
  (∃ turns r, linearizableRead config readFunc key turns = some r) ∧
    ∀ turns result, linearizableRead config readFunc key turns = some (some result) →
      config.readQuorum ≤ backers config readFunc key result.value result.versionId ∧
        ∀ replica < config.replicaCount, ∀ answer, readFunc key replica = some answer →
          answer.2 ≤ result.versionId

/-- Fewer answers than a quorum; or a quorum gives one answer of the largest version, which is the
first answer of this version, or has the empty value if the version is 0. -/
def QuorumAgrees (quorum : Nat) (answers : List (Bytes × Nat)) : Prop :=
  answers.length < quorum ∨
    ∃ a ∈ answers, (∀ b ∈ answers, b.2 ≤ a.2) ∧ quorum ≤ answers.count a ∧
      if a.2 = 0 then a.1 = [] else answers.find? (fun b => b.2 = a.2) = some a

instance (quorum : Nat) (answers : List (Bytes × Nat)) : Decidable (QuorumAgrees quorum answers) :=
  inferInstanceAs (Decidable (_ ∨ _))

/-! ### The loop -/

/-- What the loop knows of the answers it has seen. -/
structure Newest.Seen (s : Newest) (answers : List (Bytes × Nat)) : Prop where
  le : ∀ a ∈ answers, a.2 ≤ s.version
  count : s.count = answers.countP fun a => a.2 = s.version
  value : if s.version = 0 then s.value = []
    else answers.find? (fun a => a.2 = s.version) = some (s.value, s.version)

theorem Newest.Seen.visit_larger {s : Newest} {answers : List (Bytes × Nat)} (h : s.Seen answers)
    {a : Bytes × Nat} (hgt : a.2 > s.version) :
    (⟨a.2, 1, a.1⟩ : Newest).Seen (answers ++ [a]) := by
  have hnone : ∀ b ∈ answers, ¬b.2 = a.2 := fun b hb heq => by
    have hle := h.le b hb
    omega
  refine ⟨?_, ?_, ?_⟩
  · intro b hb
    rcases List.mem_append.mp hb with hb | hb
    · exact (h.le b hb).trans (Nat.le_of_lt hgt)
    · rw [List.mem_singleton.mp hb]
  · have hzero : answers.countP (fun b => decide (b.2 = a.2)) = 0 :=
      List.countP_eq_zero.mpr fun b hb => by simpa using hnone b hb
    rw [List.countP_append, hzero]
    simp
  · have hpos : ¬a.2 = 0 := by omega
    rw [if_neg hpos, List.find?_append, List.find?_eq_none.mpr fun b hb => by
      simpa using hnone b hb]
    simp

theorem Newest.Seen.visit_other {s : Newest} {answers : List (Bytes × Nat)} (h : s.Seen answers)
    {a : Bytes × Nat} (hle : a.2 ≤ s.version) :
    ({ s with count := s.count + if a.2 = s.version then 1 else 0 } : Newest).Seen
      (answers ++ [a]) := by
  obtain ⟨hles, hcount, hvalue⟩ := h
  refine ⟨?_, ?_, ?_⟩
  · intro b hb
    rcases List.mem_append.mp hb with hb | hb
    · exact hles b hb
    · rw [List.mem_singleton.mp hb]
      exact hle
  · rw [List.countP_append, hcount, List.countP_singleton]
    simp
  · dsimp only
    split
    · rename_i hzero
      rwa [if_pos hzero] at hvalue
    · rename_i hpos
      rw [if_neg hpos] at hvalue
      rw [List.find?_append, hvalue]
      rfl

theorem Newest.Seen.visit {s : Newest} {answers : List (Bytes × Nat)} (h : s.Seen answers)
    (a : Bytes × Nat) : (s.visit a).Seen (answers ++ [a]) := by
  rw [Newest.visit]
  by_cases hgt : a.2 > s.version
  · rw [if_pos hgt]
    exact h.visit_larger hgt
  · have hother := h.visit_other (Nat.le_of_not_gt hgt)
    rw [if_neg hgt]
    by_cases heq : a.2 = s.version
    · rw [if_pos heq] at hother ⊢
      exact hother
    · rw [if_neg heq] at hother ⊢
      exact hother

/-- **The loop finds the largest version**, counts its answers and keeps the value of the first. -/
theorem newest_seen (answers : List (Bytes × Nat)) : (newest answers).Seen answers := by
  induction answers using List.reverseRecOn with
  | nil => exact ⟨fun a ha => absurd ha List.not_mem_nil, rfl, rfl⟩
  | append_singleton answers a ih =>
    rw [newest, List.foldl_append]
    exact ih.visit a

/-! ### The read -/

theorem backers_eq (config : ReadQuorumConfig) (readFunc : ReadFunc) (key value : Bytes)
    (version : Nat) :
    backers config readFunc key value version =
      (answers config readFunc key).count (value, version) := by
  rw [backers, answers, List.count, List.countP_filterMap]
  refine List.countP_congr fun replica _ => ?_
  cases readFunc key replica with
  | none => simp
  | some answer => simp

theorem mem_answers {config : ReadQuorumConfig} {readFunc : ReadFunc} {key : Bytes}
    {a : Bytes × Nat} :
    a ∈ answers config readFunc key ↔
      ∃ replica < config.replicaCount, readFunc key replica = some a := by
  rw [answers, List.mem_filterMap]
  simp only [List.mem_range]

theorem Newest.Seen.eq_of_agrees {s : Newest} {answers : List (Bytes × Nat)} (h : s.Seen answers)
    {a : Bytes × Nat} (ha : a ∈ answers) (hmax : ∀ b ∈ answers, b.2 ≤ a.2)
    (hfirst : if a.2 = 0 then a.1 = [] else answers.find? (fun b => b.2 = a.2) = some a) :
    a = (s.value, s.version) := by
  have hle := h.le a ha
  have hvalue := h.value
  by_cases hzero : s.version = 0
  · have ha0 : a.2 = 0 := by omega
    rw [if_pos hzero] at hvalue
    rw [if_pos ha0] at hfirst
    exact Prod.ext (hfirst.trans hvalue.symm) (ha0.trans hzero.symm)
  · rw [if_neg hzero] at hvalue
    have hversion : a.2 = s.version :=
      Nat.le_antisymm hle (hmax _ (List.mem_of_find?_eq_some hvalue))
    rw [if_neg (hversion ▸ hzero), hversion, hvalue] at hfirst
    exact (Option.some.inj hfirst).symm

theorem read_eq {config : ReadQuorumConfig} {readFunc : ReadFunc} {key : Bytes}
    (hpos : 1 ≤ config.readQuorum)
    (hlen : config.readQuorum ≤ (answers config readFunc key).length) :
    read config readFunc key =
      ⟨(newest (answers config readFunc key)).value, (newest (answers config readFunc key)).version,
        (answers config readFunc key).length,
        config.readQuorum ≤ (newest (answers config readFunc key)).count⟩ := by
  have hne : ¬(answers config readFunc key).isEmpty = true := by
    intro hempty
    rw [List.isEmpty_iff.mp hempty, List.length_nil] at hlen
    omega
  rw [read]
  exact if_neg hne

theorem replicasRead_eq (config : ReadQuorumConfig) (readFunc : ReadFunc) (key : Bytes) :
    (read config readFunc key).replicasRead = (answers config readFunc key).length := by
  rw [read]
  by_cases hempty : (answers config readFunc key).isEmpty = true
  · rw [if_pos hempty, List.isEmpty_iff.mp hempty, List.length_nil]
  · rw [if_neg hempty]

theorem linearizableRead_few {config : ReadQuorumConfig} {readFunc : ReadFunc} {key : Bytes}
    (hlen : (answers config readFunc key).length < config.readQuorum) (turns : Nat) :
    linearizableRead config readFunc key (turns + 1) = some none := by
  rw [linearizableRead, replicasRead_eq, if_pos hlen]

/-- **The retry reads the same again**: without agreement there is no end. -/
theorem linearizableRead_never {config : ReadQuorumConfig} {readFunc : ReadFunc} {key : Bytes}
    (hlen : config.readQuorum ≤ (answers config readFunc key).length)
    (hcons : (read config readFunc key).isStrongConsistent = false) (turns : Nat) :
    linearizableRead config readFunc key turns = none := by
  induction turns with
  | zero => rfl
  | succ turns ih =>
    rw [linearizableRead, replicasRead_eq, if_neg (Nat.not_lt.mpr hlen), hcons]
    exact ih

theorem linearizableRead_once {config : ReadQuorumConfig} {readFunc : ReadFunc} {key : Bytes}
    (hlen : config.readQuorum ≤ (answers config readFunc key).length)
    (hcons : (read config readFunc key).isStrongConsistent = true) (turns : Nat) :
    linearizableRead config readFunc key (turns + 1) = some (some (read config readFunc key)) := by
  rw [linearizableRead, replicasRead_eq, if_neg (Nat.not_lt.mpr hlen), hcons]
  rfl

theorem endsBacked_of_few {config : ReadQuorumConfig} {readFunc : ReadFunc} {key : Bytes}
    (hlen : (answers config readFunc key).length < config.readQuorum) :
    EndsBacked config readFunc key := by
  refine ⟨⟨1, none, linearizableRead_few hlen 0⟩, ?_⟩
  intro turns result hres
  cases turns with
  | zero => cases hres
  | succ turns =>
    rw [linearizableRead_few hlen] at hres
    cases hres

theorem endsBacked_iff_backers {config : ReadQuorumConfig} (hpos : 1 ≤ config.readQuorum)
    {readFunc : ReadFunc} {key : Bytes}
    (hlen : config.readQuorum ≤ (answers config readFunc key).length)
    (hcount : config.readQuorum ≤ (newest (answers config readFunc key)).count) :
    EndsBacked config readFunc key ↔
      config.readQuorum ≤ (answers config readFunc key).count
        ((newest (answers config readFunc key)).value,
          (newest (answers config readFunc key)).version) := by
  have hread := read_eq hpos hlen
  have hcons : (read config readFunc key).isStrongConsistent = true := by
    rw [hread]
    exact decide_eq_true hcount
  constructor
  · rintro ⟨-, hbacked⟩
    have hquorum := (hbacked 1 _ (linearizableRead_once hlen hcons 0)).1
    rwa [hread, backers_eq] at hquorum
  · intro hquorum
    refine ⟨⟨1, _, linearizableRead_once hlen hcons 0⟩, ?_⟩
    intro turns result hres
    cases turns with
    | zero => cases hres
    | succ turns =>
      rw [linearizableRead_once hlen hcons] at hres
      obtain rfl := Option.some.inj (Option.some.inj hres)
      rw [hread, backers_eq]
      refine ⟨hquorum, fun replica hreplica answer hanswer => ?_⟩
      exact (newest_seen _).le answer (mem_answers.mpr ⟨replica, hreplica, hanswer⟩)

theorem not_endsBacked {config : ReadQuorumConfig} (hpos : 1 ≤ config.readQuorum)
    {readFunc : ReadFunc} {key : Bytes}
    (hlen : config.readQuorum ≤ (answers config readFunc key).length)
    (hcount : ¬config.readQuorum ≤ (newest (answers config readFunc key)).count) :
    ¬EndsBacked config readFunc key := by
  have hcons : (read config readFunc key).isStrongConsistent = false := by
    rw [read_eq hpos hlen]
    exact decide_eq_false hcount
  rintro ⟨⟨turns, r, hres⟩, -⟩
  rw [linearizableRead_never hlen hcons] at hres
  cases hres

/-- **When a linearizable read ends backed by a quorum.** -/
theorem endsBacked_iff (config : ReadQuorumConfig) (hpos : 1 ≤ config.readQuorum)
    (readFunc : ReadFunc) (key : Bytes) :
    EndsBacked config readFunc key ↔
      QuorumAgrees config.readQuorum (answers config readFunc key) := by
  by_cases hlen : (answers config readFunc key).length < config.readQuorum
  · exact iff_of_true (endsBacked_of_few hlen) (.inl hlen)
  · have hlen := Nat.not_lt.mp hlen
    have hseen := newest_seen (answers config readFunc key)
    rw [QuorumAgrees, or_iff_right (Nat.not_lt.mpr hlen)]
    by_cases hcount : config.readQuorum ≤ (newest (answers config readFunc key)).count
    · rw [endsBacked_iff_backers hpos hlen hcount]
      constructor
      · intro hquorum
        have hmem := List.count_pos_iff.mp (Nat.lt_of_lt_of_le hpos hquorum)
        exact ⟨_, hmem, hseen.le, hquorum, hseen.value⟩
      · rintro ⟨a, ha, hmax, hquorum, hfirst⟩
        obtain rfl := hseen.eq_of_agrees ha hmax hfirst
        exact hquorum
    · refine iff_of_false (not_endsBacked hpos hlen hcount) ?_
      rintro ⟨a, ha, hmax, hquorum, hfirst⟩
      obtain rfl := hseen.eq_of_agrees ha hmax hfirst
      refine hcount (hquorum.trans ?_)
      rw [hseen.count]
      refine List.countP_mono_left fun b _ hb => ?_
      rw [beq_iff_eq.mp hb]
      exact decide_eq_true rfl

/-- Two of three replicas agree. -/
theorem endsBacked_iff_three :
    EndsBacked ⟨3, 2⟩ (fun _ replica => if replica = 0 then none else some ([7], 4)) [1] ↔
      QuorumAgrees 2
        (answers ⟨3, 2⟩ (fun _ replica => if replica = 0 then none else some ([7], 4)) [1]) :=
  endsBacked_iff ⟨3, 2⟩ (by decide) _ _

/-- One replica is behind, another does not answer: the read goes on for ever. -/
theorem stale_replica_never_ends :
    (∀ turns, linearizableRead ⟨3, 2⟩
        (fun _ replica => if replica = 0 then none else some ([7], replica)) [1] turns = none) ∧
      ¬EndsBacked ⟨3, 2⟩
        (fun _ replica => if replica = 0 then none else some ([7], replica)) [1] := by
  have hnever : ∀ turns, linearizableRead ⟨3, 2⟩
      (fun _ replica => if replica = 0 then none else some ([7], replica)) [1] turns = none :=
    linearizableRead_never (by decide) (by decide)
  refine ⟨hnever, ?_⟩
  rintro ⟨⟨turns, r, hres⟩, -⟩
  rw [hnever] at hres
  cases hres

end ReadQuorum

end Mokv.LSM
