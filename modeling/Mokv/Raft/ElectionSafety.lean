import Mokv.Raft.ReplicaMoves

/-!
# Election safety

Two pods that win the same term were each voted for by a majority, so some pod voted for
both.  `Vote` lets a pod vote once in a term (`voted_`), but a candidate counts its own
ticket without setting `voted_`, and may then vote for another candidate of the same
term: two pods win term 1 in `two_leaders_of_one_term`.  And `Vote` compares a request with
`term_` several times, while `RequestVote` may increment it: two pods win term 1 with the
votes of a third in `racedVote`.  Where a pod votes in its own term only, and
not as a candidate or leader of it, and terms fit in the `int32` of a request, each term has
one winner (`unique_leader_of_votes_once`).

Two invariants carry the proof.  The tickets of a candidate are votes given to it in its
term (`Elections.Tallied`), and nobody votes twice in a term, its own ticket counted
(`Elections.Once`).
-/

namespace Mokv.Raft

open Lib

variable {N : Nat}

namespace Elections

/-! ### Tickets are votes -/

/-- Where a candidate in `RequestVote` stands: its tickets beyond the first are votes for
it in its term, and its request is for that term. -/
def CampaignOk (e : Elections N) (i : Fin N) (term : Int) : ElectionThread N → Prop
  | .asking rest n =>
    1 ≤ term ∧ term < 2 ^ 31 ∧ Tally (others i) (fun v => (v, i, term) ∈ e.grants) rest 1 n
  | .filling f rest n reqTerm =>
    (1 ≤ term ∧ term < 2 ^ 31 ∧
      Tally (others i) (fun v => (v, i, term) ∈ e.grants) (f :: rest) 1 n) ∧ reqTerm = term
  | .prepared f rest n req =>
    (1 ≤ term ∧ term < 2 ^ 31 ∧
      Tally (others i) (fun v => (v, i, term) ∈ e.grants) (f :: rest) 1 n) ∧
      req.id = i ∧ req.dst = f ∧ req.term = term
  | .calling f rest n call =>
    (1 ≤ term ∧ term < 2 ^ 31 ∧
      Tally (others i) (fun v => (v, i, term) ∈ e.grants) (f :: rest) 1 n) ∧
      ∃ req, e.calls.sent[call]? = some req ∧ req.id = i ∧ req.dst = f ∧ req.term = term
  | _ => True

/-- What holds when a handler holds the mutex of pod `i`, in the state `p`: its request is for this
pod, and the term that is about to be stored is above what the pod voted in and won. -/
def HolderOk (e : Elections N) (i : Fin N) (p : Pod N) : Holder N → Prop
  | .testing call _ _ => ∃ req, e.calls.sent[call]? = some req ∧ req.dst = i
  | .raising cause call term =>
    (0 ≤ term ∧ p.won ≤ term ∧ ∀ c T, (i, c, T) ∈ e.grants → T ≤ term) ∧
      (cause = .vote → ∃ req, e.calls.sent[call]? = some req ∧ req.dst = i ∧ req.term = term)
  | .stopping st =>
    st.cause = .vote → ∃ req, e.calls.sent[st.call]? = some req ∧ req.dst = i ∧ req.term ≤ p.term

/-- What holds of the state `p` of pod `i`. -/
structure PodOk (e : Elections N) (i : Fin N) (p : Pod N) : Prop where
  term_nonneg : 0 ≤ p.term
  grant : ∀ c T, (i, c, T) ∈ e.grants → 1 ≤ T ∧ T ≤ p.term ∧ c ≠ i
  campaign : p.status = .candidate → p.stopping = none → CampaignOk e i p.term p.thread
  leader : p.status = .leader → p.thread.quiet = true ∧ (p.stopping = none → p.term = p.won) ∧
    ∀ c T, (i, c, T) ∈ e.grants → T ≤ p.won
  promoting : ∀ rest, p.thread = .promoting rest →
    p.status = .leader ∧ p.holder = none
  holder : ∀ h, p.holder = some h → HolderOk e i p h
  won_le : p.won ≤ p.term

/-- The votes, the calls and the wins fit together. -/
structure Tallied (e : Elections N) : Prop where
  pod : ∀ i, PodOk e i (e.pod i)
  sent : ∀ req ∈ e.calls.sent, 1 ≤ req.term ∧ req.id ≠ req.dst
  rsp : ∀ call, (call, 0) ∈ e.calls.rsps →
    ∃ req, e.calls.sent[call]? = some req ∧ (req.dst, req.id, req.term) ∈ e.grants
  win : ∀ i T, (i, T) ∈ e.wins → ∃ S : Finset (Fin N), Majority S ∧
    ∀ v ∈ S, v = i ∨ (v, i, T) ∈ e.grants

/-- Later states have the earlier votes and calls. -/
structure Grown (e e' : Elections N) : Prop where
  grants : ∀ x ∈ e.grants, x ∈ e'.grants
  sent : ∀ (call : Nat) req, e.calls.sent[call]? = some req → e'.calls.sent[call]? = some req

theorem CampaignOk.mono {e e' : Elections N} {i : Fin N} {term : Int} {th : ElectionThread N}
    (hg : Grown e e') (h : CampaignOk e i term th) : CampaignOk e' i term th := by
  cases th with
  | asking rest n => exact ⟨h.1, h.2.1, h.2.2.mono fun v hv => hg.grants _ hv⟩
  | filling f rest n reqTerm =>
    exact ⟨⟨h.1.1, h.1.2.1, h.1.2.2.mono fun v hv => hg.grants _ hv⟩, h.2⟩
  | prepared f rest n req =>
    exact ⟨⟨h.1.1, h.1.2.1, h.1.2.2.mono fun v hv => hg.grants _ hv⟩, h.2⟩
  | calling f rest n call =>
    obtain ⟨h1, req, hs, h2⟩ := h
    exact ⟨⟨h1.1, h1.2.1, h1.2.2.mono fun v hv => hg.grants _ hv⟩, req, hg.sent _ _ hs, h2⟩
  | waiting => trivial
  | timedOut => trivial
  | promoting rest => trivial
  | beating rest => trivial
  | beat f rest term => trivial

theorem CampaignOk.of_quiet {e : Elections N} {i : Fin N} {term : Int} {th : ElectionThread N}
    (h : th.quiet = true) : CampaignOk e i term th := by
  cases th with
  | asking rest n => cases h
  | filling f rest n reqTerm => cases h
  | prepared f rest n req => cases h
  | calling f rest n call => cases h
  | timedOut => cases h
  | waiting => trivial
  | promoting rest => trivial
  | beating rest => trivial
  | beat f rest term => trivial

theorem HolderOk.mono {e e' : Elections N} {i : Fin N} {p : Pod N} {x : Holder N}
    (hg : Grown e e') (hi : ∀ c T, (i, c, T) ∈ e'.grants → (i, c, T) ∈ e.grants)
    (h : HolderOk e i p x) : HolderOk e' i p x := by
  cases x with
  | testing call index test =>
    obtain ⟨req, hs, hdst⟩ := h
    exact ⟨req, hg.sent _ _ hs, hdst⟩
  | raising cause call term =>
    obtain ⟨⟨h0, hwon, hgrants⟩, hreq⟩ := h
    refine ⟨⟨h0, hwon, fun c T hc => hgrants c T (hi c T hc)⟩, fun hcause => ?_⟩
    obtain ⟨req, hs, hr⟩ := hreq hcause
    exact ⟨req, hg.sent _ _ hs, hr⟩
  | stopping st =>
    intro hcause
    obtain ⟨req, hs, hr⟩ := h hcause
    exact ⟨req, hg.sent _ _ hs, hr⟩

theorem HolderOk.term_le {e : Elections N} {i : Fin N} {p : Pod N} {x : Holder N}
    (h : HolderOk e i p x) {T : Int} (hT : p.term ≤ T) (th : ElectionThread N) :
    HolderOk e i { p with term := T, thread := th } x := by
  cases x with
  | testing call index test => exact h
  | raising cause call term => exact h
  | stopping st =>
    intro hcause
    obtain ⟨req, h1, h2, h3⟩ := h hcause
    exact ⟨req, h1, h2, h3.trans hT⟩

theorem PodOk.mono {e e' : Elections N} {i : Fin N} {p : Pod N} (hg : Grown e e')
    (hi : ∀ c T, (i, c, T) ∈ e'.grants → (i, c, T) ∈ e.grants) (h : PodOk e i p) :
    PodOk e' i p where
  term_nonneg := h.term_nonneg
  grant c T hc := h.grant c T (hi c T hc)
  campaign hc hs := (h.campaign hc hs).mono hg
  leader hl := ⟨(h.leader hl).1, (h.leader hl).2.1, fun c T hc => (h.leader hl).2.2 c T (hi c T hc)⟩
  promoting := h.promoting
  holder x hx := (h.holder x hx).mono hg hi
  won_le := h.won_le

theorem PodOk.not_leader {e : Elections N} {i : Fin N} {p : Pod N} (h : PodOk e i p)
    (hth : p.thread.quiet = false) : p.status ≠ .leader := by
  intro hl
  rw [(h.leader hl).1] at hth
  cases hth

theorem PodOk.not_promoting {e : Elections N} {i : Fin N} {p : Pod N} (h : PodOk e i p)
    {x : Holder N} (hx : p.holder = some x) (rest : List (Fin N)) : p.thread ≠ .promoting rest := by
  intro hr
  have hnone := (h.promoting rest hr).2
  rw [hx] at hnone
  cases hnone

theorem PodOk.stop {e : Elections N} {i : Fin N} {p : Pod N} (h : PodOk e i p)
    {rest : List (Fin N)} {call : Nat} (hst : p.stopping = some ⟨rest, .vote, call⟩) :
    ∃ req, e.calls.sent[call]? = some req ∧ req.dst = i ∧ req.term ≤ p.term :=
  h.holder _ (Pod.holder_of_stopping hst) rfl

theorem PodOk.grant_le {e : Elections N} {i : Fin N} {p : Pod N} (h : PodOk e i p) {B : Int}
    (hB : p.term ≤ B) : ∀ c T, (i, c, T) ∈ e.grants → 1 ≤ T ∧ T ≤ B ∧ c ≠ i := by
  intro c T hx
  obtain ⟨h1, h2, h3⟩ := h.grant c T hx
  exact ⟨h1, h2.trans hB, h3⟩

theorem PodOk.not_granted {e : Elections N} {i : Fin N} {p : Pod N} (h : PodOk e i p) {T : Int}
    (hT : p.term < T) (c : Fin N) : (i, c, T) ∉ e.grants := by
  intro hx
  exact absurd (h.grant c T hx).2.1 (not_le.mpr hT)

theorem PodOk.toInt64_succ {e : Elections N} {i : Fin N} {p : Pod N} (h : PodOk e i p)
    (hfit : p.term + 1 < 2 ^ 31) : toInt64 (p.term + 1) = p.term + 1 := by
  have h0 := h.term_nonneg
  exact toInt64_of_nonneg (by omega) (by omega)

theorem PodOk.setThread {e : Elections N} {i : Fin N} {p : Pod N} (h : PodOk e i p)
    (hq : p.thread.quiet = false) {th : ElectionThread N} (hth : th.running = true)
    (hc : p.status = .candidate → p.stopping = none → CampaignOk e i p.term th) :
    PodOk e i { p with thread := th } where
  term_nonneg := h.term_nonneg
  grant := h.grant
  campaign := hc
  leader hl := absurd hl (h.not_leader hq)
  promoting rest hr := by
    obtain rfl : th = .promoting rest := hr
    cases hth
  holder := h.holder
  won_le := h.won_le

theorem PodOk.setHolder {e : Elections N} {i : Fin N} {p : Pod N} (h : PodOk e i p)
    (hst : p.stopping = none) (hpr : ∀ rest, p.thread ≠ .promoting rest) {x : Option (Holder N)}
    (hx : ∀ y, x = some y → HolderOk e i p y) : PodOk e i { p with holder := x } where
  term_nonneg := h.term_nonneg
  grant := h.grant
  campaign hc _ := h.campaign hc hst
  leader hl := ⟨(h.leader hl).1, fun _ => (h.leader hl).2.1 hst, (h.leader hl).2.2⟩
  promoting rest hr := absurd hr (hpr rest)
  holder := hx
  won_le := h.won_le

theorem Tallied.update {e e' : Elections N} (h : Tallied e) (i : Fin N) (hg : Grown e e')
    (hnew : ∀ v c T, (v, c, T) ∈ e'.grants → v ≠ i → (v, c, T) ∈ e.grants)
    (hpods : ∀ j, j ≠ i → e'.pod j = e.pod j) (hpod : PodOk e' i (e'.pod i))
    (hsent : ∀ req ∈ e'.calls.sent, 1 ≤ req.term ∧ req.id ≠ req.dst)
    (hrsp : ∀ call, (call, 0) ∈ e'.calls.rsps → (call, 0) ∈ e.calls.rsps ∨
      ∃ req, e'.calls.sent[call]? = some req ∧ (req.dst, req.id, req.term) ∈ e'.grants)
    (hwin : ∀ j T, (j, T) ∈ e'.wins → (j, T) ∈ e.wins ∨ ∃ S : Finset (Fin N), Majority S ∧
      ∀ v ∈ S, v = j ∨ (v, j, T) ∈ e'.grants) : Tallied e' where
  pod j := by
    by_cases hj : j = i
    · rw [hj]
      exact hpod
    · rw [hpods j hj]
      exact (h.pod j).mono hg fun c T hc => hnew j c T hc hj
  sent := hsent
  rsp call hc := by
    rcases hrsp call hc with hc | hc
    · obtain ⟨req, h1, h2⟩ := h.rsp call hc
      exact ⟨req, hg.sent _ _ h1, hg.grants _ h2⟩
    · exact hc
  win j T hj := by
    rcases hwin j T hj with hj | hj
    · obtain ⟨S, hS, hv⟩ := h.win j T hj
      exact ⟨S, hS, fun v hvS => (hv v hvS).imp_right fun hvg => hg.grants _ hvg⟩
    · exact hj

theorem Tallied.setPod {e : Elections N} (h : Tallied e) {i : Fin N} {p : Pod N}
    (hp : PodOk e i p) : Tallied (e.setPod i p) := by
  have hg : Grown e (e.setPod i p) := ⟨fun _ hx => hx, fun _ _ hs => hs⟩
  refine h.update i hg (fun v c T hx _ => hx) (fun j hj => setPod_pod_ne e p hj) ?_ h.sent
    (fun call hc => Or.inl hc) (fun j T hj => Or.inl hj)
  rw [setPod_pod_self]
  exact hp.mono hg fun c T hc => hc

theorem Tallied.grant {e e' : Elections N} (h : Tallied e) {i : Fin N} {call : Nat}
    {req : RequestVoteReq N} (hs : e.calls.sent[call]? = some req) (hdst : req.dst = i)
    (hsent : e'.calls.sent = e.calls.sent) (hrsps : e'.calls.rsps = (call, 0) :: e.calls.rsps)
    (hgrants : e'.grants = (i, req.id, req.term) :: e.grants) (hwins : e'.wins = e.wins)
    (hpods : ∀ j, j ≠ i → e'.pod j = e.pod j) (hpod : PodOk e' i (e'.pod i)) : Tallied e' := by
  have hg : Grown e e' :=
    ⟨fun x hx => by rw [hgrants]; exact List.mem_cons_of_mem _ hx, fun c r hr => by
      rw [hsent]; exact hr⟩
  refine h.update i hg (?_) hpods hpod (by rw [hsent]; exact h.sent)
    (?_) (fun j T hj => Or.inl (by rw [hwins] at hj; exact hj))
  · intro v c T hx hv
    rw [hgrants] at hx
    rcases List.mem_cons.mp hx with hx | hx
    · exact absurd (congrArg Prod.fst hx) hv
    · exact hx
  · intro c hc
    rw [hrsps] at hc
    rcases List.mem_cons.mp hc with hc | hc
    · obtain rfl : c = call := congrArg Prod.fst hc
      exact Or.inr ⟨req, hg.sent _ _ hs, by rw [hgrants, hdst]; exact List.mem_cons_self ..⟩
    · exact Or.inl hc

theorem PodOk.grant_cons {e e' : Elections N} {i c : Fin N} {T B : Int}
    (hgrants : e'.grants = (i, c, T) :: e.grants) (hT : 1 ≤ T ∧ T ≤ B ∧ c ≠ i)
    (h : ∀ c T, (i, c, T) ∈ e.grants → 1 ≤ T ∧ T ≤ B ∧ c ≠ i) :
    ∀ c T, (i, c, T) ∈ e'.grants → 1 ≤ T ∧ T ≤ B ∧ c ≠ i := by
  intro c' T' hx
  rw [hgrants] at hx
  rcases List.mem_cons.mp hx with hx | hx
  · obtain ⟨-, rfl, rfl⟩ := Prod.mk.injEq .. ▸ hx
    exact hT
  · exact h c' T' hx

/-- **Tickets stay votes.** -/
theorem Tallied.move {G : Guard N} {e e' : Elections N} (h : Tallied e) (hfits : G.fits)
    (hm : Move G e e') : Tallied e' := by
  cases hm with
  | quiet i th hq hp =>
    have hi := h.pod i
    refine h.setPod ⟨hi.term_nonneg, hi.grant, fun _ _ => CampaignOk.of_quiet hq, fun hl =>
      ⟨hq, (hi.leader hl).2⟩, ?_, hi.holder, hi.won_le⟩
    intro rest hrest
    obtain ⟨f, hf⟩ := hp rest hrest
    exact hi.promoting _ hf
  | timeOut i hw hl =>
    have hi := h.pod i
    exact h.setPod
      ⟨hi.term_nonneg, hi.grant, fun _ _ => trivial, nofun, nofun, hi.holder, hi.won_le⟩
  | requestVote i hth hfit =>
    have hi := h.pod i
    have h0 := hi.term_nonneg
    have hfit := hfit hfits
    have hnl := hi.not_leader (by rw [hth]; rfl)
    have hle : (e.pod i).term ≤ (e.pod i).term + 1 := by omega
    rw [hi.toInt64_succ hfit]
    refine h.setPod ⟨h0.trans hle, hi.grant_le hle, fun _ _ => ⟨?_, hfit, Tally.start _ _ _⟩,
      fun hl => absurd hl hnl, nofun, fun x hx => (hi.holder x hx).term_le hle _,
      hi.won_le.trans hle⟩
    show 1 ≤ (e.pod i).term + 1
    omega
  | fill i f rest n hth =>
    have hi := h.pod i
    refine h.setPod (hi.setThread (by rw [hth]; rfl) rfl ?_)
    intro hc hs
    have hca := hi.campaign hc hs
    rw [hth] at hca
    exact ⟨hca, toInt32_of_nonneg hi.term_nonneg hca.2.1⟩
  | prepare i f rest n term index hth =>
    have hi := h.pod i
    refine h.setPod (hi.setThread (by rw [hth]; rfl) rfl ?_)
    intro hc hs
    have hca := hi.campaign hc hs
    rw [hth] at hca
    exact ⟨hca.1, rfl, rfl, hca.2⟩
  | call i f rest n req hth hh hc =>
    have hi := h.pod i
    have hca := hi.campaign hc (Pod.stopping_of_holder hh)
    rw [hth] at hca
    obtain ⟨hca, hid, hdst, hterm⟩ := hca
    have hf : f ≠ i := mem_others.mp hca.2.2.mem_all
    have hg : Grown e { e.setPod i { e.pod i with
        thread := .calling f rest n e.calls.sent.length } with calls := e.calls.send req } :=
      ⟨fun x hx => hx, fun call r hr => Net.getElem?_send hr⟩
    refine h.update i hg (fun v c T hx _ => hx) (fun j hj => setPod_pod_ne e _ hj) ?_
      (?_) (fun call hr => Or.inl hr) (fun j T hj => Or.inl hj)
    · simp only [setPod_pod_self]
      refine (hi.mono hg fun c T hx => hx).setThread (by rw [hth]; rfl) rfl ?_
      intro _ _
      exact ⟨⟨hca.1, hca.2.1, hca.2.2⟩, req, Net.getElem?_send_length _ _, hid, hdst, hterm⟩
    · intro r hr
      rcases Net.mem_send.mp hr with hr | rfl
      · exact h.sent r hr
      · rw [hterm, hid, hdst]
        exact ⟨hca.1, hf.symm⟩
  | answer i f rest n call code hth hr =>
    have hi := h.pod i
    refine h.setPod (hi.setThread (by rw [hth]; rfl) rfl ?_)
    intro hc hs
    have hca := hi.campaign hc hs
    rw [hth] at hca
    obtain ⟨hca, req, hsent, hid, hdst, hterm⟩ := hca
    refine ⟨hca.1, hca.2.1, hca.2.2.step (nodup_others i) ?_⟩
    intro hcode
    obtain ⟨req', hsent', hgr⟩ := h.rsp call (by rw [hcode] at hr; exact hr)
    obtain rfl : req = req' := Option.some.inj (hsent.symm.trans hsent')
    rw [hid, hdst, hterm] at hgr
    exact hgr
  | fail i f rest n call hth =>
    have hi := h.pod i
    refine h.setPod (hi.setThread (by rw [hth]; rfl) rfl ?_)
    intro hc hs
    have hca := hi.campaign hc hs
    rw [hth] at hca
    exact ⟨hca.1.1, hca.1.2.1, hca.1.2.2.skip⟩
  | win i n hth hh hc hn =>
    have hi := h.pod i
    have hca := hi.campaign hc (Pod.stopping_of_holder hh)
    rw [hth] at hca
    obtain ⟨h1, h2, -, S, hS, hcard⟩ := hca
    refine h.update i ⟨fun x hx => hx, fun _ _ hs => hs⟩ (fun v c T hx _ => hx)
      (fun j hj => setPod_pod_ne e _ hj) ?_ h.sent (fun call hr => Or.inl hr) (?_)
    · simp only [setPod_pod_self]
      refine ⟨hi.term_nonneg, hi.grant, nofun,
        fun _ => ⟨rfl, fun _ => rfl, fun c T hx => (hi.grant c T hx).2.1⟩,
        fun _ _ => ⟨rfl, hh⟩, ?_, le_refl _⟩
      intro x hx
      rw [hh] at hx
      cases hx
    · intro j T hj
      rcases List.mem_cons.mp hj with hj | hj
      · obtain ⟨rfl, rfl⟩ := Prod.mk.injEq .. ▸ hj
        refine Or.inr ⟨insert j S, majority_insert (?_) (by omega), ?_⟩
        · intro hjS
          exact mem_others.mp (hS j hjS).1 rfl
        · intro v hv
          exact (Finset.mem_insert.mp hv).imp_right fun hvS => (hS v hvS).2.2
      · exact Or.inl hj
  | vote call req index hs hlock =>
    have hi := h.pod req.dst
    have hh := Pod.holder_of_not_locked hlock
    have hg : Grown e { e.setPod req.dst { e.pod req.dst with
        holder := some (.testing call index .older) } with calls := e.calls.deliver call } :=
      ⟨fun x hx => hx, fun _ _ hs => hs⟩
    refine h.update req.dst hg (fun v c T hx _ => hx) (fun j hj => setPod_pod_ne e _ hj) ?_ h.sent
      (fun c hr => Or.inl hr) (fun j T hj => Or.inl hj)
    simp only [setPod_pod_self]
    refine (hi.setHolder (Pod.stopping_of_holder hh) (Pod.not_promoting_of_not_locked hlock)
      ?_).mono hg fun c T hx => hx
    intro x hx
    obtain rfl := Option.some.inj hx
    exact ⟨req, hs, rfl⟩
  | pass i call index test next req hh hs hvoted =>
    have hi := h.pod i
    have hreq := hi.holder _ hh
    refine h.setPod (hi.setHolder (Pod.stopping_of_ne hh (by simp)) (hi.not_promoting hh) ?_)
    intro x hx
    obtain rfl := Option.some.inj hx
    exact hreq
  | refuse i call index test hh =>
    have hi := h.pod i
    have hg : Grown e { e.setPod i { e.pod i with holder := none } with
        calls := e.calls.reply call (-1) } := ⟨fun x hx => hx, fun _ _ hs => hs⟩
    refine h.update i hg (fun v c T hx _ => hx) (fun j hj => setPod_pod_ne e _ hj) ?_ h.sent
      ?_ (fun j T hj => Or.inl hj)
    · simp only [setPod_pod_self]
      refine (hi.setHolder (Pod.stopping_of_ne hh (by simp)) (hi.not_promoting hh) ?_).mono hg
        fun c T hx => hx
      intro x hx
      cases hx
    · intro c hc
      rcases List.mem_cons.mp hc with hc | hc
      · exact absurd (congrArg Prod.snd hc) (by simp)
      · exact Or.inl hc
  | grant i call index req hh hs hterm hv honce =>
    have hi := h.pod i
    have hst := Pod.stopping_of_ne hh (by simp)
    have hreq := h.sent req (List.mem_of_getElem? hs)
    obtain ⟨req', hs', hdst⟩ := hi.holder _ hh
    obtain rfl : req = req' := Option.some.inj (hs.symm.trans hs')
    refine h.grant hs hdst rfl rfl rfl rfl (fun j hj => setPod_pod_ne e _ hj) ?_
    simp only [setPod_pod_self]
    have hg : Grown e { e.setPod i { e.pod i with voted := true, holder := none } with
        calls := e.calls.reply call 0
        grants := (i, req.id, req.term) :: e.grants } :=
      ⟨fun x hx => List.mem_cons_of_mem _ hx, fun _ _ hs => hs⟩
    refine ⟨hi.term_nonneg,
      PodOk.grant_cons rfl ⟨hreq.1, hterm, by rw [← hdst]; exact hreq.2⟩ hi.grant,
      fun hc _ => (hi.campaign hc hst).mono hg, ?_,
      fun r hr => absurd hr (hi.not_promoting hh r), nofun, hi.won_le⟩
    intro hl
    obtain ⟨h1, h2, h3⟩ := hi.leader hl
    refine ⟨h1, fun _ => h2 hst, ?_⟩
    intro c T hx
    rcases List.mem_cons.mp hx with hx | hx
    · obtain ⟨-, rfl, rfl⟩ := Prod.mk.injEq .. ▸ hx
      rw [← h2 hst]
      exact hterm
    · exact h3 c T hx
  | newer i call index req hh hs hterm =>
    have hi := h.pod i
    obtain ⟨req', hs', hdst⟩ := hi.holder _ hh
    obtain rfl : req = req' := Option.some.inj (hs.symm.trans hs')
    refine h.setPod (hi.setHolder (Pod.stopping_of_ne hh (by simp)) (hi.not_promoting hh) ?_)
    intro x hx
    obtain rfl := Option.some.inj hx
    exact ⟨⟨hi.term_nonneg.trans hterm.le, hi.won_le.trans hterm.le, fun c T hc =>
      (hi.grant_le hterm.le c T hc).2.1⟩, fun _ => ⟨req, hs, hdst, rfl⟩⟩
  | take i call term hlock hterm =>
    have hi := h.pod i
    have h0 := hi.term_nonneg
    have hle : (e.pod i).term ≤ term := by omega
    have hst := Pod.stopping_of_holder (Pod.holder_of_not_locked hlock)
    refine h.setPod (hi.setHolder hst (Pod.not_promoting_of_not_locked hlock) ?_)
    intro x hx
    obtain rfl := Option.some.inj hx
    exact ⟨⟨h0.trans hle, hi.won_le.trans hle, fun c T hc => (hi.grant_le hle c T hc).2.1⟩, nofun⟩
  | store i cause call term voted rest hh hrest =>
    have hi := h.pod i
    obtain ⟨⟨h0, hwon, hgrants⟩, hreq⟩ := hi.holder _ hh
    refine h.setPod ⟨h0, ?_, nofun, fun hl => ⟨(hi.leader hl).1, nofun, (hi.leader hl).2.2⟩,
      fun r hr => absurd hr (hi.not_promoting hh r), ?_, hwon⟩
    · intro c T hc
      exact ⟨(hi.grant c T hc).1, hgrants c T hc, (hi.grant c T hc).2.2⟩
    · intro x hx
      obtain rfl := Option.some.inj hx
      intro hcause
      obtain ⟨req, hs, hdst, hterm⟩ := hreq hcause
      exact ⟨req, hs, hdst, hterm.le⟩
  | voteStopped i call req hst hs hv =>
    have hi := h.pod i
    obtain ⟨req', hs', hdst, hterm⟩ := hi.stop hst
    obtain rfl : req = req' := Option.some.inj (hs.symm.trans hs')
    have hreq := h.sent req (List.mem_of_getElem? hs)
    refine h.grant hs hdst rfl rfl rfl rfl (fun j hj => setPod_pod_ne e _ hj) ?_
    simp only [setPod_pod_self]
    refine ⟨hi.term_nonneg, PodOk.grant_cons rfl ⟨hreq.1, hterm, by rw [← hdst]; exact hreq.2⟩
      hi.grant, nofun, nofun, ?_, nofun, hi.won_le⟩
    exact fun rest hr => absurd hr (hi.not_promoting (Pod.holder_of_stopping hst) rest)
  | join i f rest cause call hst hoff =>
    have hi := h.pod i
    have hh := Pod.holder_of_stopping hst
    refine h.setPod ⟨hi.term_nonneg, hi.grant, nofun, fun hl => ⟨(hi.leader hl).1, nofun,
      (hi.leader hl).2.2⟩, fun r hr => absurd hr (hi.not_promoting hh r), ?_, hi.won_le⟩
    intro x hx
    obtain rfl := Option.some.inj hx
    exact hi.holder _ hh
  | adopted i leaderId call hst =>
    have hi := h.pod i
    refine h.setPod ⟨hi.term_nonneg, hi.grant, nofun, nofun, ?_, nofun, hi.won_le⟩
    exact fun rest hr => absurd hr (hi.not_promoting (Pod.holder_of_stopping hst) rest)

theorem tallied_init : (init N).Tallied where
  pod _ := ⟨le_refl _, nofun, nofun, nofun, nofun, nofun, le_refl _⟩
  sent := nofun
  rsp := nofun
  win := nofun

/-! ### Nobody votes twice -/

/-- The vote that a handler is about to give is the first of pod `i` in its term, unless the
term has passed, and a term about to be stored is above those that the pod won. -/
def HolderOnce (e : Elections N) (i : Fin N) (p : Pod N) : Holder N → Prop
  | .testing call _ test => test = .newer → ∀ req, e.calls.sent[call]? = some req →
    (∀ c, (i, c, req.term) ∉ e.grants) ∨ req.term < p.term
  | .raising _ _ term => (∀ c, (i, c, term) ∉ e.grants) ∧ ∀ T, (i, T) ∈ e.wins → T < term
  | .stopping st => (∀ T, (i, T) ∈ e.wins → T < p.term) ∧
    (st.cause = .vote → ∀ req, e.calls.sent[st.call]? = some req →
      (∀ c, (i, c, req.term) ∉ e.grants) ∧ ∀ T, (i, T) ∈ e.wins → T < req.term)

/-- What holds of the state `p` of pod `i`: `voted` remembers a vote in its term, it has
not voted in the term it campaigns for or has won, and a vote under way is the first of
its term. -/
structure PodOnce (e : Elections N) (i : Fin N) (p : Pod N) : Prop where
  voted : ∀ c, (i, c, p.term) ∈ e.grants → p.voted = true
  campaign : p.Campaigning → p.stopping = none → ∀ c, (i, c, p.term) ∉ e.grants
  won : ∀ T, (i, T) ∈ e.wins → 1 ≤ T ∧ T ≤ p.term ∧ (T = p.term → p.status = .leader) ∧
    ∀ c, (i, c, T) ∉ e.grants
  holder : ∀ h, p.holder = some h → HolderOnce e i p h

/-- One vote a term. -/
structure Once (e : Elections N) : Prop where
  pod : ∀ i, PodOnce e i (e.pod i)
  unique : ∀ v c c' T, (v, c, T) ∈ e.grants → (v, c', T) ∈ e.grants → c = c'

theorem HolderOnce.mono {e e' : Elections N} {i : Fin N} {p : Pod N} {x : Holder N}
    (hok : HolderOk e i p x) (hgrants : ∀ c T, (i, c, T) ∈ e'.grants → (i, c, T) ∈ e.grants)
    (hwins : ∀ T, (i, T) ∈ e'.wins → (i, T) ∈ e.wins)
    (hsent : ∀ call req, call < e.calls.sent.length → e'.calls.sent[call]? = some req →
      e.calls.sent[call]? = some req)
    (h : HolderOnce e i p x) : HolderOnce e' i p x := by
  cases x with
  | testing call index test =>
    obtain ⟨req', hs', -⟩ := hok
    intro htest req hs
    have hs := hsent call req (List.getElem?_eq_some_iff.mp hs').1 hs
    exact (h htest req hs).imp_left fun hnew c hc => hnew c (hgrants c _ hc)
  | raising cause call term =>
    exact ⟨fun c hc => h.1 c (hgrants c _ hc), fun T hT => h.2 T (hwins T hT)⟩
  | stopping st =>
    refine ⟨fun T hT => h.1 T (hwins T hT), ?_⟩
    intro hcause req hs
    obtain ⟨req', hs', -⟩ := hok hcause
    have hs := hsent st.call req (List.getElem?_eq_some_iff.mp hs').1 hs
    obtain ⟨h1, h2⟩ := h.2 hcause req hs
    exact ⟨fun c hc => h1 c (hgrants c _ hc), fun T hT => h2 T (hwins T hT)⟩

theorem Once.update {e e' : Elections N} (h : Once e) (ht : Tallied e) (i : Fin N)
    (hgrants : ∀ v c T, (v, c, T) ∈ e'.grants → v ≠ i → (v, c, T) ∈ e.grants)
    (hwins : ∀ j T, (j, T) ∈ e'.wins → j ≠ i → (j, T) ∈ e.wins)
    (hsent : ∀ call req, call < e.calls.sent.length → e'.calls.sent[call]? = some req →
      e.calls.sent[call]? = some req)
    (hpods : ∀ j, j ≠ i → e'.pod j = e.pod j) (hpod : PodOnce e' i (e'.pod i))
    (huniq : ∀ c c' T, (i, c, T) ∈ e'.grants → (i, c', T) ∈ e'.grants → c = c') : Once e' where
  pod j := by
    by_cases hj : j = i
    · rw [hj]
      exact hpod
    · have hjo := h.pod j
      rw [hpods j hj]
      refine ⟨fun c hc => hjo.voted c (hgrants _ _ _ hc hj), fun hc hs c hx =>
        hjo.campaign hc hs c (hgrants _ _ _ hx hj), ?_, fun x hx =>
        (hjo.holder x hx).mono ((ht.pod j).holder x hx) (fun c T hc => hgrants _ _ _ hc hj)
          (fun T hT => hwins _ _ hT hj) hsent⟩
      intro T hT
      obtain ⟨h1, h2, h3, h4⟩ := hjo.won T (hwins _ _ hT hj)
      exact ⟨h1, h2, h3, fun c hx => h4 c (hgrants _ _ _ hx hj)⟩
  unique v c c' T hc hc' := by
    by_cases hv : v = i
    · subst hv
      exact huniq c c' T hc hc'
    · exact h.unique v c c' T (hgrants _ _ _ hc hv) (hgrants _ _ _ hc' hv)

theorem Once.setPod {e : Elections N} (h : Once e) (ht : Tallied e) {i : Fin N} {p : Pod N}
    (hp : PodOnce e i p) : Once (e.setPod i p) := by
  refine h.update ht i (fun _ _ _ hx _ => hx) (fun _ _ hx _ => hx) (fun _ _ _ hs => hs)
    (fun j hj => setPod_pod_ne e p hj) ?_ (h.unique i)
  rw [setPod_pod_self]
  exact ⟨hp.voted, hp.campaign, hp.won, hp.holder⟩

/-- The state of a pod that votes for `c` in term `T`, having not voted in it before. -/
theorem Once.grant {e e' : Elections N} (h : Once e) (ht : Tallied e) {i c : Fin N} {T : Int}
    (hgrants : e'.grants = (i, c, T) :: e.grants) (hfirst : ∀ c', (i, c', T) ∉ e.grants)
    (hwins : e'.wins = e.wins) (hsent : e'.calls.sent = e.calls.sent)
    (hpods : ∀ j, j ≠ i → e'.pod j = e.pod j) (hpod : PodOnce e' i (e'.pod i)) : Once e' := by
  have hmem : ∀ v c' T', (v, c', T') ∈ e'.grants →
      (v = i ∧ c' = c ∧ T' = T) ∨ (v, c', T') ∈ e.grants := by
    intro v c' T' hx
    rw [hgrants] at hx
    rcases List.mem_cons.mp hx with hx | hx
    · obtain ⟨rfl, rfl, rfl⟩ := Prod.mk.injEq .. ▸ hx
      exact Or.inl ⟨rfl, rfl, rfl⟩
    · exact Or.inr hx
  refine h.update ht i (?_) (fun j T' hj _ => by rw [hwins] at hj; exact hj)
    (fun _ _ _ hs => by rw [hsent] at hs; exact hs) hpods hpod (?_)
  · intro v c' T' hx hv
    exact (hmem v c' T' hx).resolve_left fun hh => hv hh.1
  · intro c₁ c₂ T' h1 h2
    rcases hmem _ _ _ h1 with ⟨-, hc1, hT1⟩ | h1 <;> rcases hmem _ _ _ h2 with ⟨-, hc2, hT2⟩ | h2
    · rw [hc1, hc2]
    · rw [hT1] at h2
      exact absurd h2 (hfirst c₂)
    · rw [hT2] at h1
      exact absurd h1 (hfirst c₁)
    · exact h.unique i c₁ c₂ T' h1 h2

theorem running_of_quiet {th : ElectionThread N} (h : th.quiet = true) : th.running = false := by
  cases th <;> first | rfl | cases h

theorem PodOnce.setThread {e : Elections N} {i : Fin N} {p : Pod N} (h : PodOnce e i p)
    (hr : p.thread.running = true) (th : ElectionThread N) :
    PodOnce e i { p with thread := th } where
  voted := h.voted
  campaign hc hs := h.campaign ⟨hc.1, hr⟩ hs
  won := h.won
  holder := h.holder

theorem PodOnce.setHolder {e : Elections N} {i : Fin N} {p : Pod N} (h : PodOnce e i p)
    (hst : p.stopping = none) {x : Option (Holder N)}
    (hx : ∀ y, x = some y → HolderOnce e i p y) : PodOnce e i { p with holder := x } where
  voted := h.voted
  campaign hc _ := h.campaign hc hst
  won := h.won
  holder := hx

theorem PodOnce.won_lt {e : Elections N} {i : Fin N} {p : Pod N} (h : PodOnce e i p) {B : Int}
    (hB : p.term < B) (status : PodStatus) : ∀ T, (i, T) ∈ e.wins →
      1 ≤ T ∧ T ≤ B ∧ (T = B → status = .leader) ∧ ∀ c, (i, c, T) ∉ e.grants := by
  intro T hT
  obtain ⟨h1, h2, -, h4⟩ := h.won T hT
  exact ⟨h1, by omega, fun heq => by omega, h4⟩

/-- **Nobody comes to vote twice.** -/
theorem Once.move {G : Guard N} {e e' : Elections N} (h : Once e) (ht : Tallied e)
    (hfits : G.fits) (honce : G.once) (hm : Move G e e') : Once e' := by
  cases hm with
  | quiet i th hq hp =>
    have hi := h.pod i
    refine h.setPod ht ⟨hi.voted, ?_, hi.won, hi.holder⟩
    intro hc
    exact absurd (hc.2.symm.trans (running_of_quiet hq)) nofun
  | timeOut i hw hl =>
    have hi := h.pod i
    refine h.setPod ht ⟨hi.voted, ?_, ?_, hi.holder⟩
    · intro hc
      cases hc.2
    · intro T hT
      obtain ⟨h1, h2, h3, h4⟩ := hi.won T hT
      exact ⟨h1, h2, fun heq => absurd (h3 heq) hl, h4⟩
  | requestVote i hth hfit =>
    have hi := h.pod i
    have hlt : (e.pod i).term < (e.pod i).term + 1 := by omega
    have hnew := (ht.pod i).not_granted hlt
    rw [(ht.pod i).toInt64_succ (hfit hfits)]
    refine h.setPod ht
      ⟨fun c hx => absurd hx (hnew c), fun _ _ => hnew, hi.won_lt hlt _, ?_⟩
    intro x hx
    have hok := hi.holder x hx
    cases x with
    | testing call index test =>
      intro htest req hs
      exact (hok htest req hs).imp_right fun hpassed => hpassed.trans hlt
    | raising cause call term => exact hok
    | stopping st => exact ⟨fun T hT => (hok.1 T hT).trans hlt, hok.2⟩
  | fill i f rest n hth =>
    exact h.setPod ht ((h.pod i).setThread (by rw [hth]; rfl) _)
  | prepare i f rest n term index hth =>
    exact h.setPod ht ((h.pod i).setThread (by rw [hth]; rfl) _)
  | call i f rest n req hth hh hc =>
    have hi := (h.pod i).setThread (by rw [hth]; rfl) (.calling f rest n e.calls.sent.length)
    refine h.update ht i (fun _ _ _ hx _ => hx) (fun _ _ hx _ => hx) (?_)
      (fun j hj => setPod_pod_ne e _ hj) ?_ (h.unique i)
    · intro c r hlt hs
      rw [← hs]
      exact (List.getElem?_append_left hlt).symm
    · simp only [setPod_pod_self]
      refine ⟨hi.voted, hi.campaign, hi.won, ?_⟩
      intro x hx
      rw [hh] at hx
      cases hx
  | answer i f rest n call code hth hr =>
    exact h.setPod ht ((h.pod i).setThread (by rw [hth]; rfl) _)
  | fail i f rest n call hth =>
    exact h.setPod ht ((h.pod i).setThread (by rw [hth]; rfl) _)
  | win i n hth hh hc hn =>
    have hi := h.pod i
    have hst := Pod.stopping_of_holder hh
    have hca := (ht.pod i).campaign hc hst
    rw [hth] at hca
    have hfirst := hi.campaign ⟨hc, by rw [hth]; rfl⟩ hst
    refine h.update ht i (fun _ _ _ hx _ => hx) (?_) (fun _ _ _ hs => hs)
      (fun j hj => setPod_pod_ne e _ hj) ?_ (h.unique i)
    · intro j T hj hne
      exact (List.mem_cons.mp hj).resolve_left fun hj => hne (congrArg Prod.fst hj)
    · simp only [setPod_pod_self]
      refine ⟨hi.voted, fun hca => (nomatch hca.1), ?_, ?_⟩
      · intro T hT
        rcases List.mem_cons.mp hT with hT | hT
        · obtain rfl : T = (e.pod i).term := congrArg Prod.snd hT
          exact ⟨hca.1, le_refl _, fun _ => rfl, hfirst⟩
        · obtain ⟨h1, h2, -, h4⟩ := hi.won T hT
          exact ⟨h1, h2, fun _ => rfl, h4⟩
      · intro x hx
        rw [hh] at hx
        cases hx
  | vote call req index hs hlock =>
    have hi := h.pod req.dst
    have hst := Pod.stopping_of_holder (Pod.holder_of_not_locked hlock)
    refine h.update ht req.dst (fun _ _ _ hx _ => hx) (fun _ _ hx _ => hx) (fun _ _ _ hs => hs)
      (fun j hj => setPod_pod_ne e _ hj) ?_ (h.unique _)
    simp only [setPod_pod_self]
    refine ⟨hi.voted, fun hc _ => hi.campaign hc hst, hi.won, ?_⟩
    intro x hx
    obtain rfl := Option.some.inj hx
    nofun
  | pass i call index test next req hh hs hvoted =>
    have hi := h.pod i
    have hst := Pod.stopping_of_ne hh (by simp)
    refine h.setPod ht (hi.setHolder hst ?_)
    intro x hx
    obtain rfl := Option.some.inj hx
    intro hnext req' hs'
    obtain rfl : req = req' := Option.some.inj (hs.symm.trans hs')
    rcases lt_trichotomy req.term (e.pod i).term with hlt | heq | hgt
    · exact Or.inr hlt
    · -- the pod has not voted in this term
      refine Or.inl fun c hc => ?_
      rw [heq] at hc
      have hv := hi.voted c hc
      rw [hvoted hnext heq] at hv
      cases hv
    · exact Or.inl ((ht.pod i).not_granted hgt)
  | refuse i call index test hh =>
    have hi := h.pod i
    have hst := Pod.stopping_of_ne hh (by simp)
    refine h.update ht i (fun _ _ _ hx _ => hx) (fun _ _ hx _ => hx) (fun _ _ _ hs => hs)
      (fun j hj => setPod_pod_ne e _ hj) ?_ (h.unique _)
    simp only [setPod_pod_self]
    exact ⟨hi.voted, fun hc _ => hi.campaign hc hst, hi.won, nofun⟩
  | grant i call index req hh hs hterm hv hnot =>
    have hi := h.pod i
    obtain ⟨heq, hleader, hcampaign⟩ := hnot honce
    have hfirst : ∀ c, (i, c, req.term) ∉ e.grants :=
      (hi.holder _ hh rfl req hs).resolve_right heq.not_lt
    refine h.grant ht rfl hfirst rfl rfl (fun j hj => setPod_pod_ne e _ hj) ?_
    simp only [setPod_pod_self]
    refine ⟨fun _ _ => rfl, fun hc => absurd hc hcampaign, ?_, nofun⟩
    intro T hT
    obtain ⟨h1, h2, h3, h4⟩ := hi.won T hT
    refine ⟨h1, h2, h3, ?_⟩
    intro c hx
    rcases List.mem_cons.mp hx with hx | hx
    · have hT : T = req.term := congrArg (fun x => x.2.2) hx
      exact hleader (h3 (hT.trans heq))
    · exact h4 c hx
  | newer i call index req hh hs hterm =>
    have hi := h.pod i
    have hst := Pod.stopping_of_ne hh (by simp)
    refine h.setPod ht (hi.setHolder hst ?_)
    intro x hx
    obtain rfl := Option.some.inj hx
    exact ⟨(ht.pod i).not_granted hterm, fun T hT => (hi.won T hT).2.1.trans_lt hterm⟩
  | take i call term hlock hterm =>
    have hi := h.pod i
    have hst := Pod.stopping_of_holder (Pod.holder_of_not_locked hlock)
    refine h.setPod ht (hi.setHolder hst ?_)
    intro x hx
    obtain rfl := Option.some.inj hx
    refine ⟨fun c hc => ?_, fun T hT => ?_⟩
    · have := (ht.pod i).grant c _ hc
      omega
    · have := hi.won T hT
      omega
  | store i cause call term voted rest hh hrest =>
    have hi := h.pod i
    obtain ⟨hnew, hlt⟩ := hi.holder _ hh
    refine h.setPod ht ⟨fun c hc => absurd hc (hnew c), nofun, ?_, ?_⟩
    · intro T hT
      obtain ⟨h1, -, -, h4⟩ := hi.won T hT
      exact ⟨h1, (hlt T hT).le, fun heq => absurd heq (hlt T hT).ne, h4⟩
    · intro x hx
      obtain rfl := Option.some.inj hx
      refine ⟨hlt, ?_⟩
      intro hcause req hs
      obtain ⟨req', hs', -, hterm⟩ := ((ht.pod i).holder _ hh).2 hcause
      obtain rfl : req = req' := Option.some.inj (hs.symm.trans hs')
      rw [hterm]
      exact ⟨hnew, hlt⟩
  | voteStopped i call req hst hs hv =>
    have hi := h.pod i
    obtain ⟨hraised, hvote⟩ := hi.holder _ (Pod.holder_of_stopping hst)
    obtain ⟨hfirst, hlt⟩ := hvote rfl req hs
    refine h.grant ht rfl hfirst rfl rfl (fun j hj => setPod_pod_ne e _ hj) ?_
    simp only [setPod_pod_self]
    refine ⟨fun _ _ => rfl, fun hc => (nomatch hc.1), ?_, nofun⟩
    intro T hT
    obtain ⟨h1, h2, -, h4⟩ := hi.won T hT
    refine ⟨h1, h2, fun heq => absurd heq (hraised T hT).ne, ?_⟩
    intro c hx
    rcases List.mem_cons.mp hx with hx | hx
    · have hT' : T = req.term := congrArg (fun x => x.2.2) hx
      exact absurd hT' (hlt T hT).ne
    · exact h4 c hx
  | join i f rest cause call hst hoff =>
    have hi := h.pod i
    refine h.setPod ht ⟨hi.voted, nofun, hi.won, ?_⟩
    intro x hx
    obtain rfl := Option.some.inj hx
    exact hi.holder _ (Pod.holder_of_stopping hst)
  | adopted i leaderId call hst =>
    have hi := h.pod i
    refine h.setPod ht ⟨hi.voted, fun hc => (nomatch hc.1), ?_, nofun⟩
    intro T hT
    obtain ⟨h1, h2, -, h4⟩ := hi.won T hT
    have hlt := (hi.holder _ (Pod.holder_of_stopping hst)).1 T hT
    exact ⟨h1, h2, fun heq => absurd heq hlt.ne, h4⟩

theorem once_init : (init N).Once :=
  ⟨fun _ => ⟨nofun, fun hc => (nomatch hc.1), nofun, nofun⟩, nofun⟩

/-- **Each term has one winner**: a pod in both majorities voted for both, or voted for the
other winner in the term it won. -/
theorem Once.unique_win {e : Elections N} (h : Once e) (ht : Tallied e) {i j : Fin N} {T : Int}
    (hi : (i, T) ∈ e.wins) (hj : (j, T) ∈ e.wins) : i = j := by
  obtain ⟨S, hS, hSv⟩ := ht.win i T hi
  obtain ⟨S', hS', hSv'⟩ := ht.win j T hj
  obtain ⟨v, hv, hv'⟩ := hS.inter hS'
  rcases hSv v hv with rfl | hg <;> rcases hSv' v hv' with rfl | hg'
  · rfl
  · exact absurd hg' (((h.pod v).won T hi).2.2.2 j)
  · exact absurd hg (((h.pod v).won T hj).2.2.2 i)
  · exact h.unique v i j T hg hg'

end Elections

/-! ### Runs -/

namespace Cluster

/-- Terms fit, and a pod votes in its own term only, and not as a candidate or leader of it. -/
def ElectionOk (s : Cluster N) (a : Action N) : Prop := s.TermsFit a ∧ s.VotesOnce a

instance (s : Cluster N) (a : Action N) : Decidable (s.ElectionOk a) :=
  inferInstanceAs (Decidable (_ ∧ _))

/-- The invariant of elections. -/
structure ElectionInv (s : Cluster N) : Prop where
  plain : s.Plain
  tallied : s.el.Tallied
  once : s.el.Once

theorem electionInv_init : (init N).ElectionInv :=
  ⟨plain_init, Elections.tallied_init, Elections.once_init⟩

theorem ElectionInv.step {s t : Cluster N} {a : Action N} (h : s.ElectionInv)
    (hok : s.ElectionOk a) (hstep : s.step a = some t) : t.ElectionInv := by
  have hg : Elects ⟨True, True, fun _ => True, fun _ _ => True⟩ s a t :=
    ⟨fun _ => hok.1, fun _ => hok.2, fun _ _ => trivial, fun _ _ _ => trivial⟩
  rcases move_of_step h.plain.entries hg hstep with he | hm
  · exact ⟨h.plain.step hstep, by rw [he]; exact h.tallied, by rw [he]; exact h.once⟩
  · exact ⟨h.plain.step hstep, h.tallied.move trivial hm, h.once.move h.tallied trivial trivial hm⟩

/-- **One leader a term.**  In a run in which terms fit in an `int32`, every vote is of the term
that the voter is still in, and neither a candidate in `RequestVote` nor a leader votes for
another pod in its own term, no two pods win the same term. -/
theorem unique_leader_of_votes_once {as : List (Action N)} {s : Cluster N}
    (hok : StepsOk step ElectionOk (init N) as) (hr : run step (init N) as = some s)
    {i j : Fin N} {T : Int} (hi : (i, T) ∈ s.el.wins) (hj : (j, T) ∈ s.el.wins) : i = j := by
  have hinv : s.ElectionInv :=
    run_invariant electionInv_init (fun _ _ _ h ha hs => h.step ha hs) hr hok
  exact hinv.once.unique_win hinv.tallied hi hj

/-- Pod `i` is elected in term 1, and pod `j` takes over in term 2. -/
def twoElections (i j : Fin 2) : List (Action 2) := List.flatten
  [[.elect (.timeOut i), .elect (.requestVote i)], Action.ask i, Action.test 0 j,
    [.elect (.storeTerm j), .elect (.voteStopped j), .elect (.voteAnswered i 0),
      .elect (.countTickets i), .promote i, .promote i, .elect (.timeOut j),
      .elect (.requestVote j)], Action.ask j, Action.test 1 i,
    [.elect (.storeTerm i), .join i, .elect (.voteStopped i), .elect (.voteAnswered j 0),
      .elect (.countTickets j)]]

theorem unique_leader_twoElections :
    ∃ s, run step (init 2) (twoElections 0 1) = some s ∧ s.el.wins = [(1, 2), (0, 1)] ∧
      ∀ j, (j, 2) ∈ s.el.wins → 1 = j := by
  obtain ⟨s, hs⟩ : ∃ s, run step (init 2) (twoElections 0 1) = some s :=
    Option.isSome_iff_exists.mp (by decide)
  have hw : s.el.wins = [(1, 2), (0, 1)] := by
    have hmap : (run step (init 2) (twoElections 0 1)).map (fun s => s.el.wins) =
        some [(1, 2), (0, 1)] := by decide
    rw [hs] at hmap
    exact Option.some.inj hmap
  refine ⟨s, hs, hw, ?_⟩
  intro j hj
  exact unique_leader_of_votes_once (by decide) hs (by rw [hw]; exact List.mem_cons_self ..) hj

/-- Both pods time out and enter term 1.  Pod `j` votes for pod `i`, which wins; then pod `i`
votes for pod `j` in the same term. -/
def crossedVotes (i j : Fin 2) : List (Action 2) := List.flatten
  [[.elect (.timeOut i), .elect (.timeOut j), .elect (.requestVote i), .elect (.requestVote j)],
    Action.ask i, [.elect (.setTerm j), .elect (.setIndex j)], Action.test 0 j,
    [.elect (.voteAnswered i 0), .elect (.countTickets i), .promote i, .promote i,
      .elect (.callVote j)], Action.test 1 i,
    [.elect (.voteAnswered j 0), .elect (.countTickets j)]]

/-- **Two pods win term 1 and are leaders in it at the same time.** -/
theorem two_leaders_of_one_term :
    ∃ s, run step (init 2) (crossedVotes 0 1) = some s ∧ (0, 1) ∈ s.el.wins ∧ (1, 1) ∈ s.el.wins ∧
      (s.el.pod 0).status = .leader ∧ (s.el.pod 1).status = .leader ∧
      (s.el.pod 0).term = 1 ∧ (s.el.pod 1).term = 1 := by
  obtain ⟨s, hs⟩ : ∃ s, run step (init 2) (crossedVotes 0 1) = some s :=
    Option.isSome_iff_exists.mp (by decide)
  have hmap : (run step (init 2) (crossedVotes 0 1)).map
      (fun s => (s.el.wins, s.el.pod 0, s.el.pod 1)) =
      some ([(1, 1), (0, 1)], ⟨.leader, 1, true, none, .waiting, none, 1⟩,
        ⟨.leader, 1, true, none, .promoting [0], none, 1⟩) := by decide
  rw [hs] at hmap
  simp only [Option.map_some, Option.some.injEq, Prod.mk.injEq] at hmap
  obtain ⟨hw, h0, h1⟩ := hmap
  exact ⟨s, hs, by rw [hw]; decide, by rw [hw]; decide, by rw [h0], by rw [h1], by rw [h0],
    by rw [h1]⟩

/-- Pod `v` votes for pod `i` in term 1.  While its `Vote` looks at the request of pod `j` for the
same term, its election thread makes the term 2: the request is not of an older term at the
first test, and not of the own term at the next two. -/
def racedVote (i j v : Fin 3) : List (Action 3) := List.flatten
  [[.elect (.timeOut i), .elect (.requestVote i)], Action.ask i, [.elect (.voteFailed i)],
    Action.ask i, Action.test 1 v,
    [.elect (.storeTerm v), .elect (.voteStopped v), .elect (.voteAnswered i 0),
      .elect (.countTickets i), .elect (.timeOut j), .elect (.requestVote j)], Action.ask j,
    [.elect (.voteFailed j)], Action.ask j,
    [.elect (.timeOut v), .elect (.vote 3), .elect (.voteTest v), .elect (.requestVote v),
      .elect (.voteTest v), .elect (.voteTest v), .elect (.voteTest v),
      .elect (.voteAnswered j 0), .elect (.countTickets j)]]

-- two pods win term 1 with the votes of the same pod, which is in term 2 at the second
example : ((run step (init 3) (racedVote 0 1 2)).map fun s =>
    (s.el.wins, s.el.grants, (s.el.pod 2).term)) =
      some ([(1, 1), (0, 1)], [(2, 1, 1), (2, 0, 1)], 2) := by decide

end Cluster

end Mokv.Raft
