import Mokv.DB.Crash
import Mokv.DB.FileIds

/-!
# The database as a durable map

What a data directory is for, whatever happens to the processes on it: a map that puts and
deletions change, that a clean close makes durable, and that a crash takes back to the last
clean close.  `Contents` is that map in two copies, the current one and the durable one.

`Host.Holds` relates the two copies to a process on a directory, and every step keeps it
(`Host.Holds.step`); so they tell what lookups find in every state of every history
(`Host.holds_of_run`).
-/

namespace Mokv

open LSM Lib

/-- What the directory stands for: what lookups find, and what they would find after a crash.
A deletion is the tombstone. -/
structure Contents where
  current : Bytes → Option Bytes
  saved : Bytes → Option Bytes

namespace Contents

/-- Nothing was written. -/
def start : Contents := ⟨fun _ => none, fun _ => none⟩

/-- The contents after a step. -/
def step (c : Contents) : HostAct → Contents
  | .act (.put key value) =>
    { c with current := fun k => if k = key then some value else c.current k }
  | .act (.delete key) =>
    { c with current := fun k => if k = key then some tombstoneValue else c.current k }
  | .act .save => { c with saved := c.current }
  | .crash => { c with current := c.saved }
  | _ => c

/-- The contents after a history. -/
def after (as : List HostAct) : Contents := as.foldl step start

theorem after_concat (as : List HostAct) (a : HostAct) : after (as ++ [a]) = (after as).step a := by
  rw [after, List.foldl_append]
  rfl

end Contents

/-- The keys written are not empty. -/
def HostAct.KeyOk : HostAct → Prop
  | .act a => a.KeyOk
  | .crash => True

instance : DecidablePred HostAct.KeyOk
  | .act a => inferInstanceAs (Decidable a.KeyOk)
  | .crash => isTrue trivial

namespace Host

/-- The last clean close saved a manifest that reads as `saved`. -/
def Reads (o : Option Manifest) (saved : Bytes → Option Bytes) : Prop :=
  match o with
  | none => ∀ k, saved k = none
  | some m => m.WellFormed ∧ ∀ k, m.get k = saved k

/-- The process holds the contents. -/
def Holds (c : Contents) (h : Host) : Prop :=
  ∃ o, Keeps o h ∧ Reads o c.saved ∧
    match h.session.phase with
    | .running db => db.Valid ∧ ∀ k, db.raw k = c.current k
    | .stopping db => db.Valid ∧ ∀ k, db.raw k = c.current k
    | .closed _ => ∀ k, c.current k = c.saved k

theorem holds_start (files : Files) : Holds Contents.start (start files) :=
  ⟨none, keeps_start files, fun _ => rfl, fun _ => rfl⟩

theorem exists_open {o : Option Manifest} {saved : Bytes → Option Bytes} (hreads : Reads o saved)
    {files : Files} (hs : ∀ m ∈ o, Saved False m files) :
    ∃ db, DB.open ⟨o.map Manifest.save, files⟩ = some db ∧ db.Valid ∧ ∀ k, db.raw k = saved k := by
  cases o with
  | none =>
    have hnone : ∀ k, saved k = none := hreads
    exact ⟨_, rfl, DB.valid_new files, fun k => (DB.raw_new files k).trans (hnone k).symm⟩
  | some m =>
    obtain ⟨hwf, hget⟩ : m.WellFormed ∧ ∀ k, m.get k = saved k := hreads
    have hm := hs m rfl
    have hm' : Saved True m files := ⟨hm.shaped, hm.stored, hm.ids, hm.levels, fun _ => hwf⟩
    obtain ⟨db, hopen, -, hv, hraw⟩ := hm'.exists_open
    exact ⟨db, hopen, hv trivial, fun k => (hraw k).trans (hget k)⟩

/-- **One step changes the contents as it should.** -/
theorem Holds.step {cfg : DBConfig} {c : Contents} {h t : Host} {a : HostAct} (hc : Holds c h)
    (ha : a.KeyOk) (hid : t.session.sstId < 2 ^ 31) (hstep : h.step cfg a = some t) :
    Holds (c.step a) t := by
  obtain ⟨o, hk, hreads, hphase⟩ := hc
  by_cases hsave : a = .act .save
  · -- the manifest that is saved reads as the database that is closed
    subst hsave
    obtain ⟨db, hdb, hk', hraw⟩ := hk.save hstep
    rw [hdb] at hphase
    obtain ⟨hv, hcur⟩ : db.Valid ∧ ∀ k, db.raw k = c.current k := hphase
    refine ⟨some db.manifest, hk', ⟨hv.manifest, fun k => (hraw k).symm.trans (hcur k)⟩, ?_⟩
    obtain ⟨t', ht', rfl⟩ := Option.map_eq_some_iff.mp hstep
    obtain ⟨⟨phase, created⟩, manifest⟩ := h
    obtain rfl : phase = .stopping db := hdb
    simp only [Session.step] at ht'
    split at ht'
    · obtain rfl := Option.some.inj ht'
      exact fun k => rfl
    · cases ht'
  · refine ⟨o, hk.step hsave hid hstep, ?_⟩
    obtain ⟨⟨phase, created⟩, manifest⟩ := h
    cases a with
    | crash =>
      refine ⟨hreads, ?_⟩
      cases phase with
      | running db =>
        obtain rfl := Option.some.inj hstep
        exact fun k => rfl
      | stopping db =>
        obtain rfl := Option.some.inj hstep
        exact fun k => rfl
      | closed dir => cases hstep
    | act a =>
      obtain ⟨t', ht', rfl⟩ := Option.map_eq_some_iff.mp hstep
      cases phase with
      | running db =>
        obtain ⟨hv, hcur⟩ : db.Valid ∧ ∀ k, db.raw k = c.current k := hphase
        cases a with
        | put key value =>
          obtain rfl := Option.some.inj ht'
          refine ⟨hreads, hv.put cfg ha value, ?_⟩
          intro k
          rw [DB.raw_put, hcur]
          rfl
        | delete key =>
          obtain rfl := Option.some.inj ht'
          refine ⟨hreads, hv.put cfg ha tombstoneValue, ?_⟩
          intro k
          rw [DB.delete, DB.raw_put, hcur]
          rfl
        | flush =>
          obtain ⟨r, hr, rfl⟩ := Option.map_eq_some_iff.mp ht'
          obtain ⟨hv', hraw⟩ := hv.flush_eq hr
          exact ⟨hreads, hv', fun k => (hraw k).trans (hcur k)⟩
        | shutdown =>
          obtain rfl := Option.some.inj ht'
          obtain ⟨hv', hraw⟩ := hv.handOver
          exact ⟨hreads, hv', fun k => (hraw k).trans (hcur k)⟩
        | save => cases ht'
        | construct => cases ht'
      | stopping db =>
        obtain ⟨hv, hcur⟩ : db.Valid ∧ ∀ k, db.raw k = c.current k := hphase
        cases a with
        | flush =>
          simp only [Session.step] at ht'
          split at ht'
          · cases ht'
          · obtain ⟨r, hr, rfl⟩ := Option.map_eq_some_iff.mp ht'
            obtain ⟨hv', hraw⟩ := hv.flush_eq hr
            exact ⟨hreads, hv', fun k => (hraw k).trans (hcur k)⟩
        | save => exact absurd rfl hsave
        | put key value => cases ht'
        | delete key => cases ht'
        | shutdown => cases ht'
        | construct => cases ht'
      | closed dir =>
        cases a with
        | construct =>
          obtain ⟨db, hdb, rfl⟩ := Option.map_eq_some_iff.mp ht'
          obtain ⟨-, hm, hs⟩ := hk
          obtain ⟨man, files⟩ := dir
          obtain rfl : man = o.map Manifest.save := hm
          obtain ⟨db', hopen, hv, hraw⟩ := exists_open hreads hs
          obtain rfl := Option.some.inj (hdb.symm.trans hopen)
          exact ⟨hreads, hv, fun k => (hraw k).trans (hphase k).symm⟩
        | put key value => cases ht'
        | delete key => cases ht'
        | flush => cases ht'
        | shutdown => cases ht'
        | save => cases ht'

theorem holds_of_run {cfg : DBConfig} {files : Files} {as : List HostAct} {h : Host}
    (hr : run (Host.step cfg) (start files) as = some h) (hkey : ∀ a ∈ as, a.KeyOk)
    (hid : StepsOk (Host.step cfg) (IdsFit cfg) (start files) as) :
    Holds (Contents.after as) h := by
  induction as using List.reverseRecOn generalizing h with
  | nil =>
    obtain rfl := Option.some.inj hr
    exact holds_start files
  | append_singleton as a ih =>
    obtain ⟨u, hu, hstep⟩ := run_concat.mp hr
    obtain ⟨h1, h2⟩ := stepsOk_concat.mp hid
    rw [Contents.after_concat]
    exact (ih hu (fun b hb => hkey b (List.mem_append_left _ hb)) h1).step
      (hkey a (List.mem_append_right _ (List.mem_singleton_self a))) ((h2 u hu).lt hstep) hstep

/-- The ids stay within `int`, and the files that a step writes are fresh, if a flush has ids left
and its cascade stops after level 0. -/
theorem Holds.created_step {cfg : DBConfig} {c : Contents} {h t : Host} {a : HostAct}
    (hc : Holds c h) (ha : a = .act .flush → h.session.FlushOk cfg .flush)
    (hstep : h.step cfg a = some t) :
    t.session.sstId < 2 ^ 31 ∧ ∀ d ∈ t.session.created, d ∈ h.session.created ∨ Fresh d := by
  obtain ⟨o, hk, -, -⟩ := hc
  cases a with
  | act a =>
    obtain ⟨t', ht', rfl⟩ := Option.map_eq_some_iff.mp hstep
    refine Session.created_step hk.inv ?_ ht'
    cases a with
    | flush => exact ha rfl
    | _ => trivial
  | crash =>
    obtain ⟨⟨phase, created⟩, manifest⟩ := h
    cases phase with
    | running db =>
      obtain rfl := Option.some.inj hstep
      exact ⟨Nat.two_pow_pos 31, fun d hd => .inl hd⟩
    | stopping db =>
      obtain rfl := Option.some.inj hstep
      exact ⟨Nat.two_pow_pos 31, fun d hd => .inl hd⟩
    | closed dir => cases hstep

/-- What the current copy says, where the database runs. -/
theorem Holds.raw_eq {c : Contents} {h : Host} (hc : Holds c h) {db : DB}
    (hdb : h.session.db? = some db) (k : Bytes) : db.raw k = c.current k := by
  obtain ⟨o, -, -, hphase⟩ := hc
  obtain ⟨⟨phase, created⟩, manifest⟩ := h
  cases phase with
  | running db' =>
    obtain rfl : db' = db := Option.some.inj hdb
    exact hphase.2 k
  | stopping db' =>
    obtain rfl : db' = db := Option.some.inj hdb
    exact hphase.2 k
  | closed dir => cases hdb

end Host

end Mokv
