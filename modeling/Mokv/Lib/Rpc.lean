import Mathlib.Data.List.Basic

/-!
# Unary calls over a lossy network

A call is a request that waits to be delivered and, once a server has handled it, a
response code.  Calls are numbered in the order they are made.  A request is delivered
at most once, at any time after it was sent or never; a response may be read at any time
after it was given.  Nothing sent is forgotten, so what holds of a request when it is
made can be said of it for ever.
-/

namespace Lib

/-- The calls made so far: the requests, those not delivered yet, and the responses. -/
structure Net (Req : Type*) where
  sent : List Req
  inbox : List Nat
  rsps : List (Nat × Int)

namespace Net

variable {Req : Type*}

/-- Nothing was called. -/
def empty : Net Req := ⟨[], [], []⟩

instance (n : Net Req) (call : Nat) (code : Int) : Decidable ((call, code) ∈ n.rsps) :=
  inferInstanceAs (Decidable (_ ∈ _))

/-- Make a call; its number is `n.sent.length`. -/
def send (n : Net Req) (req : Req) : Net Req :=
  { n with sent := n.sent ++ [req], inbox := n.sent.length :: n.inbox }

/-- The request of a call that was not delivered yet. -/
def arriving (n : Net Req) (call : Nat) : Option Req :=
  if call ∈ n.inbox then n.sent[call]? else none

/-- Deliver a call. -/
def deliver (n : Net Req) (call : Nat) : Net Req := { n with inbox := n.inbox.erase call }

/-- Answer a call. -/
def reply (n : Net Req) (call : Nat) (code : Int) : Net Req :=
  { n with rsps := (call, code) :: n.rsps }

theorem mem_send {n : Net Req} {req r : Req} :
    r ∈ (n.send req).sent ↔ r ∈ n.sent ∨ r = req := by
  rw [send, List.mem_append, List.mem_singleton]

theorem getElem?_send {n : Net Req} {req r : Req} {call : Nat} (h : n.sent[call]? = some r) :
    (n.send req).sent[call]? = some r := by
  have hlt : call < n.sent.length := (List.getElem?_eq_some_iff.mp h).1
  rw [send, List.getElem?_append_left hlt, h]

theorem getElem?_send_length (n : Net Req) (req : Req) :
    (n.send req).sent[n.sent.length]? = some req := by
  rw [send, List.getElem?_append_right (Nat.le_refl _), Nat.sub_self, List.getElem?_cons_zero]

theorem arriving_send_length (n : Net Req) (req : Req) :
    (n.send req).arriving n.sent.length = some req := by
  have hmem : n.sent.length ∈ (n.send req).inbox := List.mem_cons_self ..
  rw [arriving, if_pos hmem, getElem?_send_length]

theorem getElem?_of_arriving {n : Net Req} {call : Nat} {r : Req} (h : n.arriving call = some r) :
    n.sent[call]? = some r := by
  rw [arriving] at h
  split at h
  · exact h
  · cases h

end Net

end Lib
