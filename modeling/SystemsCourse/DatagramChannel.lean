import Mathlib.Data.List.Nodup

/-!
# Datagrams between two parties

What is sent is a list of datagrams, and each receipt takes one of them: any, since
the network keeps no order.  A datagram that is never received has been lost.  The
network may copy datagrams; if it does not, each is received at most once.

What has arrived is a list of what was sent (`arrivals`), which sending does not change
(`arrivals_send`) and a receipt extends by the datagram received (`receive_cases`).
-/
namespace SystemsCourse

/-- A direction of a network that carries elements of `α`, and that delivers copies or
not. -/
structure DatagramChannel (copies : Bool) (α : Type) where
  sent : List α
  /-- The positions of what has been received, in the order of the receipts. -/
  received : List Nat
  /-- Nothing is received that has not been sent. -/
  lt : ∀ k ∈ received, k < sent.length
  /-- Without copies nothing is received twice. -/
  once : copies = false → received.Nodup

namespace DatagramChannel
variable {copies : Bool} {α β : Type}

/-- Nothing has been sent. -/
def new : DatagramChannel copies α :=
  ⟨[], [], fun _ h => (List.not_mem_nil h).elim, fun _ => List.nodup_nil⟩

/-- `sendto`. -/
def send (c : DatagramChannel copies α) (a : α) : DatagramChannel copies α where
  sent := c.sent ++ [a]
  received := c.received
  lt k hk := by
    rw [List.length_append]
    exact Nat.lt_add_right _ (c.lt k hk)
  once := c.once

/-- The network can deliver the datagram at position `k`. -/
structure Deliverable (c : DatagramChannel copies α) (k : Nat) : Prop where
  lt : k < c.sent.length
  fresh : copies = false → k ∉ c.received

instance (c : DatagramChannel copies α) (k : Nat) : Decidable (c.Deliverable k) :=
  decidable_of_iff (k < c.sent.length ∧ (copies = false → k ∉ c.received))
    ⟨fun h => ⟨h.1, h.2⟩, fun h => ⟨h.lt, h.fresh⟩⟩

/-- The datagram at position `k` has been delivered. -/
def deliver (c : DatagramChannel copies α) (k : Nat) (h : c.Deliverable k) :
    DatagramChannel copies α where
  sent := c.sent
  received := c.received ++ [k]
  lt j hj := by
    rcases List.mem_append.mp hj with hj | hj
    · exact c.lt j hj
    · exact (List.mem_singleton.mp hj) ▸ h.lt
  once hcopies := by
    refine (c.once hcopies).append (List.nodup_singleton k) ?_
    exact List.disjoint_singleton.mpr (h.fresh hcopies)

/-- `recvfrom`, when the network delivers the datagram at position `k`. -/
def receive (c : DatagramChannel copies α) (k : Nat) : Option (α × DatagramChannel copies α) :=
  if h : c.Deliverable k then some (c.sent.get ⟨k, h.lt⟩, c.deliver k h) else none

/-- What has been received, in order. -/
def arrivals (c : DatagramChannel copies α) : List α := c.received.filterMap (c.sent[·]?)

variable {c c' : DatagramChannel copies α} {a : α} {k : Nat}

@[simp] theorem sent_send : (c.send a).sent = c.sent ++ [a] := rfl
@[simp] theorem received_send : (c.send a).received = c.received := rfl

theorem arrivals_send : (c.send a).arrivals = c.arrivals := by
  refine List.filterMap_congr fun k hk => ?_
  exact List.getElem?_append_left (c.lt k hk)

/-- What a `recvfrom` does. -/
structure Receives (c : DatagramChannel copies α) (k : Nat) (a : α)
    (c' : DatagramChannel copies α) : Prop where
  datagram : c.sent[k]? = some a
  sent : c'.sent = c.sent
  received : c'.received = c.received ++ [k]
  arrivals : c'.arrivals = c.arrivals ++ [a]

theorem receives_deliver (h : c.Deliverable k) :
    c.Receives k (c.sent.get ⟨k, h.lt⟩) (c.deliver k h) where
  datagram := List.getElem?_eq_getElem h.lt
  sent := rfl
  received := rfl
  arrivals := by
    have hat : c.sent[k]? = some (c.sent.get ⟨k, h.lt⟩) := List.getElem?_eq_getElem h.lt
    show (c.received ++ [k]).filterMap (c.sent[·]?) = _
    rw [List.filterMap_append, List.filterMap_cons_some hat, List.filterMap_nil]
    rfl

theorem receive_cases (h : c.receive k = some (a, c')) : c.Receives k a c' := by
  unfold receive at h
  split_ifs at h with hdeliverable
  cases h
  exact receives_deliver hdeliverable

/-- **Whatever can be delivered** is received when the network delivers it. -/
theorem exists_receive (hat : c.sent[k]? = some a) (hfresh : copies = false → k ∉ c.received) :
    ∃ c', c.receive k = some (a, c') ∧ c.Receives k a c' := by
  obtain ⟨hlt, rfl⟩ := List.getElem?_eq_some_iff.mp hat
  have h : c.Deliverable k := ⟨hlt, hfresh⟩
  exact ⟨c.deliver k h, dif_pos h, receives_deliver h⟩

theorem mem_sent_of_mem_arrivals (h : a ∈ c.arrivals) : a ∈ c.sent := by
  obtain ⟨k, -, hk⟩ := List.mem_filterMap.mp h
  exact List.mem_of_getElem? hk

/-- **Without copies** different datagrams arrive as different ones. -/
theorem nodup_map_arrivals (f : α → β) (hcopies : copies = false) (hsent : (c.sent.map f).Nodup) :
    (c.arrivals.map f).Nodup := by
  rw [arrivals, List.map_filterMap]
  refine (c.once hcopies).filterMap fun j k b hj hk => ?_
  have hj : (c.sent.map f)[j]? = some b := by
    rw [List.getElem?_map]
    exact hj
  have hk : (c.sent.map f)[k]? = some b := by
    rw [List.getElem?_map]
    exact hk
  obtain ⟨hlt, -⟩ := List.getElem?_eq_some_iff.mp hj
  exact (List.getElem?_inj hlt hsent).mp (hj.trans hk.symm)

end DatagramChannel
end SystemsCourse
