import Mathlib.Data.List.Infix
import Mathlib.Data.List.TakeDrop

/-!
# Byte streams between two parties

One direction of a connection: what has been sent, how much of it has been received,
and whether the sender has closed its end.  A `read` gets what the network delivers —
at least one byte if there is one, and never more than there is room for — or the end
of the stream, when everything has been received and the sender has closed; otherwise
it waits (`exists_recv`).  Whatever the pieces, they are the stream in order
(`recv_cases`).
-/
namespace SystemsCourse

/-- One direction of a connection that carries elements of `α`. -/
structure ByteStream (α : Type) where
  sent : List α
  received : Nat
  closed : Bool
  /-- Nothing is received that has not been sent. -/
  le : received ≤ sent.length

namespace ByteStream
variable {α : Type}

/-- Nothing has been sent. -/
def new : ByteStream α := ⟨[], 0, false, Nat.zero_le _⟩

/-- `write`. -/
def send (c : ByteStream α) (bs : List α) : ByteStream α where
  sent := c.sent ++ bs
  received := c.received
  closed := c.closed
  le := by
    rw [List.length_append]
    exact Nat.le_add_right_of_le c.le

/-- `close`. -/
def close (c : ByteStream α) : ByteStream α := { c with closed := true }

/-- What has been sent and not yet received. -/
def unread (c : ByteStream α) : List α := c.sent.drop c.received

/-- The next `n` bytes, or what there is, have been received. -/
def advance (c : ByteStream α) (n : Nat) : ByteStream α where
  sent := c.sent
  received := c.received + (c.unread.take n).length
  closed := c.closed
  le := by
    have := c.le
    rw [unread, List.length_take, List.length_drop]
    omega

/-- `read` into `room` cells, when the network delivers `n` bytes or what there is. -/
def recv (c : ByteStream α) (room n : Nat) : Option (List α × ByteStream α) :=
  if c.received < c.sent.length then
    if 1 ≤ n ∧ n ≤ room then some (c.unread.take n, c.advance n) else none
  else if c.closed then some ([], c)
  else none

variable {c c' : ByteStream α} {room n : Nat} {bs : List α}

@[simp] theorem sent_send : (c.send bs).sent = c.sent ++ bs := rfl
@[simp] theorem received_send : (c.send bs).received = c.received := rfl
@[simp] theorem closed_send : (c.send bs).closed = c.closed := rfl
@[simp] theorem sent_close : c.close.sent = c.sent := rfl
@[simp] theorem received_close : c.close.received = c.received := rfl
@[simp] theorem closed_close : c.close.closed = true := rfl

/-- **A `read` that returns bytes**: they are the next ones of the stream. -/
structure Delivers (c : ByteStream α) (room : Nat) (bs : List α) (c' : ByteStream α) : Prop where
  nonempty : 1 ≤ bs.length
  fits : bs.length ≤ room
  next : c'.sent.take c'.received = c.sent.take c.received ++ bs
  sent : c'.sent = c.sent
  received : c'.received = c.received + bs.length
  closed : c'.closed = c.closed

/-- The ways a `read` returns. -/
inductive Recv (c : ByteStream α) (room : Nat) : List α → ByteStream α → Prop where
  | bytes {bs : List α} {c' : ByteStream α} (delivers : c.Delivers room bs c') : Recv c room bs c'
  | ended (all : c.received = c.sent.length) (closed : c.closed = true) : Recv c room [] c

theorem recv_cases (h : c.recv room n = some (bs, c')) : Recv c room bs c' := by
  unfold recv at h
  split_ifs at h with hmore hn hclosed
  · cases h
    have hlength : (c.unread.take n).length = min n (c.sent.length - c.received) := by
      rw [unread, List.length_take, List.length_drop]
    refine .bytes ⟨by omega, by omega, ?_, rfl, rfl, rfl⟩
    show c.sent.take (c.received + (c.unread.take n).length) = _
    rw [List.take_add, hlength, unread]
    congr 1
    rw [List.take_eq_take_iff, List.length_drop]
    omega
  · cases h
    exact .ended (Nat.le_antisymm c.le (Nat.le_of_not_lt hmore)) hclosed

/-- **A `read` waits** only for a sender that has sent nothing more and not closed. -/
theorem exists_recv (hroom : 1 ≤ room) (h : c.received < c.sent.length ∨ c.closed = true) :
    ∃ n, (c.recv room n).isSome := by
  refine ⟨1, ?_⟩
  unfold recv
  by_cases hmore : c.received < c.sent.length
  · rw [if_pos hmore, if_pos ⟨Nat.le_refl 1, hroom⟩]
    rfl
  · rw [if_neg hmore, if_pos (h.resolve_left hmore)]
    rfl

end ByteStream
end SystemsCourse
