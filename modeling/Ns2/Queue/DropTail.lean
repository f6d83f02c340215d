import Mathlib
import Ns2.Lib.Linked

/-!
# Drop-tail queues

The model of `queue/drop-tail.cc` and of `PacketQueue` in `queue/queue.h`.  Packets are numbers,
their sizes and their `next_` pointers are maps.

* `PacketQueue.enque`, `PacketQueue.deque` — a packet joins at the tail; the head leaves.
* `DropTail.enque`, `DropTail.deque` — the same under a limit, with the packet that is dropped.
* `PacketQueue.Holds` — the pointers represent a list of packets, and the counters are its.
-/

namespace Ns2.Queue

open Function (update)
open Linked

structure PacketQueue where
  next_ : ℕ → Option ℕ
  head_ : Option ℕ
  tail_ : Option ℕ
  /-- Packet count. -/
  len_ : ℤ
  /-- Queue size in bytes. -/
  bytes_ : ℤ

namespace PacketQueue

variable (size : ℕ → ℕ)

/-- A new queue; the `next_` pointers of packets outside of it are arbitrary. -/
def empty (next_ : ℕ → Option ℕ) : PacketQueue := ⟨next_, none, none, 0, 0⟩

/-- `PacketQueue::enque`. -/
def enque (q : PacketQueue) (p : ℕ) : PacketQueue :=
  let q :=
    match q.tail_ with
    | none => { q with head_ := some p, tail_ := some p }
    | some t => { q with next_ := update q.next_ t (some p), tail_ := some p }
  { q with next_ := update q.next_ p none, len_ := q.len_ + 1, bytes_ := q.bytes_ + size p }

/-- `PacketQueue::deque`. -/
def deque (q : PacketQueue) : PacketQueue × Option ℕ :=
  match q.head_ with
  | none => (q, none)
  | some p =>
    ({ q with
        head_ := if q.tail_ = some p then none else q.next_ p
        tail_ := if q.tail_ = some p then none else q.tail_
        len_ := q.len_ - 1
        bytes_ := q.bytes_ - size p }, some p)

end PacketQueue

namespace DropTail

structure Config where
  /-- Maximum allowed packets in queue. -/
  qlim_ : ℤ
  /-- Configured mean packet size in bytes. -/
  mean_pktsize_ : ℤ
  /-- Queue measured in bytes. -/
  qib_ : Bool
  /-- Drop from the front, rather than from the tail. -/
  drop_front_ : Bool

variable (c : Config) (size : ℕ → ℕ)

/-- The queue would overflow if this packet was added. -/
def Overflows (q : PacketQueue) (p : ℕ) : Prop :=
  (c.qib_ = false ∧ q.len_ + 1 ≥ c.qlim_) ∨
    (c.qib_ = true ∧ q.bytes_ + size p ≥ c.qlim_ * c.mean_pktsize_)

instance (q : PacketQueue) (p : ℕ) : Decidable (Overflows c size q p) :=
  inferInstanceAs (Decidable (_ ∨ _))

/-- `DropTail::enque`, with the packet that is dropped. -/
def enque (q : PacketQueue) (p : ℕ) : PacketQueue × Option ℕ :=
  if Overflows c size q p then
    if c.drop_front_ then (q.enque size p).deque size else (q, some p)
  else (q.enque size p, none)

/-- `DropTail::deque`. -/
def deque (q : PacketQueue) : PacketQueue × Option ℕ := q.deque size

/-- What the limit is compared with. -/
def Config.occupancy (q : PacketQueue) : ℤ := if c.qib_ then q.bytes_ else q.len_

/-- The limit, in the unit of the queue. -/
def Config.limit : ℤ := if c.qib_ then c.qlim_ * c.mean_pktsize_ else c.qlim_

end DropTail

namespace PacketQueue

variable {size : ℕ → ℕ} {q : PacketQueue} {xs t : List ℕ} {p : ℕ}

/-- The queue holds the packets `xs`. -/
structure Holds (size : ℕ → ℕ) (q : PacketQueue) (xs : List ℕ) : Prop where
  list : IsSList q.next_ q.head_ xs
  tail : q.tail_ = xs.getLast?
  len : q.len_ = xs.length
  bytes : q.bytes_ = (xs.map size).sum

theorem holds_empty (next_ : ℕ → Option ℕ) : Holds size (empty next_) [] :=
  ⟨IsSList.nil, rfl, rfl, rfl⟩

/-- A packet joins at the tail. -/
theorem Holds.enque (h : Holds size q xs) (hp : p ∉ xs) :
    Holds size (q.enque size p) (xs ++ [p]) := by
  have hlist := h.list.snoc hp
  rw [← h.tail] at hlist
  unfold PacketQueue.enque
  cases ht : q.tail_ with
  | none =>
    rw [ht] at hlist
    exact ⟨by simpa using hlist, by simp, by simp [h.len], by simp [h.bytes]⟩
  | some a =>
    rw [ht] at hlist
    exact ⟨by simpa using hlist, by simp, by simp [h.len], by simp [h.bytes]⟩

theorem Holds.deque_nil (h : Holds size q []) : q.deque size = (q, none) := by
  have hhead : q.head_ = none := h.list.head
  unfold PacketQueue.deque
  rw [hhead]

/-- The head leaves. -/
theorem Holds.deque_cons (h : Holds size q (p :: t)) :
    ∃ q', q.deque size = (q', some p) ∧ Holds size q' t := by
  have hhead : q.head_ = some p := h.list.head
  have hnext : q.next_ p = t.head? := h.list.next [] p t rfl
  have hlen : q.len_ - 1 = t.length := by simp [h.len]
  have hbytes : q.bytes_ - size p = (t.map size).sum := by simp [h.bytes]
  unfold PacketQueue.deque
  rw [hhead]
  refine ⟨_, rfl, ?_⟩
  cases t with
  | nil =>
    have htail : q.tail_ = some p := h.tail
    exact ⟨by simpa [htail] using IsSList.nil, by simp [htail], hlen, hbytes⟩
  | cons y ys =>
    have htail : q.tail_ = (y :: ys).getLast? := by
      rw [h.tail, List.getLast?_cons_cons]
    have hne : q.tail_ ≠ some p := by
      rw [htail]
      exact getLast?_ne_some (notMem_of_nodup (A := []) h.list.nodup).2
    exact ⟨by simpa [hne] using h.list.tail, by simpa [hne] using htail, hlen, hbytes⟩

end PacketQueue

end Ns2.Queue
