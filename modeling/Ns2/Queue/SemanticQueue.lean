import Mathlib

/-!
# Packet queues that know about acknowledgments

The model of `queue/semantic-packetqueue.cc` and of the parts of `PacketQueue` in
`queue/queue.h` and `queue/queue.cc` that it is built on.  Packets are numbers; their
headers are a map that does not change, their `next_` pointers a map that does.
Following a null pointer or the pointer of a packet that has been freed, and a call of
`abort`, give `none`.

* `PacketQueue.enque`, `deque`, `removeAfter`, `remove` — the base class; its
  `remove(p)` calls `deque` of the derived class for the head.
* `filterAcks` — purge the queue of acknowledgments older than the new one.
* `deque_acksfirst`, `deque`, `enque`, `remove` — the derived class.

Loops take the number of rounds they may make.
-/

namespace Ns2.Queue

structure Header where
  saddr : ℤ
  sport : ℤ
  daddr : ℤ
  dport : ℤ
  /-- The packet is a TCP acknowledgment (`PT_ACK`). -/
  isAck : Bool
  seqno : ℤ
  /-- The flag `fs_`. -/
  fs : Bool
  size : ℤ

/-- The options of a queue. -/
structure Options where
  acksfirst_ : Bool
  filteracks_ : Bool
  reconsAcks_ : Bool
  replace_head_ : Bool

structure SemanticPacketQueue where
  next_ : ℕ → Option ℕ
  /-- Packets that have been freed. -/
  freed : List ℕ
  head_ : Option ℕ
  tail_ : Option ℕ
  len_ : ℤ
  bytes_ : ℤ
  ack_count : ℤ
  data_count : ℤ
  marked_count_ : ℤ
  unmarked_count_ : ℤ

namespace SemanticPacketQueue

open Function (update)

/-- An empty queue. -/
def empty : SemanticPacketQueue := ⟨fun _ => none, [], none, none, 0, 0, 0, 0, 0, 0⟩

/-- `p->next_`. -/
def nextOf (s : SemanticPacketQueue) (p : ℕ) : Option (Option ℕ) :=
  if p ∈ s.freed then none else some (s.next_ p)

/-- The header of a packet. -/
def access (hdr : ℕ → Header) (s : SemanticPacketQueue) (p : ℕ) : Option Header :=
  if p ∈ s.freed then none else some (hdr p)

variable (hdr : ℕ → Header)

/-! ## The base class -/

/-- `PacketQueue::enque`. -/
def baseEnque (s : SemanticPacketQueue) (p : ℕ) : SemanticPacketQueue :=
  let s :=
    match s.tail_ with
    | none => { s with head_ := some p, tail_ := some p }
    | some t => { s with next_ := update s.next_ t (some p), tail_ := some p }
  { s with next_ := update s.next_ p none, len_ := s.len_ + 1, bytes_ := s.bytes_ + (hdr p).size }

/-- `PacketQueue::deque`. -/
def baseDeque (s : SemanticPacketQueue) : Option (SemanticPacketQueue × Option ℕ) :=
  match s.head_ with
  | none => some (s, none)
  | some p => do
    let n ← s.nextOf p
    let h ← s.access hdr p
    let s := if s.tail_ = some p then { s with head_ := none, tail_ := none }
      else { s with head_ := n }
    some ({ s with len_ := s.len_ - 1, bytes_ := s.bytes_ - h.size }, some p)

/-- The packet `p` is taken out after `prev`. -/
def unlinkAfter (s : SemanticPacketQueue) (p prev : ℕ) : Option SemanticPacketQueue := do
  let n ← s.nextOf p
  let h ← s.access hdr p
  let _ ← s.nextOf prev
  some { s with
    next_ := update s.next_ prev n
    tail_ := if s.tail_ = some p then some prev else s.tail_
    len_ := s.len_ - 1
    bytes_ := s.bytes_ - h.size }

/-- `PacketQueue::remove(pkt, prev)`. -/
def removeAfter (s : SemanticPacketQueue) (pkt prev : Option ℕ) : Option SemanticPacketQueue :=
  match pkt with
  | none => some s
  | some p =>
    if s.head_ = some p then (s.baseDeque hdr).map Prod.fst
    else prev.bind fun pp => s.unlinkAfter hdr p pp

/-- The search of `PacketQueue::remove(target)`: the packet in front of the target. -/
def findBefore (s : SemanticPacketQueue) (target : ℕ) : ℕ → Option ℕ → Option ℕ → Option (Option ℕ)
  | 0, _, _ => none
  | _ + 1, _, none => none
  | n + 1, pp, some p =>
    if p = target then some pp else (s.nextOf p).bind fun q => findBefore s target n (some p) q

/-- `PacketQueue::remove(target)`, for a derived class with the function `deque`. -/
def baseRemove (deque : SemanticPacketQueue → Option (SemanticPacketQueue × Option ℕ)) (n : ℕ)
    (s : SemanticPacketQueue) (target : ℕ) : Option SemanticPacketQueue := do
  let pp ← s.findBefore target n none s.head_
  match pp with
  | none => (deque s).map Prod.fst
  | some pp => s.unlinkAfter hdr target pp

/-! ## `deque` -/

/-- The search of `deque_acksfirst`: the first acknowledgment and the packet in front of it. -/
def findAck (s : SemanticPacketQueue) : ℕ → Option ℕ → Option ℕ → Option (Option ℕ × Option ℕ)
  | 0, _, _ => none
  | _ + 1, pp, none => some (none, pp)
  | n + 1, pp, some p => do
    let h ← s.access hdr p
    if h.isAck then some (some p, pp)
    else do
      let q ← s.nextOf p
      findAck s n (some p) q

/-- `deque_acksfirst`. -/
def deque_acksfirst (n : ℕ) (s : SemanticPacketQueue) :
    Option (SemanticPacketQueue × Option ℕ) :=
  if s.ack_count > 0 then do
    let (p, pp) ← s.findAck hdr n none s.head_
    let s ← s.removeAfter hdr p pp
    some (s, p)
  else s.baseDeque hdr

/-- A packet that has left is no longer counted. -/
def uncount (s : SemanticPacketQueue) (p : ℕ) : Option SemanticPacketQueue :=
  (s.access hdr p).map fun h =>
    let s := if h.isAck then { s with ack_count := s.ack_count - 1 }
      else { s with data_count := s.data_count - 1 }
    if h.fs then { s with marked_count_ := s.marked_count_ - 1 }
    else { s with unmarked_count_ := s.unmarked_count_ - 1 }

/-- A packet leaves, an acknowledgment first if `acksfirst_` is on. -/
def takeOut (o : Options) (n : ℕ) (s : SemanticPacketQueue) :
    Option (SemanticPacketQueue × Option ℕ) :=
  if o.acksfirst_ then s.deque_acksfirst hdr n else s.baseDeque hdr

/-- `SemanticPacketQueue::deque`. -/
def deque (o : Options) (n : ℕ) (s : SemanticPacketQueue) :
    Option (SemanticPacketQueue × Option ℕ) := do
  let (s, pkt) ← s.takeOut hdr o n
  match pkt with
  | none => some (s, none)
  | some p => (s.uncount hdr p).map fun s => (s, some p)

/-- `SemanticPacketQueue::remove`. -/
def remove (o : Options) (n : ℕ) (s : SemanticPacketQueue) (pkt : ℕ) :
    Option SemanticPacketQueue := do
  let s ← s.baseRemove hdr (deque hdr o n) n pkt
  s.uncount hdr pkt

/-! ## `enque` -/

/-- `compareFlows`. -/
def compareFlows (h₁ h₂ : Header) : Bool :=
  h₁.saddr = h₂.saddr ∧ h₁.sport = h₂.sport ∧ h₁.daddr = h₂.daddr ∧ h₁.dport = h₂.dport

/-- The queued packet with header `h` is purged for the acknowledgment with header `h'`. -/
def older (replace_head : Bool) (h h' : Header) : Bool :=
  compareFlows h h' ∧ h.isAck ∧ (h.seqno < h'.seqno ∨ (replace_head ∧ h.seqno = h'.seqno))

/-- The new acknowledgment `pkt` takes its place in front of `p`. -/
def replaceAt (o : Options) (n : ℕ) (s : SemanticPacketQueue) (pkt p : ℕ) (pp : Option ℕ) :
    Option SemanticPacketQueue := do
  let s ← s.baseRemove hdr (deque hdr o n) n pkt
  let s := { s with ack_count := s.ack_count - 1, next_ := update s.next_ pkt (some p) }
  match pp with
  | none => some s
  | some q => (s.nextOf q).map fun _ => { s with next_ := update s.next_ q (some pkt) }

/-- The packet `p` is purged. -/
def purge (s : SemanticPacketQueue) (p : ℕ) (pp : Option ℕ) : Option SemanticPacketQueue :=
  (s.removeAfter hdr (some p) pp).map fun s =>
    { s with freed := p :: s.freed, ack_count := s.ack_count - 1 }

/-- The loop of `filterAcks`. -/
def filterLoop (o : Options) (m : ℕ) (pkt : ℕ) :
    ℕ → SemanticPacketQueue → Bool → Option ℕ → Option ℕ → Option SemanticPacketQueue
  | 0, _, _, _, _ => none
  | _ + 1, s, _, _, none => some s
  | n + 1, s, done, pp, some p => do
    let h ← s.access hdr p
    let h' ← s.access hdr pkt
    if older o.replace_head_ h h' then
      if o.replace_head_ ∧ pkt ≠ p ∧ ¬ done then do
        let s ← s.replaceAt hdr o m pkt p pp
        filterLoop o m pkt n s true (some pkt) (some p)
      else if done ∨ pkt ≠ p then do
        let new_p ← s.nextOf p
        let s ← s.purge hdr p pp
        filterLoop o m pkt n s done pp new_p
      else do
        let q ← s.nextOf p
        filterLoop o m pkt n s done (some p) q
    else do
      let q ← s.nextOf p
      filterLoop o m pkt n s done (some p) q

/-- `filterAcks`. -/
def filterAcks (o : Options) (n : ℕ) (s : SemanticPacketQueue) (pkt : ℕ) :
    Option SemanticPacketQueue :=
  s.filterLoop hdr o n pkt n false s.head_ s.head_

/-- A new packet is counted. -/
def count (s : SemanticPacketQueue) (p : ℕ) : SemanticPacketQueue :=
  let s := if (hdr p).isAck then { s with ack_count := s.ack_count + 1 }
    else { s with data_count := s.data_count + 1 }
  if (hdr p).fs then { s with marked_count_ := s.marked_count_ + 1 }
  else { s with unmarked_count_ := s.unmarked_count_ + 1 }

/-- `SemanticPacketQueue::enque` of a packet that the acknowledgment reconstructor does not take. -/
def enqueNow (o : Options) (n : ℕ) (s : SemanticPacketQueue) (pkt : ℕ) :
    Option SemanticPacketQueue :=
  let s := (s.count hdr pkt).baseEnque hdr pkt
  if o.filteracks_ ∧ (hdr pkt).isAck then s.filterAcks hdr o n pkt else some s

/-- `SemanticPacketQueue::enque`.  With `reconsAcks_` an acknowledgment goes to the reconstructor,
which either puts it into the queue, with `reconsAcks_` off (`through`), or frees it. -/
def enque (o : Options) (through : Bool) (n : ℕ) (s : SemanticPacketQueue) (pkt : ℕ) :
    Option SemanticPacketQueue :=
  if o.reconsAcks_ ∧ (hdr pkt).isAck ∧ ¬ through then some { s with freed := pkt :: s.freed }
  else s.enqueNow hdr o n pkt

end SemanticPacketQueue

end Ns2.Queue
