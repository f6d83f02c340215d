import Mathlib

/-!
# Stochastic fair queueing

The model of `queue/sfq.cc`.  The buckets are an array, with one map for each field of a bucket,
and a pointer to a bucket is its number.  Following a null pointer gives `none`.

* `Config.hash`, `Config.which` — the bucket of a packet.
* `SFQ.activate`, `SFQ.idle` — a bucket joins or leaves the circular list of active buckets.
* `SFQ.enque`, `SFQ.deque` — a packet arrives, or is dropped; a packet leaves.
-/

namespace Ns2.Queue

namespace SFQ

structure Packet where
  uid : ℕ
  /-- Source address. -/
  saddr : BitVec 32
  /-- Destination address. -/
  daddr : BitVec 32
deriving DecidableEq

structure Config where
  /-- Largest number of packets. -/
  maxqueue_ : ℤ
  /-- Number of buckets. -/
  buckets_ : ℕ

namespace Config

/-- The share of a bucket. -/
def fairshare (c : Config) : ℤ := c.maxqueue_.tdiv c.buckets_

end Config

/-- `SFQ::hash`. -/
def hash (pkt : Packet) : ℤ :=
  let k := pkt.saddr + pkt.daddr
  (k + k.sshiftRight 8 + ~~~k.sshiftRight 4).toInt.tmod (2 <<< 19 - 1)

/-- The index of the bucket of a packet. -/
def Config.which (c : Config) (pkt : Packet) : ℤ := (hash pkt).tmod c.buckets_

/-- The index is one of the array. -/
def Config.Valid (c : Config) (pkt : Packet) : Prop := 0 ≤ c.which pkt ∧ c.which pkt < c.buckets_

instance (c : Config) (pkt : Packet) : Decidable (c.Valid pkt) :=
  inferInstanceAs (Decidable (_ ∧ _))

/-- The bucket of a packet; nothing for an index outside the array. -/
def Config.bucket (c : Config) (pkt : Packet) : Option ℕ :=
  if c.Valid pkt then some (c.which pkt).toNat else none

end SFQ

/-- The buckets, and the list of those with packets. -/
structure SFQ where
  /-- The packets of a bucket. -/
  queue : ℕ → List SFQ.Packet
  pkts : ℕ → ℤ
  prev : ℕ → Option ℕ
  next : ℕ → Option ℕ
  /-- The bucket that is served next. -/
  active : Option ℕ
  /-- Number of packets in all buckets. -/
  occupied : ℤ

namespace SFQ

open Function (update)

/-- `initsfq`. -/
def init : SFQ where
  queue := fun _ => []
  pkts := fun _ => 0
  prev := fun _ => none
  next := fun _ => none
  active := none
  occupied := 0

/-- `activate`: a bucket joins the list, in front of the one that is served next. -/
def activate (s : SFQ) (b : ℕ) : Option SFQ :=
  match s.active with
  | none =>
    some { s with
      prev := update s.prev b (some b)
      next := update s.next b (some b)
      active := some b }
  | some head =>
    let s := { s with prev := update s.prev b (s.prev head), next := update s.next b (some head) }
    (s.prev head).map fun p =>
      { s with next := update s.next p (some b), prev := update s.prev head (some b) }

/-- `idle`: a bucket leaves the list; it is unlinked only if it is the one that is served next. -/
def idle (s : SFQ) (b : ℕ) : Option SFQ :=
  if s.active = some b then
    if s.next b = some b then some { s with active := none }
    else do
      let n ← s.next b
      let s := { s with prev := update s.prev n (s.prev b) }
      let p ← s.prev b
      let s := { s with next := update s.next p (s.next b) }
      some { s with active := s.next b }
  else some s

/-- The test of `enque`: there is no room for another packet of the bucket. -/
def Refuses (c : Config) (s : SFQ) (b : ℕ) : Prop :=
  s.pkts b ≥ (c.maxqueue_ - s.occupied) >>> 1 ∨
    (c.maxqueue_ - s.occupied < c.buckets_ ∧ s.pkts b > c.fairshare) ∨ c.maxqueue_ - s.occupied ≤ 0

instance (c : Config) (s : SFQ) (b : ℕ) : Decidable (s.Refuses c b) :=
  inferInstanceAs (Decidable (_ ∨ _))

/-- A packet is put into its bucket and counted. -/
def arrive (s : SFQ) (b : ℕ) (pkt : Packet) : SFQ :=
  { s with
    queue := update s.queue b (s.queue b ++ [pkt])
    occupied := s.occupied + 1
    pkts := update s.pkts b (s.pkts b + 1) }

/-- A bucket with its first packet becomes active. -/
def joinIfFirst (s : SFQ) (b : ℕ) : Option SFQ :=
  if s.pkts b = 1 then s.activate b else some s

/-- `SFQ::enque` of a packet whose bucket is `b`: the new state, and whether the packet is kept. -/
def enque (c : Config) (s : SFQ) (b : ℕ) (pkt : Packet) : Option (SFQ × Bool) :=
  if s.Refuses c b then some (s, false)
  else
    ((s.arrive b pkt).joinIfFirst b).map fun s => (s, true)

/-- The first packet of a bucket is taken out and no longer counted. -/
def taken (s : SFQ) (b : ℕ) : SFQ :=
  { s with
    pkts := update s.pkts b (s.pkts b - 1)
    occupied := s.occupied - 1
    queue := update s.queue b (s.queue b).tail }

/-- The bucket that was served leaves the list if it is empty, else it is the turn of the next. -/
def passOn (s : SFQ) (b : ℕ) : Option SFQ :=
  if s.pkts b = 0 then s.idle b else some { s with active := s.next b }

/-- `SFQ::deque`: the new state, and the bucket and the packet served. -/
def deque (s : SFQ) : Option (SFQ × Option (ℕ × Packet)) :=
  match s.active with
  | none => some (s, none)
  | some b => ((s.taken b).passOn b).map fun s' => (s', (s.queue b).head?.map fun p => (b, p))

end SFQ

end Ns2.Queue
