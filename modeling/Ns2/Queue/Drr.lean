import Mathlib

/-!
# Deficit round robin

The model of `queue/drr.cc`.  The buckets are an array; there is one map for each
field of a bucket, indexed by the number of the bucket, and a pointer to a bucket
is its number.  Following a null pointer gives `none`.

* `Config.hash`, `Config.bucket` — which bucket a packet goes to.
* `DRR.activate`, `DRR.idle` — a bucket joins or leaves the circular list of
  active buckets.
* `DRR.getMaxflow`, `DRR.dropOne`, `DRR.enque` — a packet arrives; while there are
  too many bytes, the bucket with most of them loses its first packet.
* `DRR.visit`, `DRR.deque` — the loop over the active buckets, until the first
  packet of one fits its deficit counter.

The loops take the number of rounds they may make; without enough of them there is
no result.
-/

namespace Ns2.Queue

structure Pkt where
  uid : ℕ
  /-- Source address. -/
  saddr : BitVec 32
  size : ℤ
deriving DecidableEq

structure Config where
  /-- Total number of flows allowed. -/
  buckets_ : ℕ
  /-- Total number of bytes allowed across all flows. -/
  blimit_ : ℤ
  /-- Number of bytes that a flow can send in a round. -/
  quantum_ : ℤ
  /-- Hash on the node address only. -/
  mask_ : Bool

namespace Config

/-- The part of the source address that counts. -/
def addr (c : Config) (pkt : Pkt) : BitVec 32 :=
  if c.mask_ then pkt.saddr &&& 0xfff0 else pkt.saddr

/-- `DRR::hash`. -/
def hash (c : Config) (pkt : Pkt) : ℤ :=
  let i := c.addr pkt
  (i + i.sshiftRight 8 + ~~~i.sshiftRight 4).toInt.tmod (2 <<< 23 - 1) + 1

/-- The bucket of a packet, if it is one. -/
def bucket (c : Config) (pkt : Pkt) : Option ℕ :=
  let which := (c.hash pkt).tmod c.buckets_
  if 0 ≤ which ∧ which < c.buckets_ then some which.toNat else none

end Config

structure DRR where
  /-- The packets of a bucket. -/
  queue : ℕ → List Pkt
  pkts : ℕ → ℤ
  /-- The source address seen first. -/
  src : ℕ → ℤ
  /-- Count of bytes in each bucket. -/
  bcount : ℕ → ℤ
  prev : ℕ → Option ℕ
  next : ℕ → Option ℕ
  deficitCounter : ℕ → ℤ
  turn : ℕ → Bool
  /-- Current active bucket. -/
  curr : Option ℕ
  /-- Cumulative sum of bytes across all flows. -/
  bytecnt : ℤ
  /-- Cumulative sum of packets across all flows. -/
  pktcnt : ℤ
  /-- Total number of active flows. -/
  flwcnt : ℤ

namespace DRR

open Function (update)

/-- Nothing has arrived yet. -/
def init : DRR where
  queue := fun _ => []
  pkts := fun _ => 0
  src := fun _ => -1
  bcount := fun _ => 0
  prev := fun _ => none
  next := fun _ => none
  deficitCounter := fun _ => 0
  turn := fun _ => false
  curr := none
  bytecnt := 0
  pktcnt := 0
  flwcnt := 0

/-! ## The active buckets -/

/-- `activate`: a bucket joins the list, in front of the current one. -/
def activate (s : DRR) (b : ℕ) : Option DRR :=
  match s.curr with
  | none =>
    some { s with prev := update s.prev b (some b), next := update s.next b (some b), curr := some b }
  | some head =>
    let s := { s with prev := update s.prev b (s.prev head), next := update s.next b (some head) }
    (s.prev head).map fun p =>
      { s with next := update s.next p (some b), prev := update s.prev head (some b) }

/-- The neighbours of a bucket are linked to each other. -/
def unlink (s : DRR) (b : ℕ) : Option DRR := do
  let n ← s.next b
  let s := { s with prev := update s.prev n (s.prev b) }
  let p ← s.prev b
  some { s with next := update s.next p (s.next b) }

/-- `idle`: a bucket leaves the list. -/
def idle (s : DRR) (b : ℕ) : Option DRR :=
  if s.curr = some b then
    if s.next b = some b then some { s with curr := none }
    else (s.unlink b).map fun s => { s with curr := s.next b }
  else s.unlink b

/-! ## `enque` -/

/-- A packet is put into its bucket and counted. -/
def arrive (s : DRR) (c : Config) (b : ℕ) (pkt : Pkt) : DRR :=
  { s with
    src := if s.src b = -1 then update s.src b (c.addr pkt).toInt else s.src
    queue := update s.queue b (s.queue b ++ [pkt])
    pkts := update s.pkts b (s.pkts b + 1)
    pktcnt := s.pktcnt + 1
    bcount := update s.bcount b (s.bcount b + pkt.size)
    bytecnt := s.bytecnt + pkt.size }

/-- A bucket with its first packet becomes active. -/
def joinIfFirst (s : DRR) (b : ℕ) : Option DRR :=
  if s.pkts b = 1 then
    (s.activate b).map fun s =>
      { s with deficitCounter := update s.deficitCounter b 0, flwcnt := s.flwcnt + 1 }
  else some s

/-- The loop of `getMaxflow`. -/
def maxflowLoop (s : DRR) : ℕ → Option ℕ → ℕ → Option ℕ
  | 0, _, maxflow => some maxflow
  | _ + 1, none, _ => none
  | i + 1, some tmp, maxflow =>
    s.maxflowLoop i (s.next tmp) (if s.bcount maxflow < s.bcount tmp then tmp else maxflow)

/-- `getMaxflow`: the active bucket with most bytes. -/
def getMaxflow (s : DRR) (curr : ℕ) : Option ℕ :=
  s.maxflowLoop s.flwcnt.toNat (some curr) curr

/-- The first packet of a bucket is taken out and no longer counted. -/
def take (s : DRR) (b : ℕ) : Option (DRR × Pkt) :=
  match s.queue b with
  | [] => none
  | p :: rest =>
    some ({ s with
      queue := update s.queue b rest
      bcount := update s.bcount b (s.bcount b - p.size)
      bytecnt := s.bytecnt - p.size
      pkts := update s.pkts b (s.pkts b - 1)
      pktcnt := s.pktcnt - 1 }, p)

/-- A bucket without packets is no longer active. -/
def leaveIfEmpty (s : DRR) (b : ℕ) : Option DRR :=
  if s.pkts b = 0 then (s.idle b).map fun s => { s with flwcnt := s.flwcnt - 1 } else some s

/-- The bucket with most bytes loses its first packet. -/
def dropOne (s : DRR) : Option (DRR × Pkt) := do
  let curr ← s.curr
  let remq ← s.getMaxflow curr
  let (s, p) ← s.take remq
  let s ← s.leaveIfEmpty remq
  some (s, p)

/-- While there are too many bytes, packets are dropped. -/
def dropLoop (c : Config) : ℕ → DRR → Option (DRR × List Pkt)
  | 0, s => if s.bytecnt > c.blimit_ then none else some (s, [])
  | n + 1, s =>
    if s.bytecnt > c.blimit_ then do
      let (s, p) ← s.dropOne
      let (s, ps) ← dropLoop c n s
      some (s, p :: ps)
    else some (s, [])

/-- `DRR::enque`: the new state and the packets dropped. -/
def enque (c : Config) (n : ℕ) (s : DRR) (pkt : Pkt) : Option (DRR × List Pkt) := do
  let b ← c.bucket pkt
  let s ← (s.arrive c b pkt).joinIfFirst b
  dropLoop c n s

/-! ## `deque` -/

/-- A bucket whose turn begins may send a quantum more. -/
def grant (s : DRR) (c : Config) (b : ℕ) : DRR :=
  if s.turn b then s
  else
    { s with
      deficitCounter := update s.deficitCounter b (s.deficitCounter b + c.quantum_)
      turn := update s.turn b true }

/-- A bucket that has sent its last packet is no longer active. -/
def retire (s : DRR) (b : ℕ) : Option DRR :=
  if s.pkts b = 0 then
    ({ s with
      turn := update s.turn b false
      flwcnt := s.flwcnt - 1
      deficitCounter := update s.deficitCounter b 0 } : DRR).idle b
  else some s

/-- One round of `deque`: the first packet of the current bucket is taken, or it is the turn of
the next one. -/
def visit (s : DRR) (c : Config) : Option (DRR × Option Pkt) := do
  let b ← s.curr
  let s := s.grant c b
  let pkt ← (s.queue b).head?
  if s.deficitCounter b ≥ pkt.size then do
    let s := { s with
      deficitCounter := update s.deficitCounter b (s.deficitCounter b - pkt.size) }
    let (s, p) ← s.take b
    let s ← s.retire b
    some (s, some p)
  else some ({ s with turn := update s.turn b false, curr := s.next b }, none)

/-- The loop of `deque`. -/
def dequeLoop (c : Config) : ℕ → DRR → Option (DRR × Pkt)
  | 0, _ => none
  | n + 1, s =>
    match s.visit c with
    | none => none
    | some (s, some p) => some (s, p)
    | some (s, none) => dequeLoop c n s

/-- `DRR::deque`. -/
def deque (c : Config) (n : ℕ) (s : DRR) : Option (DRR × Option Pkt) :=
  if s.bytecnt = 0 then some (s, none)
  else (dequeLoop c n s).map fun r => (r.1, some r.2)

end DRR

end Ns2.Queue
