import Mathlib

/-!
# Random early detection

The model of `queue/red.cc`.  Floating point numbers are rational numbers, and
`pow` of the C library is a parameter.  The clock, the random number that decides on
a drop and the one that picks a victim are arguments of the operations.

* `Edp`, `Edv` — the parameters and the variables of early drops.
* `reset` — the thresholds in the unit of the queue, and all variables at their start.
* `estimator`, `calculate_p_new`, `modify_p`, `drop_early` — the average queue size,
  the drop probability, and the decision to mark or to drop.
* `enque`, `deque` — a packet arrives, a packet leaves.
-/

namespace Ns2.Queue.RED

structure Packet where
  uid : ℕ
  size : ℤ
  /-- ECN-capable transport. -/
  ect : Bool
  /-- Congestion experienced. -/
  ce : Bool
deriving DecidableEq

/-- Early drop parameters. -/
structure Edp where
  mean_pktsize : ℤ
  idle_pktsize : ℤ
  /-- Count bytes, not packets. -/
  bytes : Bool
  /-- Wait between dropped packets. -/
  wait : Bool
  /-- Mark instead of drop. -/
  setbit : Bool
  /-- Increase the drop probability slowly above `th_max`. -/
  gentle : Bool
  th_min : ℚ
  th_min_pkts : ℚ
  th_max : ℚ
  th_max_pkts : ℚ
  max_p_inv : ℚ
  mark_p : ℚ
  use_mark_p : Bool
  q_w : ℚ
  adaptive : ℤ
  cautious : ℤ
  alpha : ℚ
  beta : ℚ
  interval : ℚ
  top : ℚ
  bottom : ℚ
  feng_adaptive : ℤ
  /-- Packet time constant. -/
  ptc : ℚ

inductive Status
  | Above
  | Below
  | Between
deriving DecidableEq

/-- Early drop variables. -/
structure Edv where
  v_ave : ℚ
  v_prob1 : ℚ
  v_prob : ℚ
  v_a : ℚ
  v_b : ℚ
  v_c : ℚ
  v_d : ℚ
  /-- Packets since the last drop. -/
  count : ℤ
  /-- Bytes since the last drop. -/
  count_bytes : ℤ
  /-- 0 when the average queue first exceeds the threshold. -/
  old : ℤ
  cur_max_p : ℚ
  lastset : ℚ
  status : Status

/-- What does not change after the start. -/
structure Config where
  edp : Edp
  /-- Queue measured in bytes. -/
  qib_ : Bool
  /-- Maximum queue size. -/
  qlim_ : ℤ
  drop_front_ : Bool
  drop_rand_ : Bool
  ns1_compat_ : Bool
  /-- `pow` of the C library. -/
  pow : ℚ → ℚ → ℚ

structure REDQueue where
  /-- The underlying queue. -/
  q : List Packet
  edp : Edp
  edv : Edv
  idle_ : Bool
  idletime_ : ℚ

/-! ## Start -/

/-- The thresholds in the unit of the queue. -/
def scale (c : Config) : Edp :=
  let e := c.edp
  let e := if e.th_max_pkts = 0 then { e with th_max_pkts := 3 * e.th_min_pkts } else e
  if c.qib_ then
    { e with th_min := e.th_min_pkts * e.mean_pktsize, th_max := e.th_max_pkts * e.mean_pktsize }
  else { e with th_min := e.th_min_pkts, th_max := e.th_max_pkts }

/-- `reset`, at the time `now`. -/
def reset (c : Config) (now : ℚ) : REDQueue :=
  let e := scale c
  let th_diff := if e.th_max - e.th_min = 0 then 1 else e.th_max - e.th_min
  let cur_max_p := 1 / e.max_p_inv
  { q := []
    edp := e
    edv := {
      v_ave := 0
      v_prob1 := 0
      v_prob := 0
      v_a := 1 / th_diff
      v_b := -e.th_min / th_diff
      v_c := if e.gentle then (1 - cur_max_p) / e.th_max else 0
      v_d := if e.gentle then 2 * cur_max_p - 1 else 0
      count := 0
      count_bytes := 0
      old := 0
      cur_max_p := cur_max_p
      lastset := 0
      status := .Above }
    idle_ := true
    idletime_ := now }

/-! ## The average queue size -/

/-- `updateMaxPFeng`. -/
def updateMaxPFeng (e : Edp) (v : Edv) (new_ave : ℚ) : Edv :=
  let v := if e.th_min < new_ave ∧ new_ave < e.th_max then { v with status := .Between } else v
  let v := if new_ave < e.th_min ∧ v.status ≠ .Below then
      { v with status := .Below, cur_max_p := v.cur_max_p / e.alpha } else v
  if new_ave > e.th_max ∧ v.status ≠ .Above then
    { v with status := .Above, cur_max_p := v.cur_max_p * e.beta } else v

/-- `updateMaxP`. -/
def updateMaxP (e : Edp) (v : Edv) (new_ave now : ℚ) : Edv :=
  let part := 4 / 10 * (e.th_max - e.th_min)
  if new_ave < e.th_min + part ∧ v.cur_max_p > e.bottom then
    { v with cur_max_p := v.cur_max_p * e.beta, lastset := now }
  else if new_ave > e.th_max - part ∧ e.top > v.cur_max_p then
    let alpha := if e.alpha > 25 / 100 * v.cur_max_p then 25 / 100 * v.cur_max_p else e.alpha
    { v with cur_max_p := v.cur_max_p + alpha, lastset := now }
  else v

/-- `estimator`: the new average goes to `v_ave`. -/
def estimator (e : Edp) (v : Edv) (nqueued m : ℤ) (now : ℚ) : Edv :=
  let new_ave := (· * (1 - e.q_w))^[(m - 1).toNat] v.v_ave
  let new_ave := new_ave * (1 - e.q_w)
  let new_ave := new_ave + e.q_w * nqueued
  let v :=
    if e.adaptive = 1 then
      if e.feng_adaptive = 1 then updateMaxPFeng e v new_ave
      else if now > v.lastset + e.interval then updateMaxP e v new_ave now
      else v
    else v
  { v with v_ave := new_ave }

/-! ## Drop probability -/

/-- `calculate_p_new`. -/
def calculate_p_new (v_ave th_max : ℚ) (gentle : Bool) (v_a v_b v_c v_d max_p : ℚ) : ℚ :=
  let p :=
    if gentle ∧ v_ave ≥ th_max then v_c * v_ave + v_d
    else if ¬ gentle ∧ v_ave ≥ th_max then 1
    else (v_a * v_ave + v_b) * max_p
  if p > 1 then 1 else p

/-- `modify_p`: uniform instead of geometric periods between drops. -/
def modify_p (p : ℚ) (count count_bytes : ℤ) (bytes : Bool) (mean_pktsize : ℤ) (wait : Bool)
    (size : ℤ) : ℚ :=
  let count1 : ℚ := if bytes then (count_bytes.tdiv mean_pktsize : ℤ) else count
  let p :=
    if wait then
      if count1 * p < 1 then 0
      else if count1 * p < 2 then p / (2 - count1 * p)
      else 1
    else
      if count1 * p < 1 then p / (1 - count1 * p)
      else 1
  let p := if bytes ∧ p < 1 then p * size / mean_pktsize else p
  if p > 1 then 1 else p

/-- Bytes in the queue. -/
def byteLength (q : List Packet) : ℤ := (q.map Packet.size).sum

/-- The queue size, in the unit of the queue. -/
def qsize (c : Config) (q : List Packet) : ℤ := if c.qib_ then byteLength q else q.length

/-- The random number after the caution about a queue much below its average.  A ratio with
denominator 0 is infinite or not a number, and then not below 1. -/
def cautiousU (c : Config) (e : Edp) (v_ave : ℚ) (q : List Packet) (u : ℚ) : ℚ :=
  if e.cautious = 2 then
    let fraction := c.pow (1 - e.q_w) (e.ptc * (5 / 100))
    let ratio := qsize c q / (fraction * v_ave)
    if fraction * v_ave ≠ 0 ∧ ratio < 1 then u * (1 / ratio) else u
  else u

/-- The packet need not be dropped since the queue is much below its average. -/
def cautiousSkip (c : Config) (e : Edp) (v_ave : ℚ) (q : List Packet) : Bool :=
  e.cautious = 1 ∧ (qsize c q : ℚ) < c.pow (1 - e.q_w) (e.ptc * (5 / 100)) * v_ave

/-- `drop_early`: the variables, the packet, and whether it should be dropped. -/
def drop_early (c : Config) (e : Edp) (v : Edv) (q : List Packet) (pkt : Packet) (u : ℚ) :
    Edv × Packet × Bool :=
  let prob1 := calculate_p_new v.v_ave e.th_max e.gentle v.v_a v.v_b v.v_c v.v_d v.cur_max_p
  let prob := modify_p prob1 v.count v.count_bytes e.bytes e.mean_pktsize e.wait pkt.size
  let v := { v with v_prob1 := prob1, v_prob := prob }
  if cautiousSkip c e v.v_ave q then (v, pkt, false)
  else if cautiousU c e v.v_ave q u ≤ prob then
    let v := { v with count := 0, count_bytes := 0 }
    if e.setbit ∧ pkt.ect ∧ (¬ e.use_mark_p ∨ prob1 ≤ e.mark_p) then
      (v, { pkt with ce := true }, false)
    else (v, pkt, true)
  else (v, pkt, false)

/-! ## Arrivals and departures -/

inductive DropType
  | NONE
  | FORCED
  | UNFORCED
deriving DecidableEq

/-- `pickPacketToDrop`: the position of the victim in a queue; `r` is the random number. -/
def pickPacketToDrop (c : Config) (q : List Packet) (r : ℕ) : ℕ :=
  if c.drop_front_ then min 1 (q.length - 1)
  else if c.drop_rand_ then r % q.length
  else q.length - 1

/-- The number of packets that are taken to have arrived while the queue was idle. -/
def idlePackets (s : REDQueue) (now : ℚ) : ℤ :=
  if s.idle_ then
    let ptc := if s.edp.cautious = 3 then s.edp.ptc * s.edp.mean_pktsize / s.edp.idle_pktsize
      else s.edp.ptc
    (ptc * (now - s.idletime_)).num.tdiv (ptc * (now - s.idletime_)).den
  else 0

/-- The variables when a packet arrives: the average and the counts. -/
def arriveEdv (c : Config) (s : REDQueue) (pkt : Packet) (now : ℚ) : Edv :=
  let v := estimator s.edp s.edv (qsize c s.q) (idlePackets s now + 1) now
  { v with count := v.count + 1, count_bytes := v.count_bytes + pkt.size }

/-- The decision on early drops: the variables, the packet, and the type of drop. -/
def decide_early (c : Config) (e : Edp) (v : Edv) (q : List Packet) (pkt : Packet) (u : ℚ) :
    Edv × Packet × DropType :=
  if v.v_ave ≥ e.th_min ∧ qsize c q > 1 then
    if ¬ e.use_mark_p ∧
        ((¬ e.gentle ∧ v.v_ave ≥ e.th_max) ∨ (e.gentle ∧ v.v_ave ≥ 2 * e.th_max)) then
      (v, pkt, .FORCED)
    else if v.old = 0 then
      ({ v with count := 1, count_bytes := pkt.size, old := 1 }, pkt, .NONE)
    else
      let (v, pkt, drop) := drop_early c e v q pkt u
      (v, pkt, if drop then .UNFORCED else .NONE)
  else ({ v with v_prob := 0, old := 0 }, pkt, .NONE)

/-- The limit, in the unit of the queue. -/
def qlim (c : Config) : ℤ := if c.qib_ then c.qlim_ * c.edp.mean_pktsize else c.qlim_

/-- `enque`: the new state, the packet as it is put into the queue or dropped, and the packet that
is dropped. -/
def enque (c : Config) (s : REDQueue) (pkt : Packet) (u : ℚ) (r : ℕ) (now : ℚ) :
    Option (REDQueue × Packet × Option Packet) :=
  let v := arriveEdv c s pkt now
  let (v, pkt, droptype) := decide_early c s.edp v s.q pkt u
  let droptype := if qsize c s.q ≥ qlim c then .FORCED else droptype
  let s := { s with edv := v, idle_ := false }
  match droptype with
  | .UNFORCED => some (s, pkt, some pkt)
  | .NONE => some ({ s with q := s.q ++ [pkt] }, pkt, none)
  | .FORCED =>
    let q := s.q ++ [pkt]
    let victim := pickPacketToDrop c q r
    let v := if c.ns1_compat_ then v else { v with count := 0, count_bytes := 0 }
    q[victim]?.map fun p => ({ s with q := q.eraseIdx victim, edv := v }, pkt, some p)

/-- `deque`. -/
def deque (s : REDQueue) (now : ℚ) : REDQueue × Option Packet :=
  match s.q with
  | [] => ({ s with idle_ := true, idletime_ := now }, none)
  | p :: q => ({ s with q := q, idle_ := false }, some p)

end Ns2.Queue.RED
