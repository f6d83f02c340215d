import Mathlib

/-!
# The routing table of AODV

The model of `aodv/aodv_rtable.cc`, of the packet buffer in `aodv/aodv_rqueue.cc` and of the
functions of `aodv/aodv.cc` that write single entries.

* `RtEntry`, `Rtable` — an entry, and the table in the order of its list.
* `rt_update`, `rt_down`, `PerHopTime` — what is done to an entry.
* `Rqueue.enque`, `deque`, `find` — the buffer of packets that wait for a route.

Sequence numbers do not wrap, times are rational.
-/

namespace Ns2.Aodv

def INFINITY2 : ℕ := 255

def MAX_HISTORY : ℕ := 3

def AODV_RTQ_MAX_LEN : ℕ := 64

def AODV_RTQ_TIMEOUT : ℚ := 30

def NODE_TRAVERSAL_TIME : ℚ := 3 / 100

/-- `rt_flags`. -/
inductive RtFlags where
  | down
  | up
  | inRepair
deriving DecidableEq

structure RtEntry where
  rt_dst : ℤ
  rt_seqno : ℕ
  rt_hops : ℕ
  /-- The last valid hop count. -/
  rt_last_hop_count : ℕ
  rt_nexthop : ℤ
  rt_pclist : List ℤ
  rt_expire : ℚ
  rt_flags : RtFlags
  /-- When another request can be sent. -/
  rt_req_timeout : ℚ
  rt_req_cnt : ℕ
  rt_disc_latency : List ℚ
  hist_indx : ℕ
  rt_req_last_ttl : ℤ

namespace RtEntry

/-- A new entry. -/
def new (id : ℤ) : RtEntry where
  rt_dst := id
  rt_seqno := 0
  rt_hops := INFINITY2
  rt_last_hop_count := INFINITY2
  rt_nexthop := 0
  rt_pclist := []
  rt_expire := 0
  rt_flags := .down
  rt_req_timeout := 0
  rt_req_cnt := 0
  rt_disc_latency := List.replicate MAX_HISTORY 0
  hist_indx := 0
  rt_req_last_ttl := 0

def rt_update (seqnum metric : ℕ) (nexthop : ℤ) (expire_time : ℚ) (rt : RtEntry) : RtEntry :=
  { rt with
    rt_seqno := seqnum, rt_hops := metric, rt_flags := .up, rt_nexthop := nexthop
    rt_expire := expire_time }

def rt_down (rt : RtEntry) : RtEntry :=
  if rt.rt_flags = .down then rt
  else
    { rt with
      rt_last_hop_count := rt.rt_hops, rt_hops := INFINITY2, rt_flags := .down, rt_nexthop := 0
      rt_expire := 0 }

def pc_insert (id : ℤ) (rt : RtEntry) : RtEntry :=
  if id ∈ rt.rt_pclist then rt else { rt with rt_pclist := id :: rt.rt_pclist }

def pc_delete (id : ℤ) (rt : RtEntry) : RtEntry := { rt with rt_pclist := rt.rt_pclist.erase id }

/-- The mean of the positive latencies. -/
def PerHopTime (rt : RtEntry) : ℚ :=
  let l := rt.rt_disc_latency.filter fun x => decide (0 < x)
  if l = [] then NODE_TRAVERSAL_TIME else l.sum / l.length

/-- The route is fresher than the entry, or as fresh and shorter. -/
def fresher (seqnum metric : ℕ) (rt : RtEntry) : Bool :=
  decide (rt.rt_seqno < seqnum) || (decide (rt.rt_seqno = seqnum) && decide (metric < rt.rt_hops))

end RtEntry

abbrev Rtable := List RtEntry

namespace Rtable

def rt_lookup (t : Rtable) (id : ℤ) : Option RtEntry := t.find? fun rt => rt.rt_dst = id

/-- `rt_lookup`, and `rt_add` if there is no entry. -/
def ensure (t : Rtable) (id : ℤ) : Rtable :=
  match t.rt_lookup id with
  | none => RtEntry.new id :: t
  | some _ => t

/-- An assignment through the pointer that `rt_lookup` returns. -/
def setAt (t : Rtable) (id : ℤ) (f : RtEntry → RtEntry) : Rtable :=
  t.map fun rt => if rt.rt_dst = id then f rt else rt

end Rtable

/-! ## The packet buffer -/

/-- A data packet; `ts_` is when it leaves the buffer. -/
structure Packet where
  saddr : ℤ
  daddr : ℤ
  ttl_ : ℤ
  num_forwards : ℕ
  ts_ : ℚ
deriving DecidableEq

abbrev Rqueue := List Packet

namespace Rqueue

/-- `purge`: the packets that have timed out leave. -/
def purge (q : Rqueue) (now : ℚ) : Rqueue := q.filter fun p => decide (now ≤ p.ts_)

def enque (q : Rqueue) (p : Packet) (now : ℚ) : Rqueue :=
  let q := q.purge now
  let q := if q.length = AODV_RTQ_MAX_LEN then q.tail else q
  q ++ [{ p with ts_ := now + AODV_RTQ_TIMEOUT }]

/-- `deque(dst)`, until there is no packet left: the packets for `dst`, and the others. -/
def dequeAll (q : Rqueue) (dst : ℤ) (now : ℚ) : List Packet × Rqueue :=
  (q.purge now).partition fun p => p.daddr = dst

def find (q : Rqueue) (dst : ℤ) : Bool := q.any fun p => p.daddr = dst

end Rqueue

end Ns2.Aodv
