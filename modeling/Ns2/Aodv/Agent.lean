import Mathlib
import Ns2.Aodv.Table

/-!
# Ad hoc on-demand distance-vector routing

The model of `aodv/aodv.cc`, with local repair and link-layer detection as the header sets them;
assertions are compiled out.

* `Request`, `Reply`, `RouteError` — the messages.
* `sendRequest`, `rt_resolve`, `recv` — packets that need a route.
* `local_rt_repair`, `handle_link_failure`, `rt_ll_failed` — links that fail.
* `rt_purge`, `localRepairTimer` — the timers.
* `recvRequest`, `recvReply`, `recvError` — the messages received.
* `World`, `step` — a network of agents.

A function returns the agent and the messages it sends.  Packets sent, and packets dropped from
the interface queue, are not kept: any packet may arrive at any time.
-/

namespace Ns2.Aodv

def MY_ROUTE_TIMEOUT : ℚ := 10

def ACTIVE_ROUTE_TIMEOUT : ℚ := 10

def REV_ROUTE_LIFE : ℚ := 6

def BCAST_ID_SAVE : ℚ := 6

def RREQ_RETRIES : ℕ := 3

def MAX_RREQ_TIMEOUT : ℚ := 10

def TTL_START : ℤ := 5

def TTL_THRESHOLD : ℤ := 7

def TTL_INCREMENT : ℤ := 2

def NETWORK_DIAMETER : ℤ := 30

def AODV_MAX_ERRORS : ℕ := 100

/-- A route request, with the source and the time to live of its IP header. -/
structure Request where
  rq_hop_count : ℕ
  rq_bcast_id : ℕ
  rq_dst : ℤ
  rq_dst_seqno : ℕ
  rq_src : ℤ
  rq_src_seqno : ℕ
  rq_timestamp : ℚ
  saddr : ℤ
  ttl_ : ℤ
deriving DecidableEq

/-- A route reply, with the destination and the time to live of its IP header. -/
structure Reply where
  rp_hop_count : ℕ
  rp_dst : ℤ
  rp_dst_seqno : ℕ
  rp_src : ℤ
  rp_lifetime : ℚ
  rp_timestamp : ℚ
  daddr : ℤ
  ttl_ : ℤ
deriving DecidableEq

/-- A route error: the destinations that have become unreachable, with sequence numbers. -/
structure RouteError where
  unreachable : List (ℤ × ℕ)
  saddr : ℤ
deriving DecidableEq

inductive Message where
  | rreq (rq : Request)
  | rrep (rp : Reply)
  | rerr (re : RouteError)
deriving DecidableEq

structure Agent where
  index : ℤ
  seqno : ℕ
  bid : ℕ
  rtable : Rtable
  /-- The broadcast ids heard, with their expiry. -/
  bihead : List (ℤ × ℕ × ℚ)
  rqueue : Rqueue
  /-- The destinations of the packets whose local repair times out. -/
  lrtimers : List ℤ

/-- A new agent. -/
def Agent.new (id : ℤ) : Agent := ⟨id, 2, 1, [], [], [], []⟩

/-- The value of a byte. -/
def u8 (n : ℕ) : ℕ := n % 256

/-- A `double` as an unsigned integer; out of range the language leaves it open, the usual
machines wrap. -/
def u32 (x : ℚ) : ℚ := ((x.num.tdiv x.den) % 2 ^ 32 : ℤ)

namespace Agent

variable (IP_BROADCAST : ℤ)

def rt_lookup (a : Agent) (id : ℤ) : Option RtEntry := a.rtable.rt_lookup id

/-- Assignments to the entry of a destination. -/
def setRt (a : Agent) (id : ℤ) (f : RtEntry → RtEntry) : Agent :=
  { a with rtable := a.rtable.setAt id f }

/-! ## Packets -/

/-- `forward(rt, p)` of a data packet along the route of `dst`: the route is used, unless the packet
is dropped or for this node. -/
def forward (a : Agent) (dst : ℤ) (p : Packet) (now : ℚ) : Agent :=
  if p.ttl_ = 0 ∨ p.daddr = a.index then a
  else a.setRt dst fun rt => { rt with rt_expire := now + ACTIVE_ROUTE_TIMEOUT }

/-- The packets that wait for `dst` leave the buffer and are forwarded. -/
def sendBuffered (a : Agent) (dst : ℤ) (now : ℚ) : Agent :=
  let (ps, q) := a.rqueue.dequeAll dst now
  ps.foldl (fun a p => a.forward dst p now) { a with rqueue := q }

/-- The packets that wait for `dst` leave the buffer and are dropped. -/
def dropBuffered (a : Agent) (dst : ℤ) (now : ℚ) : Agent :=
  { a with rqueue := (a.rqueue.dequeAll dst now).2 }

/-- The time to live of the next request for a destination. -/
def requestTtl (last : ℤ) : ℤ :=
  if last = 0 then TTL_START
  else if last < TTL_THRESHOLD then last + TTL_INCREMENT
  else NETWORK_DIAMETER

/-- The entry when a request is sent. -/
def requested (now : ℚ) (rt : RtEntry) : RtEntry :=
  let last := max rt.rt_req_last_ttl rt.rt_last_hop_count
  let cnt := if last = 0 ∨ last < TTL_THRESHOLD then rt.rt_req_cnt else rt.rt_req_cnt + 1
  let timeout := 2 * requestTtl last * rt.PerHopTime
  let timeout := if 0 < cnt then timeout * cnt else timeout
  { rt with
    rt_req_cnt := cnt, rt_req_last_ttl := requestTtl last
    rt_req_timeout := min (timeout + now) (now + MAX_RREQ_TIMEOUT), rt_expire := 0 }

def sendRequest (a : Agent) (dst : ℤ) (now : ℚ) : Agent × List Message :=
  match a.rt_lookup dst with
  | none => (a, [])
  | some rt =>
    if rt.rt_flags = .up ∨ now < rt.rt_req_timeout then (a, [])
    else if RREQ_RETRIES < rt.rt_req_cnt then
      ((a.setRt dst fun rt =>
        { rt with rt_req_timeout := now + MAX_RREQ_TIMEOUT, rt_req_cnt := 0 }).dropBuffered dst now,
        [])
    else
      ({ a.setRt dst (requested now) with bid := a.bid + 1, seqno := a.seqno + 2 },
        [.rreq
          { rq_hop_count := 1, rq_bcast_id := a.bid, rq_dst := dst, rq_dst_seqno := rt.rt_seqno
            rq_src := a.index, rq_src_seqno := a.seqno + 2, rq_timestamp := now, saddr := a.index
            ttl_ := requestTtl (max rt.rt_req_last_ttl rt.rt_last_hop_count) }])

/-- `sendReply`. -/
def sendReply (a : Agent) (ipdst : ℤ) (hop_count : ℕ) (rpdst : ℤ) (rpseq : ℕ)
    (lifetime timestamp : ℚ) : Message :=
  .rrep ⟨u8 hop_count, rpdst, rpseq, a.index, lifetime, timestamp, ipdst, NETWORK_DIAMETER⟩

/-- `rt_resolve`. -/
def rt_resolve (a : Agent) (p : Packet) (now : ℚ) : Agent × List Message :=
  let a := { a with rtable := a.rtable.ensure p.daddr }
  match a.rt_lookup p.daddr with
  | none => (a, [])
  | some rt =>
    if rt.rt_flags = .up then (a.forward p.daddr p now, [])
    else if p.saddr = a.index then
      sendRequest { a with rqueue := a.rqueue.enque p now } p.daddr now
    else if rt.rt_flags = .inRepair then ({ a with rqueue := a.rqueue.enque p now }, [])
    else (a, [.rerr ⟨[(rt.rt_dst, rt.rt_seqno)], a.index⟩])

/-- `recv` of a data packet. -/
def recv (a : Agent) (p : Packet) (now : ℚ) : Agent × List Message :=
  if p.saddr = a.index ∧ p.num_forwards = 0 then
    if p.daddr = IP_BROADCAST then (a, [])
    else a.rt_resolve { p with ttl_ := NETWORK_DIAMETER } now
  else if p.saddr = a.index then (a, [])
  else if p.ttl_ - 1 = 0 then (a, [])
  else if p.daddr = IP_BROADCAST then (a, [])
  else a.rt_resolve { p with ttl_ := p.ttl_ - 1 } now

/-! ## Links that fail -/

/-- The route leads over the neighbor `id`. -/
def routesOver (id : ℤ) (rt : RtEntry) : Bool := rt.rt_hops ≠ INFINITY2 ∧ rt.rt_nexthop = id

/-- An entry when the link to `id` fails. -/
def linkFailed (id : ℤ) (rt : RtEntry) : RtEntry :=
  (if routesOver id rt then { rt with rt_seqno := rt.rt_seqno + 1 }.rt_down else rt).pc_delete id

/-- `handle_link_failure`.  More destinations than a route error holds are written behind it. -/
def handle_link_failure (a : Agent) (id : ℤ) : Option (Agent × List Message) :=
  let lost := (a.rtable.filter (routesOver id)).map fun rt => (rt.rt_dst, rt.rt_seqno + 1)
  if AODV_MAX_ERRORS < lost.length then none
  else
    some ({ a with rtable := a.rtable.map (linkFailed id) },
      if lost = [] then [] else [.rerr ⟨lost, a.index⟩])

/-- `local_rt_repair`. -/
def local_rt_repair (a : Agent) (dst : ℤ) (p : Packet) (now : ℚ) : Agent × List Message :=
  let (a, ms) := sendRequest
    ({ a with rqueue := a.rqueue.enque p now }.setRt dst fun rt => { rt with rt_flags := .inRepair })
    dst now
  ({ a with lrtimers := p.daddr :: a.lrtimers }, ms)

/-- `rt_ll_failed` of a data packet: the link to `next_hop_` is broken. -/
def rt_ll_failed (a : Agent) (p : Packet) (next_hop_ : ℤ) (now : ℚ) :
    Option (Agent × List Message) :=
  if p.daddr = IP_BROADCAST then some (a, [])
  else
    match a.rt_lookup p.daddr with
    | none => some (a, [])
    | some rt =>
      if rt.rt_hops < p.num_forwards then some (a.local_rt_repair p.daddr p now)
      else { a with seqno := a.seqno + 2 }.handle_link_failure next_hop_

/-! ## Timers -/

/-- `LocalRepairTimer::handle`. -/
def localRepairTimer (a : Agent) (dst : ℤ) : Agent :=
  { a.setRt dst fun rt => if rt.rt_flags ≠ .up then rt.rt_down else rt with
    lrtimers := a.lrtimers.erase dst }

/-- One entry of `rt_purge`. -/
def purgeEntry (now : ℚ) (r : Agent × List Message) (dst : ℤ) : Agent × List Message :=
  match r.1.rt_lookup dst with
  | none => r
  | some rt =>
    if rt.rt_flags = .up ∧ rt.rt_expire < now then
      ((r.1.dropBuffered dst now).setRt dst fun rt =>
        { rt with rt_seqno := rt.rt_seqno + 1 }.rt_down, r.2)
    else if rt.rt_flags = .up then (r.1.sendBuffered dst now, r.2)
    else if r.1.rqueue.find dst then
      ((r.1.sendRequest dst now).1, r.2 ++ (r.1.sendRequest dst now).2)
    else r

/-- `rt_purge`. -/
def rt_purge (a : Agent) (now : ℚ) : Agent × List Message :=
  (a.rtable.map RtEntry.rt_dst).foldl (purgeEntry now) (a, [])

/-- `id_purge`. -/
def id_purge (a : Agent) (now : ℚ) : Agent :=
  { a with bihead := a.bihead.filter fun b => decide (now < b.2.2) }

/-! ## Messages received -/

/-- `id_lookup`. -/
def id_lookup (a : Agent) (id : ℤ) (bid : ℕ) : Bool := a.bihead.any fun b => b.1 = id ∧ b.2.1 = bid

/-- The reverse route of a request. -/
def reverseRoute (a : Agent) (rq : Request) (now : ℚ) : Agent :=
  let a := { a with
    bihead := (rq.rq_src, rq.rq_bcast_id, now + BCAST_ID_SAVE) :: a.bihead
    rtable := (a.rtable.ensure rq.rq_src).setAt rq.rq_src fun rt =>
      { rt with rt_expire := max rt.rt_expire (now + REV_ROUTE_LIFE) } }
  match a.rt_lookup rq.rq_src with
  | none => a
  | some rt0 =>
    if rt0.fresher rq.rq_src_seqno rq.rq_hop_count then
      (a.setRt rq.rq_src fun rt0 =>
        let rt0 := rt0.rt_update rq.rq_src_seqno rq.rq_hop_count rq.saddr
          (max rt0.rt_expire (now + REV_ROUTE_LIFE))
        if 0 < rt0.rt_req_timeout then
          { rt0 with
            rt_req_cnt := 0, rt_req_timeout := 0, rt_req_last_ttl := rq.rq_hop_count
            rt_expire := now + ACTIVE_ROUTE_TIMEOUT }
        else rt0).sendBuffered rq.rq_src now
    else a

/-- This node's sequence number when it replies itself. -/
def nextSeqno (seqno rq_dst_seqno : ℕ) : ℕ :=
  let s := max seqno rq_dst_seqno + 1
  if s % 2 = 1 then s + 1 else s

/-- The request is forwarded. -/
def forwardRequest (a : Agent) (rq : Request) (rt : Option RtEntry) : List Message :=
  if rq.ttl_ = 0 then []
  else
    [.rreq { rq with
      saddr := a.index
      rq_hop_count := u8 (rq.rq_hop_count + 1)
      rq_dst_seqno := match rt with
        | none => rq.rq_dst_seqno
        | some rt => max rt.rt_seqno rq.rq_dst_seqno }]

/-- A route that is fresh enough is put into a reply, and both next hops into the lists of
precursors. -/
def replyFrom (a : Agent) (rq : Request) (rt : RtEntry) (now : ℚ) : Agent × List Message :=
  let next0 := (a.rt_lookup rq.rq_src).elim 0 RtEntry.rt_nexthop
  ((a.setRt rq.rq_dst (RtEntry.pc_insert next0)).setRt rq.rq_src (RtEntry.pc_insert rt.rt_nexthop),
    [a.sendReply rq.rq_src (rt.rt_hops + 1) rq.rq_dst rt.rt_seqno (u32 (rt.rt_expire - now))
      rq.rq_timestamp])

/-- What a node answers to a request, once it has the reverse route. -/
def answer (a : Agent) (rq : Request) (now : ℚ) : Agent × List Message :=
  if rq.rq_dst = a.index then
    let seqno := nextSeqno a.seqno rq.rq_dst_seqno
    ({ a with seqno := seqno },
      [a.sendReply rq.rq_src 1 a.index seqno MY_ROUTE_TIMEOUT rq.rq_timestamp])
  else
    match a.rt_lookup rq.rq_dst with
    | none => (a, a.forwardRequest rq none)
    | some rt =>
      if rt.rt_hops ≠ INFINITY2 ∧ rq.rq_dst_seqno ≤ rt.rt_seqno then a.replyFrom rq rt now
      else (a, a.forwardRequest rq (some rt))

/-- `recvRequest`. -/
def recvRequest (a : Agent) (rq : Request) (now : ℚ) : Agent × List Message :=
  if rq.rq_src = a.index then (a, [])
  else if a.id_lookup rq.rq_src rq.rq_bcast_id then (a, [])
  else (a.reverseRoute rq now).answer rq now

/-- The entry with the route of a reply. -/
def repliedEntry (mine : Bool) (rp : Reply) (now : ℚ) (rt : RtEntry) : RtEntry :=
  let rt := rt.rt_update rp.rp_dst_seqno rp.rp_hop_count rp.rp_src (now + rp.rp_lifetime)
  let rt :=
    { rt with rt_req_cnt := 0, rt_req_timeout := 0, rt_req_last_ttl := rp.rp_hop_count }
  if mine then
    { rt with
      rt_disc_latency := rt.rt_disc_latency.set rt.hist_indx
        ((now - rp.rp_timestamp) / rp.rp_hop_count)
      hist_indx := (rt.hist_indx + 1) % MAX_HISTORY }
  else rt

/-- The route of a reply has been taken: packets that wait for it are sent. -/
def takeReply (a : Agent) (rp : Reply) (now : ℚ) : Agent :=
  let a := a.setRt rp.rp_dst (repliedEntry (decide (rp.daddr = a.index)) rp now)
  if rp.rp_hop_count ≠ INFINITY2 then a.sendBuffered rp.rp_dst now else a.dropBuffered rp.rp_dst now

/-- The reply is forwarded along the route to its IP destination. -/
def forwardReply (a : Agent) (rp : Reply) (now : ℚ) : Agent × List Message :=
  match a.rt_lookup rp.daddr with
  | none => (a, [])
  | some rt0 =>
    if rt0.rt_hops = INFINITY2 then (a, [])
    else
      let a' := a.setRt rp.rp_dst (RtEntry.pc_insert rt0.rt_nexthop)
      if rp.ttl_ = 0 then (a', [])
      else
        (a'.setRt rp.daddr fun rt0 => { rt0 with rt_expire := now + ACTIVE_ROUTE_TIMEOUT },
          [.rrep { rp with rp_hop_count := u8 (rp.rp_hop_count + 1), rp_src := a.index }])

/-- `recvReply`. -/
def recvReply (a : Agent) (rp : Reply) (now : ℚ) : Agent × List Message :=
  let a := { a with rtable := a.rtable.ensure rp.rp_dst }
  match a.rt_lookup rp.rp_dst with
  | none => (a, [])
  | some rt =>
    if rt.fresher rp.rp_dst_seqno rp.rp_hop_count then
      if rp.daddr = a.index then (a.takeReply rp now, [])
      else (a.takeReply rp now).forwardReply rp now
    else (a, [])

/-- One destination of a route error; those with precursors are passed on. -/
def errorEntry (saddr : ℤ) (r : Agent × List (ℤ × ℕ)) (x : ℤ × ℕ) : Agent × List (ℤ × ℕ) :=
  match r.1.rt_lookup x.1 with
  | none => r
  | some rt =>
    if rt.rt_hops ≠ INFINITY2 ∧ rt.rt_nexthop = saddr ∧ rt.rt_seqno ≤ x.2 then
      (r.1.setRt x.1 fun rt => { { rt with rt_seqno := x.2 }.rt_down with rt_pclist := [] },
        if rt.rt_pclist = [] then r.2 else r.2 ++ [x])
    else r

/-- `recvError`. -/
def recvError (a : Agent) (re : RouteError) : Agent × List Message :=
  let (a, nre) := re.unreachable.foldl (errorEntry re.saddr) (a, [])
  (a, if nre = [] then [] else [.rerr ⟨nre, a.index⟩])

end Agent

/-! ## Networks -/

/-- What can happen at an agent. -/
inductive Event where
  /-- A message arrives. -/
  | message (m : Message)
  /-- A data packet arrives. -/
  | packet (p : Packet)
  /-- The link layer reports that a data packet could not be sent. -/
  | linkFailure (p : Packet) (next_hop_ : ℤ)
  /-- The timer of a local repair. -/
  | localRepair (dst : ℤ)
  /-- The timer of the route table. -/
  | purge
  /-- The timer of the broadcast ids. -/
  | purgeIds

/-- A network: every address has an agent, and the messages sent so far are kept. -/
structure World where
  agent : ℤ → Agent
  sent : List Message

/-- A network of new agents. -/
def World.init : World := ⟨Agent.new, []⟩

/-- The event can happen at `u`: a message has been sent, the timer of a local repair has been
set. -/
def Event.Possible (w : World) (u : ℤ) : Event → Prop
  | .message m => m ∈ w.sent
  | .localRepair dst => dst ∈ (w.agent u).lrtimers
  | _ => True

instance (w : World) (u : ℤ) : (ev : Event) → Decidable (ev.Possible w u)
  | .message m => inferInstanceAs (Decidable (m ∈ w.sent))
  | .packet _ => inferInstanceAs (Decidable True)
  | .linkFailure _ _ => inferInstanceAs (Decidable True)
  | .localRepair dst => inferInstanceAs (Decidable (dst ∈ (w.agent u).lrtimers))
  | .purge => inferInstanceAs (Decidable True)
  | .purgeIds => inferInstanceAs (Decidable True)

/-- `recvAODV`; the time to live is counted down first. -/
def Agent.recvAODV (a : Agent) (m : Message) (now : ℚ) : Agent × List Message :=
  match m with
  | .rreq rq => a.recvRequest { rq with ttl_ := rq.ttl_ - 1 } now
  | .rrep rp => a.recvReply { rp with ttl_ := rp.ttl_ - 1 } now
  | .rerr re => a.recvError re

/-- What an agent does. -/
def Agent.react (IP_BROADCAST : ℤ) (a : Agent) (now : ℚ) : Event → Option (Agent × List Message)
  | .message m => some (a.recvAODV m now)
  | .packet p => some (a.recv IP_BROADCAST p now)
  | .linkFailure p next_hop_ => a.rt_ll_failed IP_BROADCAST p next_hop_ now
  | .localRepair dst => some (a.localRepairTimer dst, [])
  | .purge => some (a.rt_purge now)
  | .purgeIds => some (a.id_purge now, [])

/-- The agent `u` reacts, and what it sends is kept. -/
def World.step (IP_BROADCAST : ℤ) (w : World) (u : ℤ) (now : ℚ) (ev : Event) : Option World :=
  ((w.agent u).react IP_BROADCAST now ev).map fun r =>
    ⟨Function.update w.agent u r.1, r.2 ++ w.sent⟩

/-- A run: the agents react one after the other to events that can happen. -/
def World.run (IP_BROADCAST : ℤ) : List (ℤ × ℚ × Event) → World → Option World
  | [], w => some w
  | (u, now, ev) :: l, w =>
    if ev.Possible w u then (w.step IP_BROADCAST u now ev).bind (World.run IP_BROADCAST l) else none

/-- The next hop for `d` at `u`, if the route is up. -/
def World.rt_nexthop (w : World) (d u : ℤ) : Option ℤ :=
  ((w.agent u).rt_lookup d).bind fun rt => if rt.rt_flags = .up then some rt.rt_nexthop else none

end Ns2.Aodv
