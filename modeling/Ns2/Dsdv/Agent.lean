import Mathlib

/-!
# Destination-sequenced distance-vector routing

The model of `dsdv/dsdv.cc` and `dsdv/rtable.cc`: the table of an agent and what changes it.

* `RtableEnt`, `Agent` — an entry of the routing table, and an agent.
* `makeUpdate` — the advertisements of a full or a partial update.
* `helper_callback`, `lost_link` — routes over a neighbor that is silent or lost.
* `forwardPacket`, `recv` — packets, which wait in the entry of a destination without a route.
* `hear`, `processUpdate` — an update of a neighbor.
* `World`, `step` — a network of agents that have started up.

Sequence numbers do not wrap, times are rational.  When updates are due is left open: an agent
may send a full or a partial update at any time.
-/

namespace Ns2.Dsdv

def BIG : ℕ := 250

def MAX_QUEUE_LENGTH : ℕ := 5

def IP_DEF_TTL : ℤ := 32

/-- A packet that is not an update. -/
structure Packet where
  saddr : ℤ
  daddr : ℤ
  ttl_ : ℤ
  num_forwards : ℕ
deriving DecidableEq

/-- An entry of the routing table. -/
structure RtableEnt where
  dst : ℤ
  hop : ℤ
  metric : ℕ
  seqnum : ℕ
  advertise_ok_at : ℚ
  advert_seqnum : Bool
  advert_metric : Bool
  last_advertised_metric : ℕ
  changed_at : ℚ
  new_seqnum_at : ℚ
  wst : ℚ
  /-- A timeout for the neighbor `dst` is scheduled. -/
  timeout_event : Bool
  /-- The packets that wait for a route; `none` is the null pointer. -/
  q : Option (List Packet)

/-- An entry of zeros. -/
def RtableEnt.zero : RtableEnt := ⟨0, 0, 0, 0, 0, false, false, 0, 0, 0, 0, false, none⟩

abbrev RoutingTable := Std.TreeMap ℤ RtableEnt

namespace RoutingTable

def AddEntry (t : RoutingTable) (ent : RtableEnt) : RoutingTable := t.insert ent.dst ent

def GetEntry (t : RoutingTable) (dest : ℤ) : Option RtableEnt := t[dest]?

/-- The entries in the order of `NextLoop`. -/
def entries (t : RoutingTable) : List RtableEnt := t.toList.map Prod.snd

/-- An assignment through the pointer that `GetEntry` returns. -/
def setAt (t : RoutingTable) (dest : ℤ) (f : RtableEnt → RtableEnt) : RoutingTable :=
  match t.GetEntry dest with
  | none => t
  | some e => t.insert dest (f e)

end RoutingTable

/-- What an update says of one destination. -/
structure Advert where
  dst : ℤ
  metric : ℕ
  seqnum : ℕ
deriving DecidableEq

/-- The constants of an agent. -/
structure Config where
  alpha_ : ℚ
  wst0_ : ℚ
  /-- `diff_subnet`: the destination is outside the domain. -/
  diff_subnet : ℤ → Bool
  /-- The address of broadcast packets. -/
  IP_BROADCAST : ℤ

structure Agent where
  myaddr_ : ℤ
  seqno_ : ℕ
  table_ : RoutingTable

/-- The agent after `startUp`. -/
def Agent.startUp (myaddr_ : ℤ) (now : ℚ) : Agent where
  myaddr_ := myaddr_
  seqno_ := 2
  table_ := (∅ : RoutingTable).AddEntry
    { RtableEnt.zero with
      dst := myaddr_, hop := myaddr_, advert_seqnum := true, advert_metric := true
      changed_at := now, new_seqnum_at := now }

/-! ## Updates that are sent -/

/-- The entry has something new to advertise. -/
def RtableEnt.wanted (now : ℚ) (e : RtableEnt) : Bool :=
  (e.advert_seqnum || e.advert_metric) && decide (e.advertise_ok_at ≤ now)

/-- The entry is part of the update. -/
def RtableEnt.included (periodic : Bool) (now : ℚ) (e : RtableEnt) : Bool :=
  if periodic then decide (e.advertise_ok_at ≤ now) else e.wanted now

/-- The entry has been advertised. -/
def RtableEnt.advertised (periodic : Bool) (now : ℚ) (e : RtableEnt) : RtableEnt :=
  if e.included periodic now then
    { e with
      last_advertised_metric := e.metric, advert_seqnum := false
      advert_metric := if periodic then false else e.advert_metric }
  else e

/-- The agent's own entry in a full update. -/
def Agent.ownEntry (a : Agent) (now : ℚ) : RtableEnt :=
  { RtableEnt.zero with
    dst := a.myaddr_, hop := a.myaddr_, seqnum := a.seqno_ + 2, advert_seqnum := true
    changed_at := now, new_seqnum_at := now }

/-- The advertisements of an update, and the entries after it; the number of advertisements is
sent in one byte. -/
def writeUpdate (a : Agent) (periodic : Bool) (change_count : ℕ) (now : ℚ) :
    Agent × Option (List Advert) :=
  if change_count = 0 then (a, none)
  else
    ({ a with table_ := a.table_.map fun _ e => e.advertised periodic now },
      some (((a.table_.entries.filter fun e => e.included periodic now).map
        fun e => ⟨e.dst, e.metric, e.seqnum⟩).take (change_count % 256)))

/-- `makeUpdate`. -/
def makeUpdate (a : Agent) (periodic : Bool) (now : ℚ) : Agent × Option (List Advert) :=
  let rtbl_sz := a.table_.entries.length
  let change_count := a.table_.entries.countP fun e => e.wanted now
  let unadvertiseable := a.table_.entries.countP fun e => decide (e.advertise_ok_at > now)
  if periodic ∨ (change_count * 3 > rtbl_sz ∧ change_count > 3) then
    writeUpdate
      { a with seqno_ := a.seqno_ + 2, table_ := a.table_.AddEntry (a.ownEntry now) }
      true (rtbl_sz - unadvertiseable) now
  else writeUpdate a false change_count now

/-! ## Packets -/

/-- `q->enque`, and drops from the front of a queue that is too long. -/
def enque (q : Option (List Packet)) (p : Packet) : List Packet :=
  let l := q.getD [] ++ [p]
  l.drop (l.length - MAX_QUEUE_LENGTH)

variable (c : Config)

/-- `forwardPacket`, for its effect on the table.  A packet for a destination outside the domain
is sent or dropped. -/
def forwardPacket (t : RoutingTable) (p : Packet) (now : ℚ) : RoutingTable :=
  if c.diff_subnet p.daddr then t
  else
    match t.GetEntry p.daddr with
    | some e =>
      if e.metric ≠ BIG then t else t.setAt p.daddr fun e => { e with q := some (enque e.q p) }
    | none =>
      -- brand new destination
      t.AddEntry
        { RtableEnt.zero with
          dst := p.daddr, hop := p.daddr, metric := BIG, advertise_ok_at := now + 604800
          changed_at := now, new_seqnum_at := now, wst := c.wst0_, q := some [p] }

/-- The packet with its time to live as `recv` sets it; `none` when it is dropped. -/
def ttlOf (myaddr_ : ℤ) (p : Packet) : Option Packet :=
  if p.saddr = myaddr_ ∧ p.num_forwards = 0 then some { p with ttl_ := IP_DEF_TTL }
  else if p.saddr = myaddr_ then none
  else if p.ttl_ - 1 = 0 then none
  else some { p with ttl_ := p.ttl_ - 1 }

/-- `recv` of a packet that is not an update, for its effect on the table. -/
def recv (myaddr_ : ℤ) (t : RoutingTable) (p : Packet) (now : ℚ) : RoutingTable :=
  match ttlOf myaddr_ p with
  | none => t
  | some p => if p.daddr = c.IP_BROADCAST then t else forwardPacket c t p now

/-! ## Neighbors that are silent or lost -/

/-- A route over the neighbor `nb` is taken down. -/
def RtableEnt.down (nb : ℤ) (now : ℚ) (e : RtableEnt) : RtableEnt :=
  if e.hop = nb ∧ e.metric ≠ BIG then
    { e with
      metric := BIG, advertise_ok_at := now, advert_metric := true, advert_seqnum := true
      seqnum := e.seqnum + 1 }
  else e

/-- `helper_callback` for the timeout of the neighbor `nb`. -/
def helper_callback (t : RoutingTable) (nb : ℤ) (now : ℚ) : RoutingTable :=
  (RoutingTable.setAt (t.map fun _ e => e.down nb now) nb fun e => { e with timeout_event := false })

/-- `lost_link`: the packet `p` could not be sent to `next_hop_`. -/
def lost_link (myaddr_ : ℤ) (t : RoutingTable) (next_hop_ : ℤ) (p : Packet) (now : ℚ) :
    RoutingTable :=
  match t.GetEntry next_hop_ with
  | none => t
  | some e =>
    recv c myaddr_
      (if e.timeout_event ∨ e.metric ≠ BIG then helper_callback t next_hop_ now else t) p now

/-! ## Updates that are received -/

/-- The entry for an advertisement of `src`, with the settling time of the route so far. -/
def newRte (src : ℤ) (prte : Option RtableEnt) (a : Advert) (now : ℚ) : RtableEnt :=
  let metric := if a.metric ≠ BIG then a.metric + 1 else a.metric
  match prte with
  | none =>
    { RtableEnt.zero with
      dst := a.dst, hop := src, metric := metric, seqnum := a.seqnum, changed_at := now
      wst := c.wst0_, new_seqnum_at := now
      advertise_ok_at := if metric ≠ BIG then now + c.wst0_ * 2 else now }
  | some e =>
    let wst :=
      if e.seqnum = a.seqnum then e.wst
      else c.alpha_ * e.wst + (1 - c.alpha_) * (e.changed_at - e.new_seqnum_at)
    { e with
      dst := a.dst, hop := src, metric := metric, seqnum := a.seqnum, changed_at := now
      wst := wst
      new_seqnum_at := if e.seqnum = a.seqnum then e.new_seqnum_at else now
      advertise_ok_at := if metric ≠ BIG ∧ e.metric ≠ BIG then now + wst * 2 else now }

/-- Whether to update the table: the table, and the entry `rte` with its flags. -/
def decideUpdate (t : RoutingTable) (prte : Option RtableEnt) (rte : RtableEnt) (now : ℚ) :
    RoutingTable × RtableEnt :=
  match prte with
  | none =>
    let rte := if rte.metric < BIG then { rte with advert_metric := true } else rte
    (t.AddEntry rte, rte)
  | some e =>
    if e.seqnum = rte.seqnum then
      if rte.metric < e.metric then
        let rte := { rte with advert_metric := decide (rte.metric ≠ e.last_advertised_metric) }
        (t.AddEntry rte, rte)
      else (t, rte)
    else if e.seqnum < rte.seqnum then
      let rte :=
        { rte with
          advert_seqnum := true
          advert_metric := decide (rte.metric ≠ e.last_advertised_metric) }
      (t.AddEntry rte, rte)
    else if rte.metric = BIG ∧ e.metric ≠ BIG then
      (t.setAt rte.dst fun e => { e with advertise_ok_at := now, advert_metric := true }, rte)
    else (t, rte)

/-- The packets that wait in the entry of `dst` are given to `recv` again, one by one. -/
def resend (myaddr_ dst : ℤ) (now : ℚ) : ℕ → RoutingTable → Option RoutingTable
  | 0, _ => none
  | n + 1, t =>
    match (t.GetEntry dst).bind RtableEnt.q with
    | some (p :: ps) =>
      resend myaddr_ dst now n (recv c myaddr_ (t.setAt dst fun e => { e with q := some ps }) p now)
    | _ => some t

/-- One advertisement of an update. -/
def hear (myaddr_ src : ℤ) (n : ℕ) (t : RoutingTable) (a : Advert) (now : ℚ) :
    Option RoutingTable :=
  if a.dst = myaddr_ then some t
  else
    let prte := t.GetEntry a.dst
    let (t, rte) := decideUpdate t prte (newRte c src prte a now) now
    if rte.q ≠ none ∧ rte.metric ≠ BIG then
      (resend c myaddr_ a.dst now n t).map fun t => t.AddEntry { rte with q := none }
    else some t

/-- All advertisements of an update. -/
def hearAll (myaddr_ src : ℤ) (n : ℕ) (now : ℚ) : List Advert → RoutingTable → Option RoutingTable
  | [], t => some t
  | a :: as, t => (hear c myaddr_ src n t a now).bind (hearAll myaddr_ src n now as)

/-- The timeout of the neighbor is scheduled anew. -/
def touch (src : ℤ) (t : RoutingTable) (now : ℚ) : RoutingTable :=
  match t.GetEntry src with
  | some _ => t.setAt src fun e => { e with timeout_event := true }
  | none =>
    t.AddEntry
      { RtableEnt.zero with
        dst := src, hop := src, metric := 1, advertise_ok_at := now + 604800
        changed_at := now, new_seqnum_at := now, wst := c.wst0_, timeout_event := true }

/-- `processUpdate`. -/
def processUpdate (myaddr_ src : ℤ) (n : ℕ) (t : RoutingTable) (as : List Advert) (now : ℚ) :
    Option RoutingTable :=
  (hearAll c myaddr_ src n now as t).map fun t => touch c src t now

/-! ## Networks -/

/-- What can happen at an agent. -/
inductive Event where
  /-- A periodic update is due, or a triggered one. -/
  | send (periodic : Bool)
  /-- The update `as` of `src` arrives. -/
  | update (src : ℤ) (as : List Advert)
  /-- A packet arrives. -/
  | packet (p : Packet)
  /-- The timeout of a neighbor expires. -/
  | timeout (nb : ℤ)
  /-- The link layer reports that `p` could not be sent. -/
  | lost (next_hop_ : ℤ) (p : Packet)

/-- A network: every address has an agent, and the updates sent so far are kept with their
senders. -/
structure World where
  agent : ℤ → Agent
  sent : List (ℤ × List Advert)

/-- All agents have executed `startUp`. -/
def World.init (now : ℚ) : World := ⟨fun u => Agent.startUp u now, []⟩

/-- The event can happen at `u`: an update has been sent by another agent, a timeout is scheduled,
and failures are reported for neighbors. -/
def Event.Possible (w : World) (u : ℤ) : Event → Prop
  | .send _ => True
  | .update src as => src ≠ u ∧ (src, as) ∈ w.sent
  | .packet _ => True
  | .timeout nb => ((w.agent u).table_.GetEntry nb).any RtableEnt.timeout_event = true
  | .lost next_hop_ _ => next_hop_ ≠ u

instance (w : World) (u : ℤ) : (ev : Event) → Decidable (ev.Possible w u)
  | .send _ => inferInstanceAs (Decidable True)
  | .update src as => inferInstanceAs (Decidable (src ≠ u ∧ (src, as) ∈ w.sent))
  | .packet _ => inferInstanceAs (Decidable True)
  | .timeout nb =>
    inferInstanceAs (Decidable (((w.agent u).table_.GetEntry nb).any RtableEnt.timeout_event = true))
  | .lost next_hop_ _ => inferInstanceAs (Decidable (next_hop_ ≠ u))

/-- What an agent does. -/
def Agent.react (n : ℕ) (a : Agent) (now : ℚ) : Event → Option (Agent × Option (List Advert))
  | .send periodic => some (makeUpdate a periodic now)
  | .update src as =>
    (processUpdate c a.myaddr_ src n a.table_ as now).map fun t => ({ a with table_ := t }, none)
  | .packet p => some ({ a with table_ := recv c a.myaddr_ a.table_ p now }, none)
  | .timeout nb => some ({ a with table_ := helper_callback a.table_ nb now }, none)
  | .lost next_hop_ p =>
    some ({ a with table_ := lost_link c a.myaddr_ a.table_ next_hop_ p now }, none)

/-- The agent `u` reacts, and what it sends is kept. -/
def World.step (n : ℕ) (w : World) (u : ℤ) (now : ℚ) (ev : Event) : Option World :=
  ((w.agent u).react c n now ev).map fun r =>
    ⟨Function.update w.agent u r.1, (r.2.map fun as => (u, as)).toList ++ w.sent⟩

/-- A run: the agents react one after the other to events that can happen. -/
def World.run (n : ℕ) : List (ℤ × ℚ × Event) → World → Option World
  | [], w => some w
  | (u, now, ev) :: l, w =>
    if ev.Possible w u then (w.step c n u now ev).bind (World.run n l) else none

/-- The next hop for `d` at `u`, if the metric is not infinite. -/
def World.hop (w : World) (d u : ℤ) : Option ℤ :=
  ((w.agent u).table_.GetEntry d).bind fun e => if e.metric ≠ BIG then some e.hop else none

end Ns2.Dsdv
