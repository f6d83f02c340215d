import Ns2.LinkState.Primitives
import Ns2.Lib.Run

/-!
# The network

All nodes of a topology, the message center they share, and the packets on the wire.

* `World`, `LsEvent`, `World.step` — the network, and what can happen: a node is told about its
  links or to send its periodic update, a packet arrives or is lost, a timer expires.  Packets
  may arrive in any order.
* `World.Inv` — what holds in every reachable state: an LSA with content carries what its origin
  announced last with its number, and its number is its id; a node's own record has one link for
  each neighbor; timers are pending where something is not acknowledged.
* `Inv.step` — every step keeps the invariant.
* `delivered` — the message that an event hands to the protocol.
-/

namespace Ns2.LinkState

/-- A packet of the protocol: it carries a message id only. -/
structure Packet where
  src : ℤ
  dst : ℤ
  msgId : UInt32
deriving DecidableEq, Repr

/-- The network with its two histories. -/
structure World where
  nodes : ℤ → LsRouting
  msgctr_ : LsMessageCenter
  wire : List Packet
  announced : List Announcement
  received : List Reception

/-- What the simulation script sets up: for each node its peers, its links, and the neighbors
with a delay estimate, and the number of nodes. -/
structure Topology where
  peers : ℤ → List ℤ
  links : ℤ → LinkList
  delays : ℤ → List ℤ
  number_of_nodes : ℕ

/-- `LsRouting::init`. -/
def Topology.node (t : Topology) (i : ℤ) : LsRouting where
  myNodeId_ := i
  peerIdList_ := t.peers i
  linkStateList_ := t.links i
  linkStateDatabase_ := ⟨(∅ : LsMap ℤ (List LsLinkState)).insert i (t.links i).1, i⟩
  lsaHistory_ := ∅
  tpmHistory_ := ∅
  ackManager_ := .initTimeout (t.delays i)
  messageBuffer_ := []

/-- All nodes initialized. -/
def World.init (t : Topology) : World where
  nodes := t.node
  msgctr_ := LsMessageCenter.init.setNodeNumber t.number_of_nodes
  wire := []
  announced := []
  received := []

/-- What can happen. -/
inductive LsEvent where
  /-- `sendUpdates`, from time to time. -/
  | sendUpdates (node : ℤ)
  /-- An interface of the node has gone up or down. -/
  | intfChanged (node : ℤ) (links : LinkList)
  /-- `send-buffered-messages`, when the routes of another protocol have changed. -/
  | sendBuffered (node : ℤ)
  /-- A packet on the wire arrives. -/
  | arrive (n : ℕ)
  /-- A packet on the wire is lost. -/
  | lose (n : ℕ)
  /-- A retransmission timer expires. -/
  | expire (node peer : ℤ)

namespace World

/-- What the code of a node runs on. -/
def context (w : World) (i : ℤ) : LsContext :=
  ⟨w.nodes i, w.msgctr_, [], w.announced, w.received⟩

/-- The network after the code of a node has run. -/
def after (w : World) (i : ℤ) (c : LsContext) : World where
  nodes := Function.update w.nodes i c.routing
  msgctr_ := c.msgctr_
  wire := w.wire ++ c.out.map fun o => ⟨i, o.1, o.2⟩
  announced := c.announced
  received := c.received

/-- The network without the packet that arrives or is lost. -/
def drop (w : World) (n : ℕ) : World := { w with wire := w.wire.eraseIdx n }

/-- The database of each node. -/
def dbs (w : World) (i : ℤ) : LsTopoMap := (w.nodes i).linkStateDatabase_

/-- The `n`-th packet on the wire arrives. -/
def arrive (w : World) (n : ℕ) : Option World :=
  match w.wire[n]? with
  | none => none
  | some p => ((w.context p.dst).recv w.dbs p.src p.msgId).map ((w.drop n).after p.dst)

/-- An event; `none` when it cannot happen or the code aborts. -/
def step? (w : World) : LsEvent → Option World
  | .sendUpdates i => ((w.context i).sendLinkStates false).map (w.after i)
  | .intfChanged i links => ((w.context i).intfChanged links).map (w.after i)
  | .sendBuffered i => (w.context i).sendBufferedMessages.map (w.after i)
  | .arrive n => w.arrive n
  | .lose n => if n < w.wire.length then some (w.drop n) else none
  | .expire i peer => ((w.context i).expire peer).map (w.after i)

/-- An event that cannot happen changes nothing. -/
def step (w : World) (e : LsEvent) : World := (w.step? e).getD w

end World

/-! ## The invariant -/

/-- Of the message center: an LSA with content is an announcement. -/
structure LsMessageCenter.Announced (ctr : LsMessageCenter) (log : List Announcement) : Prop where
  /-- Its number is its id, and its content is what its origin announced last with it. -/
  content : ∀ (k : UInt32) (x : LsMessage) (l : List LsLinkState),
    ctr.lsa_messages[k]? = some x → x.contentPtr_ = .lsl l →
      x.messageId_ = k ∧ x.sequenceNumber_ = k ∧
        announcement log x.originNodeId_ k = some l ∧ (l.map LsLinkState.neighborId_).Nodup
  /-- Acknowledgments have no content. -/
  other : ∀ (k : UInt32) (x : LsMessage) (l : List LsLinkState),
    ctr.other_messages[k]? = some x → x.contentPtr_ ≠ .lsl l

/-- Of a node. -/
structure LsRouting.Inv (r : LsRouting) (i : ℤ) : Prop where
  id : r.myNodeId_ = i
  db : r.linkStateDatabase_.myNodeId_ = i
  /-- The own record has one link for each neighbor. -/
  own : ∀ l, r.linkStateDatabase_.map[i]? = some l → (l.map LsLinkState.neighborId_).Nodup
  armed : r.ackManager_.Armed

/-- **What holds in every reachable state.** -/
structure World.Inv (w : World) : Prop where
  center : w.msgctr_.Announced w.announced
  node : ∀ i, (w.nodes i).Inv i
  received : ∀ r ∈ w.received, r.Genuine

/-- The same for what the code of a node runs on. -/
structure LsContext.Inv (c : LsContext) (i : ℤ) : Prop where
  center : c.msgctr_.Announced c.announced
  node : c.routing.Inv i
  received : ∀ r ∈ c.received, r.Genuine

/-! ## Announcements -/

theorem announcement_cons (a : Announcement) (log : List Announcement) (origin : ℤ)
    (seq : UInt32) :
    announcement (a :: log) origin seq =
      if a.origin = origin ∧ a.seq = seq then some a.links else announcement log origin seq := by
  unfold announcement
  rw [List.find?_cons]
  by_cases h : a.origin = origin ∧ a.seq = seq
  · simp [h]
  · simp [h]

section

variable {ctr ctr' : LsMessageCenter} {log : List Announcement} {msg m : LsMessage} {nodeId : ℤ}
  {type : LsMessageType}

/-- A message without content. -/
theorem LsMessageCenter.Announced.update (h : ctr.Announced log)
    (hn : ctr.newMessage nodeId type = some (ctr', msg)) (ht : type.isUpdate = true)
    (hm : m.type_ = type) (hid : m.messageId_ = msg.messageId_)
    (hc : ∀ l, m.contentPtr_ ≠ .lsl l) : (ctr'.assign m).Announced log := by
  refine ⟨?_, ?_⟩
  · intro k x l hx hl
    rcases LsMessageCenter.lookup_created hn ht hm hid hx with ⟨-, rfl⟩ | ⟨-, hx⟩
    · exact absurd hl (hc l)
    · exact h.content k x l hx hl
  · rw [LsMessageCenter.newMessage_other hn ht hm]
    exact h.other

/-- An acknowledgment. -/
theorem LsMessageCenter.Announced.ack (h : ctr.Announced log)
    (hn : ctr.newMessage nodeId type = some (ctr', msg)) (ht : type.isUpdate = false)
    (hm : m.type_ = type) (hid : m.messageId_ = msg.messageId_)
    (hc : ∀ l, m.contentPtr_ ≠ .lsl l) : (ctr'.assign m).Announced log := by
  refine ⟨?_, ?_⟩
  · rw [LsMessageCenter.newMessage_ack_lsa hn ht hm]
    exact h.content
  · intro k x l hx
    rcases LsMessageCenter.lookup_created_ack hn ht hm hid hx with ⟨-, rfl⟩ | ⟨-, hx⟩
    · exact hc l
    · exact h.other k x l hx

/-- An announcement: the log gets it as well. -/
theorem LsMessageCenter.Announced.announce (h : ctr.Announced log) {l : List LsLinkState}
    (hl : (l.map LsLinkState.neighborId_).Nodup)
    (hn : ctr.newMessage nodeId .lsa = some (ctr', msg)) :
    (ctr'.assign { msg with contentPtr_ := .lsl l }).Announced
      (⟨nodeId, msg.sequenceNumber_, l⟩ :: log) := by
  have hmsg := LsMessageCenter.newMessage_msg hn
  have htype : msg.type_ = .lsa := by rw [hmsg]
  have hseq : msg.sequenceNumber_ = msg.messageId_ := by rw [hmsg]
  have horigin : msg.originNodeId_ = nodeId := by rw [hmsg]
  refine ⟨?_, ?_⟩
  · intro k x l' hx hl'
    rw [announcement_cons]
    rcases LsMessageCenter.lookup_created (m := { msg with contentPtr_ := .lsl l }) hn rfl htype
      rfl hx with ⟨hk, rfl⟩ | ⟨hk, hx⟩
    · cases hl'
      simp only at hk ⊢
      rw [hseq, hk, horigin]
      simp [hl]
    · obtain ⟨h1, h2, h3, h4⟩ := h.content k x l' hx hl'
      refine ⟨h1, h2, ?_, h4⟩
      rw [if_neg]
      · exact h3
      · rintro ⟨-, hs⟩
        rw [hseq] at hs
        exact hk hs.symm
  · rw [LsMessageCenter.newMessage_other (m := { msg with contentPtr_ := .lsl l }) hn rfl htype]
    exact h.other

end

/-! ## Every effect keeps the invariant -/

namespace LsContext

variable {c c' : LsContext} {i : ℤ}

theorem map_neighborId_number (seq : UInt32) (l : List LsLinkState) :
    (l.map fun a => { a with sequenceNumber_ := seq }).map LsLinkState.neighborId_ =
      l.map LsLinkState.neighborId_ := by
  rw [List.map_map]
  rfl

/-- Announcing the own record. -/
theorem Inv.announce (h : c.Inv i) {lsl : List LsLinkState} {msg : LsMessage}
    (hlsl : c.routing.linkStateDatabase_.map[c.routing.myNodeId_]? = some lsl)
    (ha : c.announce lsl = some (c', msg)) : c'.Inv i := by
  unfold LsContext.announce at ha
  obtain ⟨⟨ctr, m⟩, hm, ha⟩ := Option.bind_eq_some_iff.mp ha
  cases ha
  rw [h.node.id] at hlsl
  have hnodup : ((lsl.map fun a => { a with sequenceNumber_ := m.sequenceNumber_ }).map
      LsLinkState.neighborId_).Nodup := by
    rw [map_neighborId_number]
    exact h.node.own lsl hlsl
  refine ⟨h.center.announce hnodup hm, ⟨h.node.id, h.node.db, ?_, h.node.armed⟩, h.received⟩
  intro l hl
  simp only [getElem?_lsInsert, h.node.id, if_true] at hl
  cases hl
  exact hnodup

/-- **Every effect of the code of a node keeps the invariant.** -/
theorem Inv.does (h : c.Inv i) (hd : Does c c') : c'.Inv i := by
  cases hd with
  | sendMessage destId msgId =>
    unfold sendMessage
    split_ifs <;> exact ⟨h.center, h.node, h.received⟩
  | acks am ham => exact ⟨h.center, ⟨h.node.id, h.node.db, h.node.own, ham h.node.armed⟩, h.received⟩
  | buffer b => exact ⟨h.center, ⟨h.node.id, h.node.db, h.node.own, h.node.armed⟩, h.received⟩
  | lsaHistory m => exact ⟨h.center, ⟨h.node.id, h.node.db, h.node.own, h.node.armed⟩, h.received⟩
  | tpmHistory m => exact ⟨h.center, ⟨h.node.id, h.node.db, h.node.own, h.node.armed⟩, h.received⟩
  | links l => exact ⟨h.center, ⟨h.node.id, h.node.db, h.node.own, h.node.armed⟩, h.received⟩
  | received hr =>
    refine ⟨h.center, h.node, ?_⟩
    intro r' hr'
    rcases List.mem_cons.mp hr' with rfl | hr'
    · exact hr
    · exact h.received r' hr'
  | deleteMessage msgId =>
    refine ⟨⟨h.center.content, ?_⟩, h.node, h.received⟩
    intro k x l hx
    simp only [LsMessageCenter.deleteMessage, getElem?_lsErase] at hx
    split_ifs at hx
    exact h.center.other k x l hx
  | ack hn ht origin seq =>
    refine ⟨h.center.ack hn ht ?_ rfl ?_, h.node, h.received⟩
    · rw [LsMessageCenter.newMessage_msg hn]
    · intro l hl
      rw [LsMessageCenter.newMessage_msg hn] at hl
      cases hl
  | update hn ht hm hid hc => exact ⟨h.center.update hn ht hm hid hc, h.node, h.received⟩
  | announce ha hlsl => exact h.announce hlsl ha
  | ownLinks l =>
    refine ⟨h.center, ⟨h.node.id, ?_, ?_, h.node.armed⟩, h.received⟩
    · unfold updateDatabase
      rw [update_myNodeId]
      exact h.node.db
    · intro x hx
      unfold updateDatabase at hx
      rw [h.node.id] at hx
      rw [getElem?_update, if_pos rfl] at hx
      cases hx
      exact nodup_updated l.2 h.node.own
  | record ho l =>
    refine ⟨h.center, ⟨h.node.id, h.node.db, ?_, h.node.armed⟩, h.received⟩
    intro x hx
    rw [h.node.id] at ho
    rw [getElem?_lsInsert, if_neg (Ne.symm ho)] at hx
    exact h.node.own x hx

theorem Inv.runs (h : c.Inv i) (hr : Runs c c') : c'.Inv i := by
  induction hr with
  | refl => exact h
  | tail _ hd ih => exact ih.does hd

end LsContext

/-! ## Every step keeps it -/

namespace World

variable {w w' : World}

theorem inv_init (t : Topology) : (init t).Inv := by
  refine ⟨⟨?_, ?_⟩, fun i => ⟨rfl, rfl, ?_, LsRetransmissionManager.armed_initTimeout _⟩,
    fun r hr => absurd hr List.not_mem_nil⟩
  · intro k x l hx
    simp only [init, LsMessageCenter.setNodeNumber, LsMessageCenter.init] at hx
    rw [Std.TreeMap.getElem?_emptyc] at hx
    cases hx
  · intro k x l hx
    simp only [init, LsMessageCenter.setNodeNumber, LsMessageCenter.init] at hx
    rw [Std.TreeMap.getElem?_emptyc] at hx
    cases hx
  · intro l hl
    simp only [init, Topology.node] at hl
    rw [getElem?_lsInsert, if_pos rfl] at hl
    cases hl
    exact (t.links i).2

theorem Inv.context (h : w.Inv) (i : ℤ) : (w.context i).Inv i :=
  ⟨h.center, h.node i, h.received⟩

theorem Inv.drop (h : w.Inv) (n : ℕ) : (w.drop n).Inv :=
  ⟨h.center, h.node, h.received⟩

theorem Inv.after (h : w.Inv) {i : ℤ} {c : LsContext} (hc : c.Inv i) : (w.after i c).Inv := by
  refine ⟨hc.center, fun j => ?_, hc.received⟩
  unfold World.after
  by_cases hj : j = i
  · rw [hj]
    simp only [Function.update_self]
    exact hc.node
  · simp only [Function.update_of_ne hj]
    exact h.node j

/-- A packet that arrives. -/
theorem arrive_eq_some {n : ℕ} : w.arrive n = some w' ↔
    ∃ p c, w.wire[n]? = some p ∧ (w.context p.dst).recv w.dbs p.src p.msgId = some c ∧
      w' = (w.drop n).after p.dst c := by
  unfold arrive
  cases w.wire[n]? with
  | none => simp
  | some p => simp [eq_comm]

/-- What a step is: the code of a node has run, or a packet is gone. -/
theorem step?_cases {e : LsEvent} (h : w.step? e = some w') :
    (∃ i c n, LsContext.Runs (w.context i) c ∧ w' = (w.drop n).after i c) ∨
      (∃ i c, LsContext.Runs (w.context i) c ∧ w' = w.after i c) ∨ ∃ n, w' = w.drop n := by
  cases e with
  | sendUpdates i =>
    obtain ⟨c, hc, rfl⟩ := Option.map_eq_some_iff.mp h
    exact Or.inr (Or.inl ⟨i, c, LsContext.sendLinkStates_runs hc, rfl⟩)
  | intfChanged i links =>
    obtain ⟨c, hc, rfl⟩ := Option.map_eq_some_iff.mp h
    exact Or.inr (Or.inl ⟨i, c, LsContext.intfChanged_runs hc, rfl⟩)
  | sendBuffered i =>
    obtain ⟨c, hc, rfl⟩ := Option.map_eq_some_iff.mp h
    exact Or.inr (Or.inl ⟨i, c, LsContext.sendBufferedMessages_runs hc, rfl⟩)
  | arrive n =>
    obtain ⟨p, c, -, hc, rfl⟩ := arrive_eq_some.mp h
    exact Or.inl ⟨p.dst, c, n, LsContext.recv_runs hc, rfl⟩
  | lose n =>
    simp only [step?] at h
    split_ifs at h
    cases h
    exact Or.inr (Or.inr ⟨n, rfl⟩)
  | expire i peer =>
    obtain ⟨c, hc, rfl⟩ := Option.map_eq_some_iff.mp h
    exact Or.inr (Or.inl ⟨i, c, LsContext.expire_runs hc, rfl⟩)

theorem Inv.step? (h : w.Inv) {e : LsEvent} (hs : w.step? e = some w') : w'.Inv := by
  rcases step?_cases hs with ⟨i, c, n, hc, rfl⟩ | ⟨i, c, hc, rfl⟩ | ⟨n, rfl⟩
  · exact (h.drop n).after ((h.context i).runs hc)
  · exact h.after ((h.context i).runs hc)
  · exact h.drop n

/-- **Every step keeps the invariant.** -/
theorem Inv.step (h : w.Inv) (e : LsEvent) : (w.step e).Inv := by
  unfold World.step
  cases hs : w.step? e with
  | none => exact h
  | some w' => exact h.step? hs

/-! ## Messages handed to the protocol -/

/-- A message handed to the protocol at a node. -/
structure Delivery where
  receiver : ℤ
  sender : ℤ
  msg : LsMessage

/-- What an event hands to the protocol. -/
def delivered (w : World) : LsEvent → Option Delivery
  | .arrive n => do
    let p ← w.wire[n]?
    let msg ← (w.context p.dst).incoming p.src p.msgId
    return ⟨p.dst, p.src, msg⟩
  | _ => none

variable {e : LsEvent} {d : Delivery}

/-- A step that hands a message to the protocol. -/
theorem delivered_step (hs : w.step? e = some w') (hd : w.delivered e = some d) :
    ∃ msgId n c, (w.context d.receiver).incoming d.sender msgId = some d.msg ∧
      (w.context d.receiver).recv w.dbs d.sender msgId = some c ∧
      w' = (w.drop n).after d.receiver c := by
  cases e with
  | arrive n =>
    obtain ⟨p, c, hp, hc, rfl⟩ := arrive_eq_some.mp hs
    obtain ⟨q, hq, hd⟩ := Option.bind_eq_some_iff.mp hd
    obtain ⟨msg, hmsg, hd⟩ := Option.bind_eq_some_iff.mp hd
    cases hd
    rw [hp] at hq
    cases hq
    exact ⟨p.msgId, n, c, hmsg, hc, rfl⟩
  | _ => cases hd

end World

end Ns2.LinkState
