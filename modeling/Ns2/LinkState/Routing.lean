import Ns2.LinkState.Retransmission

/-!
# Link-state routing at a node

`LsRouting`, the protocol at one node: what it announces, what it does with announcements and
topology maps of its neighbors, and what it acknowledges.

* `sendLinkStates`, `linkStateChanged`, `sendBufferedMessages` — what a node sends of its own.
* `receiveLSA`, `receiveTopo`, `regenAndSend`, `receiveMessage` — what it does with a message.
* `intfChanged`, `receivePacket`, `timeout` — the entry points of the agent, with the flush of
  the buffer that the Tcl side does after new routes.

The routing table computed from the database is not modelled: nothing sent depends on it.
-/

namespace Ns2.LinkState

/-- The data of a node. -/
structure LsRouting where
  myNodeId_ : ℤ
  /-- The neighbors that run the protocol. -/
  peerIdList_ : List ℤ
  /-- The links as the agent has reported them last. -/
  linkStateList_ : LinkList
  linkStateDatabase_ : LsTopoMap
  lsaHistory_ : LsMessageHistory
  tpmHistory_ : LsMessageHistory
  ackManager_ : LsRetransmissionManager
  /-- For each message waiting to be sent, the peer, and the message by its id. -/
  messageBuffer_ : List (ℤ × UInt32)

/-- An announcement: a node has given the number `seq` to these links. -/
structure Announcement where
  origin : ℤ
  seq : UInt32
  links : List LsLinkState
deriving DecidableEq, Repr

/-- A reception: `receiver` has received the LSA `msg` from `sender` and has generated `ack`. -/
structure Reception where
  receiver : ℤ
  sender : ℤ
  msg : LsMessage
  ack : LsMessage
deriving DecidableEq, Repr

/-- The acknowledgment is for the origin of the LSA, and carries the id of the LSA. -/
structure Reception.Genuine (r : Reception) : Prop where
  type_ : r.ack.type_ = .lsaack
  origin : r.ack.originNodeId_ = r.msg.originNodeId_
  seq : r.ack.sequenceNumber_ = r.msg.messageId_

/-- What the code of a node runs on: its own data, the store of messages, the packets sent so
far in this call, and two histories that the code does not have. -/
structure LsContext where
  routing : LsRouting
  msgctr_ : LsMessageCenter
  out : List (ℤ × UInt32)
  announced : List Announcement
  received : List Reception

/-- The links that `origin` announced last with the number `seq`. -/
def announcement (log : List Announcement) (origin : ℤ) (seq : UInt32) :
    Option (List LsLinkState) :=
  (log.find? fun a => decide (a.origin = origin ∧ a.seq = seq)).map Announcement.links

/-- `LsRouting::isUp`. -/
def LsRouting.isUp (r : LsRouting) (neighborId : ℤ) : Bool :=
  match r.linkStateList_.1.find? fun l => decide (l.neighborId_ = neighborId) with
  | some l => decide (l.status_ = .up)
  | none => false

namespace LsContext

/-! ## Sending -/

/-- `rtProtoLS::sendMessage`: there is an address only for peers. -/
def sendMessage (c : LsContext) (destId : ℤ) (msgId : UInt32) : LsContext :=
  if destId ∈ c.routing.peerIdList_ then { c with out := c.out ++ [(destId, msgId)] } else c

/-- `ackManager_.messageOut`. -/
def messageOut (c : LsContext) (peerId : ℤ) (msg : LsMessage) : LsContext :=
  { c with routing.ackManager_ := c.routing.ackManager_.messageOut peerId msg }

/-- `bufferedSend`. -/
def bufferedSend (c : LsContext) (peerId : ℤ) (msg : LsMessage) : LsContext :=
  { c with routing.messageBuffer_ := c.routing.messageBuffer_ ++ [(peerId, msg.messageId_)] }

/-- One message of the buffer; `none` when its pointer dangles. -/
def sendBuffered (c : LsContext) (b : ℤ × UInt32) : Option LsContext :=
  match c.msgctr_.retrieveMessagePtr b.2 with
  | some msg => some ((c.messageOut b.1 msg).sendMessage b.1 msg.messageId_)
  | none => none

/-- `sendBufferedMessages`. -/
def sendBufferedMessages (c : LsContext) : Option LsContext :=
  (c.routing.messageBuffer_.foldlM sendBuffered c).map fun c =>
    { c with routing.messageBuffer_ := [] }

/-- `sendAck`: also the acknowledgment generated. -/
def sendAck (c : LsContext) (nbrId : ℤ) (type : LsMessageType) (originNodeIdAcked : ℤ)
    (seqAcked : UInt32) : Option (LsContext × LsMessage) := do
  let (ctr, msg) ← c.msgctr_.newMessage c.routing.myNodeId_ type
  let ack := { msg with originNodeId_ := originNodeIdAcked, sequenceNumber_ := seqAcked }
  return (({ c with msgctr_ := ctr.assign ack } : LsContext).sendMessage nbrId ack.messageId_, ack)

/-- A message goes to a peer, now or with the buffer. -/
def sendOwn (buffer : Bool) (msg : LsMessage) (c : LsContext) (peerId : ℤ) : LsContext :=
  if c.routing.isUp peerId then
    if buffer then c.bufferedSend peerId msg
    else (c.sendMessage peerId msg.messageId_).messageOut peerId msg
  else c

/-- The own links numbered anew, in the database and in a new message. -/
def announce (c : LsContext) (lsl : List LsLinkState) : Option (LsContext × LsMessage) := do
  let me := c.routing.myNodeId_
  let (ctr, msg) ← c.msgctr_.newMessage me .lsa
  let seq := msg.sequenceNumber_
  let lsl := lsl.map fun l => { l with sequenceNumber_ := seq }
  let msg := { msg with contentPtr_ := .lsl lsl }
  return ({ c with
    msgctr_ := ctr.assign msg
    routing.linkStateDatabase_.map := c.routing.linkStateDatabase_.map.insert me lsl
    announced := ⟨me, seq, lsl⟩ :: c.announced }, msg)

/-- `sendLinkStates`. -/
def sendLinkStates (c : LsContext) (buffer : Bool) : Option LsContext :=
  if c.routing.peerIdList_ = [] then some c
  else
    match c.routing.linkStateDatabase_.map[c.routing.myNodeId_]? with
    | none | some [] => some c
    | some lsl => do
      let (c, msg) ← c.announce lsl
      return c.routing.peerIdList_.foldl (sendOwn buffer msg) c

/-- `sendTopo`: the message points to the live database. -/
def sendTopo (c : LsContext) (neighborId : ℤ) : Option LsContext := do
  let (ctr, msg) ← c.msgctr_.newMessage c.routing.myNodeId_ .tpm
  let msg := { msg with contentPtr_ := .topo c.routing.myNodeId_ }
  return ({ c with msgctr_ := ctr.assign msg } : LsContext).bufferedSend neighborId msg

/-! ## Changes of the own links -/

/-- The second loop of `linkStateChanged`, over the new and the old links side by side: `none`
when they are not aligned. -/
def linksChanged : List LsLinkState → List LsLinkState → LsContext → Option LsContext
  | [], _, c => some c
  | _ :: _, [], _ => none
  | new :: ns, old :: os, c =>
    if new.neighborId_ ≠ old.neighborId_ then none
    else if new.status_ = .down then
      linksChanged ns os
        { c with routing.ackManager_ := c.routing.ackManager_.cancelTimer new.neighborId_ }
    else if old.status_ = .up then linksChanged ns os c
    else do
      let c ← c.sendTopo new.neighborId_
      linksChanged ns os c

/-- The database after an update. -/
def updateDatabase (c : LsContext) (nodeId : ℤ) (l : List LsLinkState) : LsContext :=
  { c with routing.linkStateDatabase_ := (c.routing.linkStateDatabase_.update nodeId l).1 }

/-- `linkStateChanged`. -/
def linkStateChanged (c : LsContext) : Option LsContext := do
  let me := c.routing.myNodeId_
  let links := c.routing.linkStateList_.1
  let oldlsl ← c.routing.linkStateDatabase_.map[me]?
  let changed := (c.routing.linkStateDatabase_.update me links).2
  let c := c.updateDatabase me links
  let c ← (if changed then c.sendLinkStates true else some c : Option LsContext)
  linksChanged links oldlsl c

/-! ## Receiving -/

/-- A peer gets a copy of an LSA, unless the LSA comes from it. -/
def forwardTo (senderId : ℤ) (msg : LsMessage) (c : LsContext) (peerId : ℤ) : LsContext :=
  if peerId = msg.originNodeId_ ∨ peerId = senderId then c
  else if c.routing.isUp peerId then
    (c.messageOut peerId msg).sendMessage peerId msg.messageId_
  else c

/-- The sequence number goes into the history. -/
def markSeen (c : LsContext) (msg : LsMessage) : LsContext :=
  { c with
    routing.lsaHistory_ :=
      (c.routing.lsaHistory_.isNewMessage msg.originNodeId_ msg.sequenceNumber_).1 }

/-- A new LSA: it is written down, forwarded, and its content, if any, goes into the database. -/
def acceptLSA (c : LsContext) (senderId : ℤ) (msg : LsMessage) : Option (LsContext × Bool) :=
  let c := c.routing.peerIdList_.foldl (forwardTo senderId msg) (c.markSeen msg)
  match msg.contentPtr_ with
  | .null => some (c, false)
  | .lsl l =>
    some (c.updateDatabase msg.originNodeId_ l,
      (c.routing.linkStateDatabase_.update msg.originNodeId_ l).2)
  | .topo _ => none

/-- The message is acknowledged with its id. -/
def ackLSA (c : LsContext) (senderId : ℤ) (msg : LsMessage) : Option LsContext := do
  let (c, ack) ← c.sendAck senderId .lsaack msg.originNodeId_ msg.messageId_
  return { c with received := ⟨c.routing.myNodeId_, senderId, msg, ack⟩ :: c.received }

/-- Whether `receiveLSA` accepts a message as new. -/
def accepts (c : LsContext) (msg : LsMessage) : Bool :=
  decide (msg.originNodeId_ ≠ c.routing.myNodeId_) &&
    c.routing.lsaHistory_.isNew msg.originNodeId_ msg.sequenceNumber_

/-- `receiveLSA`: whether there is a need to recompute routes. -/
def receiveLSA (c : LsContext) (senderId : ℤ) (msg : LsMessage) : Option (LsContext × Bool) := do
  let c ← c.ackLSA senderId msg
  if c.accepts msg then c.acceptLSA senderId msg else return (c, false)

/-- A peer gets a regenerated LSA with the buffer. -/
def regenTo (exception origin : ℤ) (msg : LsMessage) (c : LsContext) (peerId : ℤ) : LsContext :=
  if peerId = origin ∨ peerId = exception ∨ c.routing.isUp peerId = false then c
  else c.bufferedSend peerId msg

/-- `regenAndSend`.  The copy of the links that it makes is not given to the message. -/
def regenAndSend (c : LsContext) (exception origin : ℤ) (lsl : List LsLinkState) :
    Option LsContext :=
  match lsl with
  | [] => none
  | first :: _ => do
    let (ctr, msg) ← c.msgctr_.newMessage origin .lsa
    let msg := { msg with sequenceNumber_ := first.sequenceNumber_, originNodeId_ := origin }
    let c := { c with msgctr_ := ctr.assign msg }
    return c.routing.peerIdList_.foldl (regenTo exception origin msg) c

/-- Whether a record of a neighbor's topology map replaces the own one; `none` when the first
link of an empty record is looked at. -/
def recordNewer (myRecord : Option (List LsLinkState)) (lsl : List LsLinkState) : Option Bool :=
  match myRecord, lsl with
  | none, _ | some [], _ => some true
  | some (mine :: _), theirs :: _ => some (moreUpToDate mine.sequenceNumber_ theirs.sequenceNumber_)
  | some (_ :: _), [] => none

/-- One record of a neighbor's topology map. -/
def receiveRecord (neighborId : ℤ) (r : LsContext × Bool) (record : ℤ × List LsLinkState) :
    Option (LsContext × Bool) :=
  let c := r.1
  if record.1 = c.routing.myNodeId_ then some r
  else do
    let newer ← recordNewer c.routing.linkStateDatabase_.map[record.1]? record.2
    if newer then
      let c := { c with
        routing.linkStateDatabase_.map :=
          c.routing.linkStateDatabase_.map.insert record.1 record.2 }
      let c ← c.regenAndSend neighborId record.1 record.2
      return (c, true)
    else return r

/-- The sequence number of a topology map goes into the history. -/
def markTopo (c : LsContext) (msg : LsMessage) : LsContext :=
  { c with
    routing.tpmHistory_ :=
      (c.routing.tpmHistory_.isNewMessage msg.originNodeId_ msg.sequenceNumber_).1 }

/-- A new topology map: its records are compared with the own ones. -/
def acceptTopo (c : LsContext) (dbs : ℤ → LsTopoMap) (neighborId : ℤ) (msg : LsMessage) :
    Option (LsContext × Bool) :=
  match msg.contentPtr_ with
  | .null => some (c, false)
  | .topo nodeId => (dbs nodeId).map.toList.foldlM (receiveRecord neighborId) (c, false)
  | .lsl _ => none

/-- `receiveTopo`; `dbs` are the databases that a message can point to. -/
def receiveTopo (c : LsContext) (dbs : ℤ → LsTopoMap) (neighborId : ℤ) (msg : LsMessage) :
    Option (LsContext × Bool) := do
  let (c, _) ← c.sendAck neighborId .tpmack neighborId msg.sequenceNumber_
  if c.routing.tpmHistory_.isNew msg.originNodeId_ msg.sequenceNumber_ then
    (c.markTopo msg).acceptTopo dbs neighborId msg
  else return (c, false)

/-- `receiveAck`. -/
def receiveAck (c : LsContext) (neighborId : ℤ) (msg : LsMessage) : Option LsContext := do
  let am ← c.routing.ackManager_.ackIn neighborId msg
  return { c with routing.ackManager_ := am }

/-- `LS_INVALID_NODE_ID`. -/
def LS_INVALID_NODE_ID : ℤ := 65535

/-- `LsRouting::receiveMessage`: whether there is a need to recompute routes. -/
def receiveMessage (c : LsContext) (dbs : ℤ → LsTopoMap) (senderId : ℤ) (msgId : UInt32) :
    Option (LsContext × Bool) :=
  if senderId = LS_INVALID_NODE_ID then some (c, false)
  else
    match c.msgctr_.retrieveMessagePtr msgId with
    | none => some (c, false)
    | some msg =>
      match msg.type_ with
      | .lsm => some (c, false)
      | .tpm => c.receiveTopo dbs senderId msg
      | .lsa => c.receiveLSA senderId msg
      | .lsaack | .tpmack => do
        let c ← c.receiveAck senderId msg
        return ({ c with msgctr_ := c.msgctr_.deleteMessage msgId }, false)

/-! ## The agent -/

/-- `findPeerNodeId`. -/
def findPeerNodeId (c : LsContext) (src : ℤ) : ℤ :=
  if src ∈ c.routing.peerIdList_ then src else LS_INVALID_NODE_ID

/-- The message that `receiveMessage` finds under an id. -/
def incoming (c : LsContext) (src : ℤ) (msgId : UInt32) : Option LsMessage :=
  if c.findPeerNodeId src = LS_INVALID_NODE_ID then none else c.msgctr_.retrieveMessagePtr msgId

/-- `rtProtoLS::recv`.  After a change `installRoutes` makes the Tcl side install the routes and
send the buffered messages. -/
def recv (c : LsContext) (dbs : ℤ → LsTopoMap) (src : ℤ) (msgId : UInt32) : Option LsContext := do
  let (c, changed) ← c.receiveMessage dbs (c.findPeerNodeId src) msgId
  if changed then c.sendBufferedMessages else return c

/-- `rtProtoLS::intfChanged` with the links of the node, and the flush that follows. -/
def intfChanged (c : LsContext) (links : LinkList) : Option LsContext := do
  let c ← ({ c with routing.linkStateList_ := links } : LsContext).linkStateChanged
  c.sendBufferedMessages

/-- The timer of a peer expires: `resendMessages`. -/
def expire (c : LsContext) (peerId : ℤ) : Option LsContext := do
  let peer ← c.routing.ackManager_[peerId]?
  if peer.timer_ then
    let (am, ids) ← c.routing.ackManager_.resendMessages peerId
    return ids.foldl (fun c id => c.sendMessage peerId id)
      ({ c with routing.ackManager_ := am } : LsContext)
  else none

end LsContext

end Ns2.LinkState
