import Ns2.LinkState.Stored

/-!
# Acknowledgments of LSAs

A node keeps an LSA for a peer until the peer acknowledges it.  The entry has the sequence
number of the LSA, and the acknowledgment its id.

* `unacked` — the LSA of an origin that a peer has not acknowledged.
* `ackIn_lsaack` — what the acknowledgment of an LSA does to the entries.
* `World.AckErases`, `World.SameNumber` — the property of a step, and the condition for it: the
  LSA acknowledged has its id as its sequence number.
* `ackErases_run` — runs whose steps meet the condition.
* `content_number` — an LSA with content meets it.
* `not_ackErases_run` — a run with an LSA made anew from a topology map.
-/

namespace Ns2.LinkState

namespace LsRetransmissionManager

/-- The LSA of `origin` that a peer has not acknowledged. -/
def unacked (am : LsRetransmissionManager) (peerId origin : ℤ) : Option LsIdSeq :=
  (am[peerId]?).bind fun peer => peer.lsaMap_[origin]?

variable {am am' : LsRetransmissionManager} {p q origin o : ℤ} {peer : LsUnackPeer} {e : LsIdSeq}
  {msg : LsMessage}

/-- The entries after one peer has been written. -/
theorem unacked_insert (am : LsRetransmissionManager) (p q o : ℤ) (peer : LsUnackPeer) :
    unacked (Std.TreeMap.insert am p peer) q o =
      if q = p then peer.lsaMap_[o]? else am.unacked q o := by
  unfold unacked
  rw [getElem?_lsInsert]
  split_ifs <;> rfl

/-- What an acknowledgment does to the record of the peer. -/
theorem acked_lsaMap (ht : msg.type_ = .lsaack) (he : peer.lsaMap_[msg.originNodeId_]? = some e)
    (o : ℤ) :
    (acked peer msg).lsaMap_[o]? =
      if o = msg.originNodeId_ ∧ e.seq_ = msg.sequenceNumber_ then none else peer.lsaMap_[o]? := by
  unfold acked
  simp only [ht, he]
  by_cases hseq : e.seq_ = msg.sequenceNumber_
  · rw [if_pos hseq]
    simp only [getElem?_lsErase, hseq, and_true]
  · rw [if_neg hseq, if_neg fun h => hseq h.2]

/-- **What the acknowledgment of an LSA does**: it erases the entry of its origin if that has
its number, and it touches no other entry.  It does not abort. -/
theorem Armed.ackIn_lsaack (h : am.Armed) (ht : msg.type_ = .lsaack)
    (he : am.unacked p msg.originNodeId_ = some e) :
    ∃ am', am.ackIn p msg = some am' ∧ ∀ q o, am'.unacked q o =
      if (q = p ∧ o = msg.originNodeId_) ∧ e.seq_ = msg.sequenceNumber_ then none
      else am.unacked q o := by
  obtain ⟨peer, hp, he⟩ := Option.bind_eq_some_iff.mp he
  have hbusy : peer.idle = false := by
    unfold LsUnackPeer.idle
    rw [Bool.and_eq_false_iff]
    right
    by_contra hempty
    rw [Bool.not_eq_false] at hempty
    rw [Std.TreeMap.getElem?_of_isEmpty hempty] at he
    cases he
  obtain ⟨am', ham'⟩ := Option.isSome_iff_exists.mp (h.ackIn_isSome p msg)
  refine ⟨am', ham', ?_⟩
  have hmap : ∃ peer' : LsUnackPeer, peer'.lsaMap_ = (acked peer msg).lsaMap_ ∧
      am' = Std.TreeMap.insert am p peer' := by
    unfold LsRetransmissionManager.ackIn at ham'
    simp only [hp, hbusy, Bool.false_eq_true, if_false] at ham'
    split_ifs at ham' <;> cases ham'
    · exact ⟨{ acked peer msg with timer_ := false }, rfl, rfl⟩
    · exact ⟨acked peer msg, rfl, rfl⟩
  obtain ⟨peer', hpeer', rfl⟩ := hmap
  intro q o
  rw [unacked_insert, hpeer', acked_lsaMap ht he]
  by_cases hq : q = p
  · subst hq
    unfold unacked
    rw [hp]
    simp
  · rw [if_neg hq, if_neg fun hc => hq hc.1.1]

end LsRetransmissionManager

/-! ## An acknowledgment arrives -/

namespace LsContext

/-- The code that runs on an acknowledgment. -/
theorem recv_lsaack {c : LsContext} {dbs : ℤ → LsTopoMap} {src : ℤ} {msgId : UInt32}
    {msg : LsMessage} (hin : c.incoming src msgId = some msg) (ht : msg.type_ = .lsaack) :
    c.recv dbs src msgId = (c.routing.ackManager_.ackIn src msg).map fun am =>
      { c with routing.ackManager_ := am, msgctr_ := c.msgctr_.deleteMessage msgId } := by
  unfold incoming at hin
  split_ifs at hin with hvalid
  have hsrc : c.findPeerNodeId src = src := by
    unfold findPeerNodeId at hvalid ⊢
    by_cases hmem : src ∈ c.routing.peerIdList_
    · rw [if_pos hmem]
    · rw [if_neg hmem] at hvalid
      exact absurd rfl hvalid
  rw [hsrc] at hvalid
  unfold recv receiveMessage receiveAck
  rw [hsrc, if_neg hvalid, hin]
  simp only [ht]
  cases c.routing.ackManager_.ackIn src msg <;> rfl

end LsContext

namespace World

/-- The LSA of `origin` that `peer` has not acknowledged to node `i`. -/
def unacked (w : World) (i peer origin : ℤ) : Option LsIdSeq :=
  (w.nodes i).ackManager_.unacked peer origin

/-- The message delivered is the acknowledgment that the sender has generated on receiving the
LSA `r.msg`, and that LSA is the last one of its origin that the receiver has handed to its
retransmission manager for the sender. -/
def Answers (w : World) (d : Delivery) (r : Reception) : Prop :=
  r.receiver = d.sender ∧ r.sender = d.receiver ∧ r.ack = d.msg ∧
    w.unacked d.receiver d.sender r.msg.originNodeId_ =
      some ⟨r.msg.messageId_, r.msg.sequenceNumber_⟩

/-- **An LSA acknowledged is not sent again**: the acknowledgment erases the entry of that LSA
and no other. -/
def AckErases (w : World) (e : LsEvent) : Prop :=
  ∀ d ∈ w.delivered e, ∀ r ∈ w.received, w.Answers d r →
    ∃ w', w.step? e = some w' ∧ ∀ peer origin, w'.unacked d.receiver peer origin =
      if peer = d.sender ∧ origin = r.msg.originNodeId_ then none
      else w.unacked d.receiver peer origin

/-- An LSA that is acknowledged has its id as its sequence number. -/
def SameNumber (w : World) (e : LsEvent) : Prop :=
  ∀ d ∈ w.delivered e, ∀ r ∈ w.received, w.Answers d r →
    r.msg.messageId_ = r.msg.sequenceNumber_

variable {w w' : World} {e : LsEvent} {d : Delivery} {r : Reception}

/-- **An acknowledgment arrives**: the entry is erased if it has the number acknowledged. -/
theorem Inv.ack_arrives (h : w.Inv) (hd : w.delivered e = some d) (ht : d.msg.type_ = .lsaack)
    {i : LsIdSeq} (hi : w.unacked d.receiver d.sender d.msg.originNodeId_ = some i) :
    ∃ w', w.step? e = some w' ∧ ∀ peer origin, w'.unacked d.receiver peer origin =
      if (peer = d.sender ∧ origin = d.msg.originNodeId_) ∧ i.seq_ = d.msg.sequenceNumber_
      then none else w.unacked d.receiver peer origin := by
  cases e with
  | arrive n =>
    obtain ⟨p, hp, hd⟩ := Option.bind_eq_some_iff.mp hd
    obtain ⟨msg, hmsg, hd⟩ := Option.bind_eq_some_iff.mp hd
    cases hd
    obtain ⟨am', ham', hun⟩ := (h.node p.dst).armed.ackIn_lsaack ht hi
    have hrecv : (w.context p.dst).recv w.dbs p.src p.msgId = some { w.context p.dst with
        routing.ackManager_ := am'
        msgctr_ := w.msgctr_.deleteMessage p.msgId } := by
      rw [LsContext.recv_lsaack hmsg ht]
      exact Option.map_eq_some_iff.mpr ⟨am', ham', rfl⟩
    refine ⟨_, arrive_eq_some.mpr ⟨p, _, hp, hrecv, rfl⟩, ?_⟩
    intro peer origin
    unfold World.unacked World.after
    simp only [Function.update_self]
    exact hun peer origin
  | _ => cases hd

/-- **One step**: the acknowledgment erases what it should exactly when the LSA has one
number. -/
theorem Inv.ackErases_iff (h : w.Inv) (e : LsEvent) : w.AckErases e ↔ w.SameNumber e := by
  unfold AckErases SameNumber
  refine forall₂_congr fun d hd => forall₂_congr fun r hr => forall_congr' fun ha => ?_
  obtain ⟨-, -, hack, hun⟩ := ha
  obtain ⟨htype, horigin, hseq⟩ := h.received r hr
  rw [hack] at htype horigin hseq
  rw [← horigin] at hun ⊢
  obtain ⟨w', hw', heff⟩ := h.ack_arrives hd htype hun
  rw [hseq] at heff
  constructor
  · rintro ⟨w'', hw'', hall⟩
    rw [hw'] at hw''
    cases hw''
    by_contra hne
    have h1 := hall d.sender d.msg.originNodeId_
    rw [heff, if_neg fun hc => hne hc.2.symm, if_pos ⟨rfl, rfl⟩, hun] at h1
    cases h1
  · intro heq
    refine ⟨w', hw', fun peer origin => ?_⟩
    rw [heff]
    simp only [heq, and_true]

/-- **Runs in which acknowledged LSAs are not sent again** are the runs in which each LSA
acknowledged has its id as its sequence number. -/
theorem ackErases_run (t : Topology) (es : List LsEvent) :
    Run.AllSteps step AckErases (init t) es ↔ Run.AllSteps step SameNumber (init t) es :=
  Run.allSteps_congr (fun _ e h => h.ackErases_iff e) (fun _ e h _ => h.step e) es _ (inv_init t)

/-- An LSA with content, one that its origin sends or that is forwarded from there, has its id
as its sequence number. -/
theorem Inv.content_number (h : w.Inv) (hs : w.step? e = some w') (hd : w.delivered e = some d)
    {l : List LsLinkState} (hl : d.msg.contentPtr_ = .lsl l) :
    d.msg.messageId_ = d.msg.sequenceNumber_ := by
  obtain ⟨msgId, n, c, hin, -, -⟩ := delivered_step hs hd
  unfold LsContext.incoming at hin
  split_ifs at hin
  unfold LsMessageCenter.retrieveMessagePtr at hin
  split_ifs at hin
  · obtain ⟨hid, hseq, -, -⟩ := h.center.content _ _ l hin hl
    exact hid.trans hseq.symm
  · exact absurd hl (h.center.other _ _ l hin)

/-! ## An LSA made anew -/

instance (w : World) (d : Delivery) (r : Reception) : Decidable (w.Answers d r) :=
  inferInstanceAs (Decidable (_ ∧ _ ∧ _ ∧ _))

/-- The third node acknowledges that LSA, and the second one keeps it. -/
theorem not_ackErases_run :
    ¬ ∀ (t : Topology) (es : List LsEvent), Run.AllSteps step AckErases (init t) es := by
  intro h
  have hrun := h line (regenerated ++ [.arrive 3] ++ [.arrive 4])
  rw [Run.allSteps_append] at hrun
  obtain ⟨-, hlast, -⟩ := hrun
  generalize hw : (regenerated ++ [LsEvent.arrive 3]).foldl step (init line) = w at hlast
  have hnone : ∀ d ∈ w.delivered (.arrive 4), ∀ r ∈ w.received, w.Answers d r →
      (w.step (.arrive 4)).unacked d.receiver d.sender r.msg.originNodeId_ = none := by
    intro d hd r hr ha
    obtain ⟨w', hw', hall⟩ := hlast d hd r hr ha
    unfold step
    rw [hw', Option.getD_some, hall, if_pos ⟨rfl, rfl⟩]
  rw [← hw] at hnone
  revert hnone
  decide +kernel

end World

end Ns2.LinkState
