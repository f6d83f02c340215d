import Ns2.LinkState.Network

/-!
# What a node has seen, it has stored

A node writes down the number of an LSA that it accepts and drops later copies.  So the links
that the origin announced with that number should be in its database by then.

* `Quiet` — sending changes neither the database nor the history.
* `recv_accepted` — what accepting an LSA does to the database.
* `World.StoresAccepted`, `World.CarriesOrHas` — the property of a step, and the condition for
  it: the LSA has its content with it, or the database has the links already.
* `stores_run` — runs whose steps meet the condition.
* `not_stores_run` — a run with an LSA made anew from a topology map.
-/

namespace Ns2.LinkState

namespace LsContext

/-- Neither the database nor the history of LSAs has changed. -/
structure Quiet (c c' : LsContext) : Prop where
  id : c'.routing.myNodeId_ = c.routing.myNodeId_
  db : c'.routing.linkStateDatabase_ = c.routing.linkStateDatabase_
  seen : c'.routing.lsaHistory_ = c.routing.lsaHistory_
  announced : c'.announced = c.announced

variable {c c' c'' : LsContext}

theorem Quiet.refl (c : LsContext) : Quiet c c := ⟨rfl, rfl, rfl, rfl⟩

theorem Quiet.trans (h : Quiet c c') (h' : Quiet c' c'') : Quiet c c'' :=
  ⟨h'.id.trans h.id, h'.db.trans h.db, h'.seen.trans h.seen, h'.announced.trans h.announced⟩

/-! ## Sending -/

theorem sendMessage_quiet (c : LsContext) (destId : ℤ) (msgId : UInt32) :
    Quiet c (c.sendMessage destId msgId) := by
  unfold sendMessage
  split_ifs <;> exact ⟨rfl, rfl, rfl, rfl⟩

theorem messageOut_quiet (c : LsContext) (peerId : ℤ) (msg : LsMessage) :
    Quiet c (c.messageOut peerId msg) := ⟨rfl, rfl, rfl, rfl⟩

theorem forward_quiet (senderId : ℤ) (msg : LsMessage) (peers : List ℤ) (c : LsContext) :
    Quiet c (peers.foldl (forwardTo senderId msg) c) := by
  induction peers generalizing c with
  | nil => exact .refl c
  | cons p peers ih =>
    refine Quiet.trans ?_ (ih _)
    unfold forwardTo
    split_ifs
    · exact .refl c
    · exact (messageOut_quiet c p msg).trans (sendMessage_quiet _ _ _)
    · exact .refl c

theorem sendBufferedMessages_quiet (h : c.sendBufferedMessages = some c') : Quiet c c' := by
  unfold sendBufferedMessages at h
  obtain ⟨d, hd, rfl⟩ := Option.map_eq_some_iff.mp h
  have hq : Quiet c d := by
    apply foldlM_induction (R := Quiet) .refl (fun _ _ _ => .trans) ?_ _ _ _ hd
    intro c b c' hb
    unfold sendBuffered at hb
    cases hm : c.msgctr_.retrieveMessagePtr b.2 with
    | none =>
      rw [hm] at hb
      cases hb
    | some msg =>
      rw [hm] at hb
      cases hb
      exact (messageOut_quiet c b.1 msg).trans (sendMessage_quiet _ _ _)
  exact ⟨hq.id, hq.db, hq.seen, hq.announced⟩

theorem ackLSA_quiet {senderId : ℤ} {msg : LsMessage} (h : c.ackLSA senderId msg = some c') :
    Quiet c c' := by
  unfold ackLSA sendAck at h
  obtain ⟨⟨d, ack⟩, hd, h⟩ := Option.bind_eq_some_iff.mp h
  obtain ⟨⟨ctr, m⟩, -, hd⟩ := Option.bind_eq_some_iff.mp hd
  cases hd
  cases h
  generalize ctr.assign _ = ctr
  obtain ⟨h1, h2, h3, h4⟩ := sendMessage_quiet { c with msgctr_ := ctr } senderId m.messageId_
  exact ⟨h1, h2, h3, h4⟩

theorem Quiet.accepts_eq (h : Quiet c c') (msg : LsMessage) : c'.accepts msg = c.accepts msg := by
  unfold accepts
  rw [h.id, h.seen]

/-! ## Accepting an LSA -/

/-- The database once an LSA is accepted. -/
def stored (db : LsTopoMap) (msg : LsMessage) : LsTopoMap :=
  match msg.contentPtr_ with
  | .lsl l => (db.update msg.originNodeId_ l).1
  | _ => db

/-- What accepting an LSA does: its number is in the history, and its content in the
database. -/
structure Accepted (c c' : LsContext) (msg : LsMessage) : Prop where
  db : c'.routing.linkStateDatabase_ = stored c.routing.linkStateDatabase_ msg
  seen : c'.routing.lsaHistory_ =
    c.routing.lsaHistory_.insert msg.originNodeId_ msg.sequenceNumber_
  announced : c'.announced = c.announced

theorem acceptLSA_accepted {senderId : ℤ} {msg : LsMessage} {r : LsContext × Bool}
    (hacc : c.accepts msg = true) (h : c.acceptLSA senderId msg = some r) :
    Accepted c r.1 msg := by
  have hq := forward_quiet senderId msg c.routing.peerIdList_ (c.markSeen msg)
  have hseen := isNewMessage_fst (accepts_eq_true.mp hacc).2
  unfold acceptLSA at h
  cases hc : msg.contentPtr_ with
  | null =>
    simp only [hc] at h
    cases h
    refine ⟨?_, hq.seen.trans hseen, hq.announced⟩
    rw [stored, hc]
    exact hq.db
  | lsl l =>
    simp only [hc] at h
    cases h
    refine ⟨?_, hq.seen.trans hseen, hq.announced⟩
    rw [stored, hc]
    unfold updateDatabase
    rw [hq.db]
    rfl
  | topo nodeId =>
    simp only [hc] at h
    cases h

theorem receiveLSA_accepted {senderId : ℤ} {msg : LsMessage} {r : LsContext × Bool}
    (hacc : c.accepts msg = true) (h : c.receiveLSA senderId msg = some r) :
    Accepted c r.1 msg := by
  unfold receiveLSA at h
  obtain ⟨d, hd, h⟩ := Option.bind_eq_some_iff.mp h
  have hq := ackLSA_quiet hd
  rw [← hq.accepts_eq] at hacc
  rw [if_pos hacc] at h
  obtain ⟨h1, h2, h3⟩ := acceptLSA_accepted hacc h
  rw [hq.db] at h1
  rw [hq.seen] at h2
  exact ⟨h1, h2, h3.trans hq.announced⟩

/-- An LSA that is accepted does not point to a database. -/
theorem recv_content {dbs : ℤ → LsTopoMap} {src : ℤ} {msgId : UInt32} {msg : LsMessage}
    (hin : c.incoming src msgId = some msg) (ht : msg.type_ = .lsa) (hacc : c.accepts msg = true)
    (h : c.recv dbs src msgId = some c') (nodeId : ℤ) : msg.contentPtr_ ≠ .topo nodeId := by
  intro hc
  unfold incoming at hin
  split_ifs at hin with hvalid
  unfold recv receiveMessage at h
  obtain ⟨r, hr, -⟩ := Option.bind_eq_some_iff.mp h
  rw [if_neg hvalid, hin] at hr
  simp only [ht] at hr
  unfold receiveLSA at hr
  obtain ⟨d, hd, hr⟩ := Option.bind_eq_some_iff.mp hr
  rw [← (ackLSA_quiet hd).accepts_eq] at hacc
  rw [if_pos hacc] at hr
  unfold acceptLSA at hr
  simp only [hc] at hr
  cases hr

/-- **Accepting an LSA**, with the flush that follows a change. -/
theorem recv_accepted {dbs : ℤ → LsTopoMap} {src : ℤ} {msgId : UInt32} {msg : LsMessage}
    (hin : c.incoming src msgId = some msg) (ht : msg.type_ = .lsa) (hacc : c.accepts msg = true)
    (h : c.recv dbs src msgId = some c') : Accepted c c' msg := by
  unfold incoming at hin
  split_ifs at hin with hvalid
  unfold recv receiveMessage at h
  obtain ⟨⟨d, changed⟩, hd, h⟩ := Option.bind_eq_some_iff.mp h
  rw [if_neg hvalid, hin] at hd
  simp only [ht] at hd
  obtain ⟨h1, h2, h3⟩ := receiveLSA_accepted hacc hd
  simp only at h
  split_ifs at h
  · have hq := sendBufferedMessages_quiet h
    exact ⟨hq.db.trans h1, hq.seen.trans h2, hq.announced.trans h3⟩
  · cases h
    exact ⟨h1, h2, h3⟩

end LsContext

/-! ## The property and the condition -/

namespace World

/-- Whether `receiveLSA` accepts it as new. -/
def Accepts (w : World) (d : Delivery) : Prop :=
  d.msg.type_ = .lsa ∧ (w.context d.receiver).accepts d.msg = true

/-- The links that `origin` announced with the number `seq` are in the database of node `i`. -/
def Stored (w : World) (i origin : ℤ) (seq : UInt32) : Prop :=
  ∀ link ∈ (announcement w.announced origin seq).getD [], link ∈ (w.dbs i).map[origin]?.getD []

/-- **What is accepted is stored**: when `receiveLSA` accepts an LSA as new, the links that its
origin announced with its number are in the database after the call. -/
def StoresAccepted (w : World) (e : LsEvent) : Prop :=
  ∀ w' ∈ w.step? e, ∀ d ∈ w.delivered e, w.Accepts d →
    w'.Stored d.receiver d.msg.originNodeId_ d.msg.sequenceNumber_

/-- An LSA that is accepted has content, or the links announced with its number are in the
database of the receiver before. -/
def CarriesOrHas (w : World) (e : LsEvent) : Prop :=
  ∀ _w' ∈ w.step? e, ∀ d ∈ w.delivered e, w.Accepts d →
    d.msg.contentPtr_ ≠ .null ∨ w.Stored d.receiver d.msg.originNodeId_ d.msg.sequenceNumber_

instance (w : World) (d : Delivery) : Decidable (w.Accepts d) :=
  inferInstanceAs (Decidable (_ ∧ _))

instance (w : World) (i origin : ℤ) (seq : UInt32) : Decidable (w.Stored i origin seq) :=
  inferInstanceAs (Decidable (∀ _ ∈ _, _))

instance (w : World) (e : LsEvent) : Decidable (w.StoresAccepted e) :=
  inferInstanceAs (Decidable (∀ _ ∈ _, _))

variable {w w' : World} {e : LsEvent} {d : Delivery}

/-- The database of the receiver and the announcements after accepting. -/
theorem accepted_step (hs : w.step? e = some w') (hd : w.delivered e = some d)
    (ha : w.Accepts d) :
    w'.dbs d.receiver = LsContext.stored (w.dbs d.receiver) d.msg ∧
      w'.announced = w.announced := by
  obtain ⟨msgId, n, c, hin, hc, rfl⟩ := delivered_step hs hd
  have hacc := LsContext.recv_accepted hin ha.1 ha.2 hc
  refine ⟨?_, hacc.announced⟩
  unfold dbs after
  simp only [Function.update_self]
  exact hacc.db

/-- The number of the LSA is in the history afterwards. -/
theorem accepted_seen (hs : w.step? e = some w') (hd : w.delivered e = some d)
    (ha : w.Accepts d) :
    (w'.nodes d.receiver).lsaHistory_[d.msg.originNodeId_]? = some d.msg.sequenceNumber_ := by
  obtain ⟨msgId, n, c, hin, hc, rfl⟩ := delivered_step hs hd
  unfold after
  simp only [Function.update_self]
  rw [(LsContext.recv_accepted hin ha.1 ha.2 hc).seen, getElem?_lsInsert, if_pos rfl]

/-- The content of an LSA is what its origin announced. -/
theorem Inv.content_eq (h : w.Inv) (hs : w.step? e = some w') (hd : w.delivered e = some d)
    {l : List LsLinkState} (hl : d.msg.contentPtr_ = .lsl l) :
    announcement w.announced d.msg.originNodeId_ d.msg.sequenceNumber_ = some l ∧
      (l.map LsLinkState.neighborId_).Nodup := by
  obtain ⟨msgId, n, c, hin, -, -⟩ := delivered_step hs hd
  unfold LsContext.incoming at hin
  split_ifs at hin
  unfold LsMessageCenter.retrieveMessagePtr at hin
  split_ifs at hin
  · obtain ⟨-, hseq, hlog, hnodup⟩ := h.center.content _ _ l hin hl
    rw [hseq]
    exact ⟨hlog, hnodup⟩
  · exact absurd hl (h.center.other _ _ l hin)

/-- **One step**: it stores what it accepts exactly when the condition holds. -/
theorem Inv.storesAccepted_iff (h : w.Inv) (e : LsEvent) :
    w.StoresAccepted e ↔ w.CarriesOrHas e := by
  unfold StoresAccepted CarriesOrHas
  refine forall₂_congr fun w' hs => forall₂_congr fun d hd => forall_congr' fun ha => ?_
  obtain ⟨hdb, hlog⟩ := accepted_step hs hd ha
  unfold Stored
  rw [hdb, hlog]
  unfold LsContext.stored
  cases hc : d.msg.contentPtr_ with
  | null => simp
  | lsl l =>
    obtain ⟨hann, hnodup⟩ := h.content_eq hs hd hc
    refine iff_of_true ?_ (Or.inl (by simp))
    intro link hlink
    rw [hann, Option.getD_some] at hlink
    simp only [getElem?_update, if_true, Option.getD_some]
    apply mem_updated hnodup ?_ link hlink
    have hne := (LsContext.accepts_eq_true.mp ha.2).1
    have hid : (w.context d.receiver).routing.myNodeId_ = d.receiver := (h.node d.receiver).id
    have hown : (w.dbs d.receiver).myNodeId_ = d.receiver := (h.node d.receiver).db
    rw [hown]
    rwa [hid] at hne
  | topo nodeId =>
    obtain ⟨msgId, n, c, hin, hrecv, -⟩ := delivered_step hs hd
    exact absurd hc (LsContext.recv_content hin ha.1 ha.2 hrecv nodeId)

/-- **Runs that store what they accept** are the runs in which each LSA accepted has content,
or its links are in the database already. -/
theorem stores_run (t : Topology) (es : List LsEvent) :
    Run.AllSteps step StoresAccepted (init t) es ↔ Run.AllSteps step CarriesOrHas (init t) es :=
  Run.allSteps_congr (fun _ e h => h.storesAccepted_iff e) (fun _ e h _ => h.step e) es _
    (inv_init t)

/-! ## An LSA made anew -/

/-- Three nodes in a line; the link between the first two is down. -/
def line : Topology where
  peers i := if i = 2 then [1, 3] else [2]
  links i :=
    if i = 2 then ⟨[⟨1, .down, 1, 0⟩, ⟨3, .up, 1, 0⟩], by decide⟩
    else if i = 1 then ⟨[⟨2, .down, 1, 0⟩], by decide⟩
    else ⟨[⟨2, .up, 1, 0⟩], by decide⟩
  delays _ := []
  number_of_nodes := 3

/-- The link comes up.  The announcement of the first node is lost, its topology map arrives,
and the second node sends the third one its own announcement and an LSA made from the map. -/
def regenerated : List LsEvent :=
  [.intfChanged 1 ⟨[⟨2, .up, 1, 0⟩], by decide⟩,
    .intfChanged 2 ⟨[⟨1, .up, 1, 0⟩, ⟨3, .up, 1, 0⟩], by decide⟩,
    .lose 0, .arrive 0, .arrive 1]

/-- The third node accepts that LSA without having stored the links. -/
theorem not_stores_run :
    ¬ ∀ (t : Topology) (es : List LsEvent), Run.AllSteps step StoresAccepted (init t) es := by
  intro h
  have hrun := h line (regenerated ++ [.arrive 3])
  revert hrun
  decide +kernel

end World

end Ns2.LinkState
