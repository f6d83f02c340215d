import Ns2.Lib.Run
import Ns2.LinkState.Routing

/-!
# What the code of a node can do

`Does c c'` is one elementary effect of the code of a node: a packet, an entry of the
retransmission manager, a message created, a record of the database.  Each function of the node
is a sequence of them, so that an invariant is proved once for each effect.

* `Does`, `Runs` — one effect, and a sequence of them.
* `Quiet` — nothing has changed but what waits for acknowledgments and what is sent.
* `recv_runs`, `intfChanged_runs`, `sendLinkStates_runs`, `expire_runs`,
  `sendBufferedMessages_runs` — the entry points.
-/

namespace Ns2.LinkState

namespace LsContext

/-- One effect of the code of a node. -/
inductive Does : LsContext → LsContext → Prop where
  | sendMessage (c : LsContext) (destId : ℤ) (msgId : UInt32) : Does c (c.sendMessage destId msgId)
  | acks (c : LsContext) (am : LsRetransmissionManager)
      (h : c.routing.ackManager_.Armed → am.Armed) :
      Does c { c with routing.ackManager_ := am }
  | buffer (c : LsContext) (b : List (ℤ × UInt32)) :
      Does c { c with routing.messageBuffer_ := b }
  | lsaHistory (c : LsContext) (h : LsMessageHistory) : Does c { c with routing.lsaHistory_ := h }
  | tpmHistory (c : LsContext) (h : LsMessageHistory) : Does c { c with routing.tpmHistory_ := h }
  | links (c : LsContext) (l : LinkList) : Does c { c with routing.linkStateList_ := l }
  | received (c : LsContext) {r : Reception} (h : r.Genuine) :
      Does c { c with received := r :: c.received }
  | deleteMessage (c : LsContext) (msgId : UInt32) :
      Does c { c with msgctr_ := c.msgctr_.deleteMessage msgId }
  /-- An acknowledgment. -/
  | ack {c : LsContext} {nodeId : ℤ} {type : LsMessageType} {ctr : LsMessageCenter}
      {msg : LsMessage} (h : c.msgctr_.newMessage nodeId type = some (ctr, msg))
      (ht : type.isUpdate = false) (origin : ℤ) (seq : UInt32) :
      Does c { c with
        msgctr_ := ctr.assign { msg with originNodeId_ := origin, sequenceNumber_ := seq } }
  /-- A topology map, or an LSA without content. -/
  | update {c : LsContext} {nodeId : ℤ} {type : LsMessageType} {ctr : LsMessageCenter}
      {msg m : LsMessage} (h : c.msgctr_.newMessage nodeId type = some (ctr, msg))
      (ht : type.isUpdate = true) (hm : m.type_ = type) (hid : m.messageId_ = msg.messageId_)
      (hc : ∀ l, m.contentPtr_ ≠ .lsl l) :
      Does c { c with msgctr_ := ctr.assign m }
  | announce {c c' : LsContext} {lsl : List LsLinkState} {msg : LsMessage}
      (h : c.announce lsl = some (c', msg))
      (hlsl : c.routing.linkStateDatabase_.map[c.routing.myNodeId_]? = some lsl) : Does c c'
  | ownLinks (c : LsContext) (l : LinkList) : Does c (c.updateDatabase c.routing.myNodeId_ l.1)
  /-- The record of another node. -/
  | record (c : LsContext) {origin : ℤ} (h : origin ≠ c.routing.myNodeId_)
      (l : List LsLinkState) :
      Does c { c with
        routing.linkStateDatabase_.map := c.routing.linkStateDatabase_.map.insert origin l }

/-- A sequence of effects. -/
abbrev Runs : LsContext → LsContext → Prop := Relation.ReflTransGen Does

variable {c c' : LsContext} {α : Type}

theorem Does.runs (h : Does c c') : Runs c c' := Relation.ReflTransGen.single h

/-- A loop. -/
theorem runs_foldl {f : LsContext → α → LsContext} (h : ∀ c a, Runs c (f c a)) (l : List α)
    (c : LsContext) : Runs c (l.foldl f c) := by
  induction l generalizing c with
  | nil => exact .refl
  | cons a l ih => exact (h c a).trans (ih (f c a))

/-- A loop that may abort. -/
theorem foldlM_induction {σ : Type} {f : σ → α → Option σ} {R : σ → σ → Prop}
    (hrefl : ∀ s, R s s) (htrans : ∀ s t u, R s t → R t u → R s u)
    (h : ∀ s a t, f s a = some t → R s t) :
    ∀ (l : List α) (s t : σ), l.foldlM f s = some t → R s t :=
  fun _ s _ hst =>
    Run.foldlM_invariant (fun a _ u v hu huv => htrans s u v hu (h u a v huv)) (hrefl s) hst

/-! ## Sending -/

theorem messageOut_runs (c : LsContext) (peerId : ℤ) (msg : LsMessage) :
    Runs c (c.messageOut peerId msg) :=
  (Does.acks c _ fun h => h.messageOut peerId msg).runs

theorem sendOwn_runs (buffer : Bool) (msg : LsMessage) (c : LsContext) (peerId : ℤ) :
    Runs c (sendOwn buffer msg c peerId) := by
  unfold sendOwn
  split_ifs
  · exact (Does.buffer c _).runs
  · exact (Does.sendMessage c _ _).runs.trans (messageOut_runs _ _ _)
  · exact .refl

theorem forwardTo_runs (senderId : ℤ) (msg : LsMessage) (c : LsContext) (peerId : ℤ) :
    Runs c (forwardTo senderId msg c peerId) := by
  unfold forwardTo
  split_ifs
  · exact .refl
  · exact (messageOut_runs c _ _).tail (Does.sendMessage _ _ _)
  · exact .refl

theorem regenTo_runs (exception origin : ℤ) (msg : LsMessage) (c : LsContext) (peerId : ℤ) :
    Runs c (regenTo exception origin msg c peerId) := by
  unfold regenTo
  split_ifs
  · exact .refl
  · exact (Does.buffer c _).runs

theorem sendBuffered_runs {b : ℤ × UInt32} (h : c.sendBuffered b = some c') : Runs c c' := by
  unfold sendBuffered at h
  cases hm : c.msgctr_.retrieveMessagePtr b.2 with
  | none =>
    rw [hm] at h
    cases h
  | some msg =>
    rw [hm] at h
    cases h
    exact (messageOut_runs c _ _).tail (Does.sendMessage _ _ _)

theorem sendBufferedMessages_runs (h : c.sendBufferedMessages = some c') : Runs c c' := by
  unfold sendBufferedMessages at h
  obtain ⟨d, hd, rfl⟩ := Option.map_eq_some_iff.mp h
  have hrun : Runs c d := foldlM_induction (R := Runs) (fun _ => .refl)
    (fun _ _ _ h₁ h₂ => h₁.trans h₂) (fun _ _ _ => sendBuffered_runs) _ _ _ hd
  exact hrun.tail (Does.buffer d [])

/-- The acknowledgment that `sendAck` generates. -/
theorem sendAck_ack {nbrId origin : ℤ} {type : LsMessageType} {seq : UInt32} {ack : LsMessage}
    (h : c.sendAck nbrId type origin seq = some (c', ack)) :
    ack.type_ = type ∧ ack.originNodeId_ = origin ∧ ack.sequenceNumber_ = seq := by
  unfold sendAck at h
  obtain ⟨⟨ctr, msg⟩, hmsg, h⟩ := Option.bind_eq_some_iff.mp h
  have htype := LsMessageCenter.newMessage_msg hmsg
  cases h
  rw [htype]
  exact ⟨rfl, rfl, rfl⟩

theorem sendAck_runs {nbrId origin : ℤ} {type : LsMessageType} {seq : UInt32} {ack : LsMessage}
    (ht : type.isUpdate = false) (h : c.sendAck nbrId type origin seq = some (c', ack)) :
    Runs c c' := by
  unfold sendAck at h
  obtain ⟨⟨ctr, msg⟩, hmsg, h⟩ := Option.bind_eq_some_iff.mp h
  cases h
  exact (Does.ack hmsg ht origin seq).runs.tail (Does.sendMessage _ _ _)

theorem sendLinkStates_runs {buffer : Bool} (h : c.sendLinkStates buffer = some c') :
    Runs c c' := by
  unfold sendLinkStates at h
  split_ifs at h with hp
  · cases h
    exact .refl
  · split at h
    · cases h
      exact .refl
    · cases h
      exact .refl
    · rename_i lsl hlsl hne
      obtain ⟨⟨d, msg⟩, hd, h⟩ := Option.bind_eq_some_iff.mp h
      cases h
      exact (Does.announce hd hne).runs.trans (runs_foldl (sendOwn_runs buffer msg) _ _)

theorem sendTopo_runs {neighborId : ℤ} (h : c.sendTopo neighborId = some c') : Runs c c' := by
  unfold sendTopo at h
  obtain ⟨⟨ctr, msg⟩, hmsg, h⟩ := Option.bind_eq_some_iff.mp h
  cases h
  have htype := LsMessageCenter.newMessage_msg hmsg
  refine (Does.update hmsg rfl ?_ ?_ ?_).runs.tail (Does.buffer _ _)
  · rw [htype]
  · rfl
  · intro l hl
    cases hl

/-! ## Changes of the own links -/

theorem linksChanged_runs {new old : List LsLinkState} (h : linksChanged new old c = some c') :
    Runs c c' := by
  induction new, old, c using linksChanged.induct with
  | case1 old c =>
    rw [linksChanged] at h
    cases h
    exact .refl
  | case2 new ns c =>
    rw [linksChanged] at h
    cases h
  | case3 new ns old os c hne =>
    rw [linksChanged, if_pos hne] at h
    cases h
  | case4 new ns old os c hne hdown ih =>
    rw [linksChanged, if_neg hne, if_pos hdown] at h
    exact (Does.acks c _ fun ha => ha.cancelTimer _).runs.trans (ih h)
  | case5 new ns old os c hne hdown hup ih =>
    rw [linksChanged, if_neg hne, if_neg hdown, if_pos hup] at h
    exact ih h
  | case6 new ns old os c hne hdown hup ih =>
    rw [linksChanged, if_neg hne, if_neg hdown, if_neg hup] at h
    obtain ⟨d, hd, h⟩ := Option.bind_eq_some_iff.mp h
    exact (sendTopo_runs hd).trans (ih d h)

theorem linkStateChanged_runs (h : c.linkStateChanged = some c') : Runs c c' := by
  unfold linkStateChanged at h
  obtain ⟨oldlsl, -, h⟩ := Option.bind_eq_some_iff.mp h
  obtain ⟨d, hd, h⟩ := Option.bind_eq_some_iff.mp h
  have hupdate : Runs c (c.updateDatabase c.routing.myNodeId_ c.routing.linkStateList_.1) :=
    (Does.ownLinks c c.routing.linkStateList_).runs
  refine (hupdate.trans ?_).trans (linksChanged_runs h)
  split_ifs at hd
  · exact sendLinkStates_runs hd
  · cases hd
    exact .refl

/-! ## Receiving -/

/-- The record of another node is replaced or updated. -/
theorem updateDatabase_runs {origin : ℤ} (ho : origin ≠ c.routing.myNodeId_)
    (l : List LsLinkState) : Runs c (c.updateDatabase origin l) := by
  unfold updateDatabase
  rw [update_fst]
  exact (Does.record c ho _).runs

theorem regenAndSend_runs {exception origin : ℤ} {lsl : List LsLinkState}
    (h : c.regenAndSend exception origin lsl = some c') : Runs c c' := by
  unfold regenAndSend at h
  cases lsl with
  | nil => cases h
  | cons first lsl =>
    obtain ⟨⟨ctr, msg⟩, hmsg, h⟩ := Option.bind_eq_some_iff.mp h
    cases h
    have htype := LsMessageCenter.newMessage_msg hmsg
    refine (Does.update hmsg rfl ?_ ?_ ?_).runs.trans (runs_foldl (regenTo_runs _ _ _) _ _)
    · rw [htype]
    · rfl
    · intro l hl
      rw [htype] at hl
      cases hl

/-- The forwarding loop changes the node in what waits for acknowledgments only. -/
theorem forward_routing (senderId : ℤ) (msg : LsMessage) (peers : List ℤ) (c : LsContext) :
    ∃ am, (peers.foldl (forwardTo senderId msg) c).routing =
      { c.routing with ackManager_ := am } := by
  induction peers generalizing c with
  | nil => exact ⟨_, rfl⟩
  | cons p peers ih =>
    obtain ⟨am, h⟩ := ih (forwardTo senderId msg c p)
    refine ⟨am, h.trans ?_⟩
    unfold forwardTo sendMessage messageOut
    split_ifs <;> rfl

theorem ackLSA_runs {senderId : ℤ} {msg : LsMessage} (h : c.ackLSA senderId msg = some c') :
    Runs c c' := by
  unfold ackLSA at h
  obtain ⟨⟨d, ack⟩, hd, h⟩ := Option.bind_eq_some_iff.mp h
  cases h
  obtain ⟨h1, h2, h3⟩ := sendAck_ack hd
  exact (sendAck_runs rfl hd).tail (Does.received d ⟨h1, h2, h3⟩)

theorem acceptLSA_runs {senderId : ℤ} {msg : LsMessage} {r : LsContext × Bool}
    (ho : msg.originNodeId_ ≠ c.routing.myNodeId_) (h : c.acceptLSA senderId msg = some r) :
    Runs c r.1 := by
  unfold acceptLSA at h
  have hseen : Runs c (c.markSeen msg) := (Does.lsaHistory c _).runs
  refine (hseen.trans (runs_foldl (forwardTo_runs senderId msg) c.routing.peerIdList_ _)).trans ?_
  obtain ⟨am, hr⟩ := forward_routing senderId msg c.routing.peerIdList_ (c.markSeen msg)
  cases hc : msg.contentPtr_ with
  | null =>
    simp only [hc] at h
    cases h
    exact .refl
  | lsl l =>
    simp only [hc] at h
    cases h
    apply updateDatabase_runs
    rw [hr]
    exact ho
  | topo nodeId =>
    simp only [hc] at h
    cases h

theorem accepts_eq_true {msg : LsMessage} :
    c.accepts msg = true ↔ msg.originNodeId_ ≠ c.routing.myNodeId_ ∧
      c.routing.lsaHistory_.isNew msg.originNodeId_ msg.sequenceNumber_ = true := by
  unfold accepts
  rw [Bool.and_eq_true, decide_eq_true_eq]

theorem receiveLSA_runs {senderId : ℤ} {msg : LsMessage} {r : LsContext × Bool}
    (h : c.receiveLSA senderId msg = some r) : Runs c r.1 := by
  unfold receiveLSA at h
  obtain ⟨d, hd, h⟩ := Option.bind_eq_some_iff.mp h
  refine (ackLSA_runs hd).trans ?_
  split_ifs at h with ha
  · exact acceptLSA_runs (accepts_eq_true.mp ha).1 h
  · cases h
    exact .refl

theorem receiveRecord_runs {neighborId : ℤ} {r r' : LsContext × Bool}
    {record : ℤ × List LsLinkState} (h : receiveRecord neighborId r record = some r') :
    Runs r.1 r'.1 := by
  unfold receiveRecord at h
  simp only at h
  split_ifs at h with hme
  · cases h
    exact .refl
  · obtain ⟨newer, -, h⟩ := Option.bind_eq_some_iff.mp h
    split_ifs at h
    · obtain ⟨d, hd, h⟩ := Option.bind_eq_some_iff.mp h
      cases h
      exact (Does.record r.1 hme record.2).runs.trans (regenAndSend_runs hd)
    · cases h
      exact .refl

theorem acceptTopo_runs {dbs : ℤ → LsTopoMap} {neighborId : ℤ} {msg : LsMessage}
    {r : LsContext × Bool} (h : c.acceptTopo dbs neighborId msg = some r) : Runs c r.1 := by
  unfold acceptTopo at h
  split at h
  · cases h
    exact .refl
  · exact foldlM_induction (R := fun a b : LsContext × Bool => Runs a.1 b.1) (fun _ => .refl)
      (fun _ _ _ h₁ h₂ => h₁.trans h₂) (fun _ _ _ => receiveRecord_runs) _ _ _ h
  · cases h

theorem receiveTopo_runs {dbs : ℤ → LsTopoMap} {neighborId : ℤ} {msg : LsMessage}
    {r : LsContext × Bool} (h : c.receiveTopo dbs neighborId msg = some r) : Runs c r.1 := by
  unfold receiveTopo at h
  obtain ⟨⟨d, ack⟩, hd, h⟩ := Option.bind_eq_some_iff.mp h
  refine (sendAck_runs rfl hd).trans ?_
  simp only at h
  split_ifs at h
  · exact (Does.tpmHistory d _).runs.trans (acceptTopo_runs h)
  · cases h
    exact .refl

theorem receiveMessage_runs {dbs : ℤ → LsTopoMap} {senderId : ℤ} {msgId : UInt32}
    {r : LsContext × Bool} (h : c.receiveMessage dbs senderId msgId = some r) : Runs c r.1 := by
  unfold receiveMessage at h
  split_ifs at h
  · cases h
    exact .refl
  · cases hmsg : c.msgctr_.retrieveMessagePtr msgId with
    | none =>
      rw [hmsg] at h
      cases h
      exact .refl
    | some msg =>
      simp only [hmsg] at h
      have hack : ∀ r, ((do
          let c ← c.receiveAck senderId msg
          return ({ c with msgctr_ := c.msgctr_.deleteMessage msgId }, false)) :
            Option (LsContext × Bool)) = some r → Runs c r.1 := by
        intro r hr
        obtain ⟨d, hd, hr⟩ := Option.bind_eq_some_iff.mp hr
        cases hr
        obtain ⟨am, ham, hd⟩ := Option.bind_eq_some_iff.mp hd
        cases hd
        exact (Does.acks c am fun ha => ha.ackIn ham).runs.tail (Does.deleteMessage _ _)
      cases htype : msg.type_ with
      | lsm =>
        simp only [htype] at h
        cases h
        exact .refl
      | tpm =>
        simp only [htype] at h
        exact receiveTopo_runs h
      | lsa =>
        simp only [htype] at h
        exact receiveLSA_runs h
      | lsaack =>
        simp only [htype] at h
        exact hack r h
      | tpmack =>
        simp only [htype] at h
        exact hack r h

/-! ## The agent -/

theorem recv_runs {dbs : ℤ → LsTopoMap} {src : ℤ} {msgId : UInt32}
    (h : c.recv dbs src msgId = some c') : Runs c c' := by
  unfold recv at h
  obtain ⟨⟨d, changed⟩, hd, h⟩ := Option.bind_eq_some_iff.mp h
  refine (receiveMessage_runs hd).trans ?_
  simp only at h
  split_ifs at h
  · exact sendBufferedMessages_runs h
  · cases h
    exact .refl

theorem intfChanged_runs {links : LinkList} (h : c.intfChanged links = some c') : Runs c c' := by
  unfold intfChanged at h
  obtain ⟨d, hd, h⟩ := Option.bind_eq_some_iff.mp h
  exact ((Does.links c links).runs.trans (linkStateChanged_runs hd)).trans
    (sendBufferedMessages_runs h)

theorem expire_runs {peerId : ℤ} (h : c.expire peerId = some c') : Runs c c' := by
  unfold expire at h
  obtain ⟨peer, -, h⟩ := Option.bind_eq_some_iff.mp h
  split_ifs at h
  obtain ⟨⟨am, ids⟩, ham, h⟩ := Option.bind_eq_some_iff.mp h
  cases h
  exact (Does.acks c am fun ha => ha.resendMessages ham).runs.trans
    (runs_foldl (fun d id => (Does.sendMessage d peerId id).runs) _ _)

end LsContext

end Ns2.LinkState
