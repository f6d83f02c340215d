import Ns2.LinkState.Database

/-!
# The message center

Packets of the protocol carry only a message id; the messages themselves are in one global
store, `LsMessageCenter`.

* `LsMessage` — a message, with two numbers: its id and its sequence number.
* `newMessage`, `assign`, `deleteMessage`, `retrieveMessagePtr` — the store.  It keeps
  announcements and acknowledgments apart and recycles the one with the smallest id when it is
  full.
* `lookup_created` — what the store holds once a message has been created.
-/

namespace Ns2.LinkState

/-- `ls_message_type_t`. -/
inductive LsMessageType where
  /-- Link state advertisement. -/
  | lsa
  /-- Topology map message. -/
  | tpm
  | lsaack
  | tpmack
  | lsm
deriving DecidableEq, Repr

/-- LSAs and topology maps are in `lsa_messages`, acknowledgments in `other_messages`. -/
def LsMessageType.isUpdate : LsMessageType → Bool
  | .lsa | .tpm => true
  | _ => false

/-- The union at the end of `LsMessage`. -/
inductive LsContent where
  | null
  /-- `lslPtr_`: a list that only this message points to. -/
  | lsl (l : List LsLinkState)
  /-- `topoPtr_`: the live database of a node. -/
  | topo (nodeId : ℤ)
deriving DecidableEq, Repr

structure LsMessage where
  type_ : LsMessageType
  messageId_ : UInt32
  sequenceNumber_ : UInt32
  originNodeId_ : ℤ
  contentPtr_ : LsContent
deriving DecidableEq, Repr

/-- `LS_INVALID_MESSAGE_ID`. -/
def LS_INVALID_MESSAGE_ID : UInt32 := 0

/-- The global store of the messages. -/
structure LsMessageCenter where
  current_lsa_id : UInt32
  current_other_id : UInt32
  /-- Once there are as many messages, the first one is erased. -/
  max_size : ℕ
  lsa_messages : LsMap UInt32 LsMessage
  other_messages : LsMap UInt32 LsMessage

namespace LsMessageCenter

/-- The constructor. -/
def init : LsMessageCenter where
  current_lsa_id := LS_INVALID_MESSAGE_ID + 1
  current_other_id := LS_INVALID_MESSAGE_ID + 2
  max_size := 0
  lsa_messages := ∅
  other_messages := ∅

/-- `LS_MESSAGE_CENTER_SIZE_FACTOR` times the number of nodes, as an `unsigned int`. -/
def setNodeNumber (c : LsMessageCenter) (number_of_nodes : ℕ) : LsMessageCenter :=
  { c with max_size := number_of_nodes * 4 % 2 ^ 32 }

/-- The ids go up by two. -/
def nextId (id : UInt32) : UInt32 :=
  if id + 2 = LS_INVALID_MESSAGE_ID then id + 2 + 2 else id + 2

/-- Make room in a full storage: `erase(begin())`. -/
def recycle (max_size : ℕ) (storage : LsMap UInt32 LsMessage) : LsMap UInt32 LsMessage :=
  if max_size ≤ storage.size then
    match storage.minKey? with
    | some k => storage.erase k
    | none => storage
  else storage

/-- The size that counts: `init` gives one when Tcl has given none. -/
def size (c : LsMessageCenter) : ℕ := if c.max_size = 0 then 300 else c.max_size

/-- `LsMessageCenter::newMessage`; `none` when it aborts because the id is in use. -/
def newMessage (c : LsMessageCenter) (nodeId : ℤ) (type : LsMessageType) :
    Option (LsMessageCenter × LsMessage) :=
  if type.isUpdate then
    let id := c.current_lsa_id
    let msg : LsMessage := ⟨type, id, id, nodeId, .null⟩
    let storage := recycle c.size c.lsa_messages
    if storage.contains id then none
    else
      some ({ c with
        max_size := c.size
        current_lsa_id := nextId id
        lsa_messages := storage.insert id msg }, msg)
  else
    let id := c.current_other_id
    let msg : LsMessage := ⟨type, id, id, nodeId, .null⟩
    let storage := recycle c.size c.other_messages
    if storage.contains id then none
    else
      some ({ c with
        max_size := c.size
        current_other_id := nextId id
        other_messages := storage.insert id msg }, msg)

/-- Assignments through the pointer that `newMessage` has returned. -/
def assign (c : LsMessageCenter) (msg : LsMessage) : LsMessageCenter :=
  if msg.type_.isUpdate then
    { c with lsa_messages := c.lsa_messages.insert msg.messageId_ msg }
  else { c with other_messages := c.other_messages.insert msg.messageId_ msg }

/-- `LsMessageCenter::deleteMessage`, which looks among the acknowledgments only. -/
def deleteMessage (c : LsMessageCenter) (msgId : UInt32) : LsMessageCenter :=
  { c with other_messages := c.other_messages.erase msgId }

/-- The last bit of an id. -/
def isLSA (msgId : UInt32) : Bool := 1 &&& (msgId ^^^ LS_INVALID_MESSAGE_ID) != 0

/-- `LsMessageCenter::retrieveMessagePtr`. -/
def retrieveMessagePtr (c : LsMessageCenter) (msgId : UInt32) : Option LsMessage :=
  if isLSA msgId then c.lsa_messages[msgId]? else c.other_messages[msgId]?

/-! ## What the store holds -/

variable {c c' : LsMessageCenter} {msg m x : LsMessage} {nodeId : ℤ} {type : LsMessageType}
  {k : UInt32}

/-- Recycling adds nothing. -/
theorem getElem?_recycle {n : ℕ} {storage : LsMap UInt32 LsMessage}
    (h : (recycle n storage)[k]? = some x) : storage[k]? = some x := by
  unfold recycle at h
  split_ifs at h
  · cases hmin : storage.minKey? with
    | none => rwa [hmin] at h
    | some a =>
      simp only [hmin] at h
      rw [getElem?_lsErase] at h
      split_ifs at h
      exact h
  · exact h

/-- The message created: both its numbers are its id. -/
theorem newMessage_msg (h : c.newMessage nodeId type = some (c', msg)) :
    msg = ⟨type, msg.messageId_, msg.messageId_, nodeId, .null⟩ := by
  unfold newMessage at h
  simp only at h
  split_ifs at h <;> cases h <;> rfl

theorem newMessage_lsa (h : c.newMessage nodeId type = some (c', msg)) (ht : type.isUpdate = true) :
    c'.lsa_messages = (recycle c.size c.lsa_messages).insert msg.messageId_ msg ∧
      c'.other_messages = c.other_messages := by
  unfold newMessage at h
  simp only [ht, if_true] at h
  split_ifs at h
  obtain ⟨rfl, rfl⟩ := Prod.mk.inj (Option.some.inj h)
  exact ⟨rfl, rfl⟩

theorem newMessage_ack (h : c.newMessage nodeId type = some (c', msg)) (ht : type.isUpdate = false) :
    c'.other_messages = (recycle c.size c.other_messages).insert msg.messageId_ msg ∧
      c'.lsa_messages = c.lsa_messages := by
  unfold newMessage at h
  simp only [ht, Bool.false_eq_true, if_false] at h
  split_ifs at h
  obtain ⟨rfl, rfl⟩ := Prod.mk.inj (Option.some.inj h)
  exact ⟨rfl, rfl⟩

/-- The assignments go to the same place of the storage. -/
theorem getElem?_created {n : ℕ} {storage : LsMap UInt32 LsMessage} (hid : m.messageId_ = msg.messageId_)
    (hx : (((recycle n storage).insert msg.messageId_ msg).insert m.messageId_ m)[k]? = some x) :
    (k = m.messageId_ ∧ x = m) ∨ (k ≠ m.messageId_ ∧ storage[k]? = some x) := by
  rw [getElem?_lsInsert] at hx
  split_ifs at hx with hk
  · exact Or.inl ⟨hk, (Option.some.inj hx).symm⟩
  · rw [getElem?_lsInsert, if_neg (hid ▸ hk)] at hx
    exact Or.inr ⟨hk, getElem?_recycle hx⟩

/-- An announcement created and filled in is there under its id; any other one was there
before. -/
theorem lookup_created (h : c.newMessage nodeId type = some (c', msg)) (ht : type.isUpdate = true)
    (hm : m.type_ = type) (hid : m.messageId_ = msg.messageId_)
    (hx : (c'.assign m).lsa_messages[k]? = some x) :
    (k = m.messageId_ ∧ x = m) ∨ (k ≠ m.messageId_ ∧ c.lsa_messages[k]? = some x) := by
  unfold assign at hx
  rw [if_pos (by rw [hm]; exact ht)] at hx
  dsimp only at hx
  rw [(newMessage_lsa h ht).1] at hx
  exact getElem?_created hid hx

/-- Creating an announcement leaves the acknowledgments alone. -/
theorem newMessage_other (h : c.newMessage nodeId type = some (c', msg))
    (ht : type.isUpdate = true) (hm : m.type_ = type) :
    (c'.assign m).other_messages = c.other_messages := by
  unfold assign
  rw [if_pos (by rw [hm]; exact ht)]
  exact (newMessage_lsa h ht).2

/-- An acknowledgment created and filled in. -/
theorem lookup_created_ack (h : c.newMessage nodeId type = some (c', msg))
    (ht : type.isUpdate = false) (hm : m.type_ = type) (hid : m.messageId_ = msg.messageId_)
    (hx : (c'.assign m).other_messages[k]? = some x) :
    (k = m.messageId_ ∧ x = m) ∨ (k ≠ m.messageId_ ∧ c.other_messages[k]? = some x) := by
  unfold assign at hx
  rw [if_neg (by rw [hm, ht]; exact Bool.false_ne_true)] at hx
  dsimp only at hx
  rw [(newMessage_ack h ht).1] at hx
  exact getElem?_created hid hx

theorem newMessage_ack_lsa (h : c.newMessage nodeId type = some (c', msg))
    (ht : type.isUpdate = false) (hm : m.type_ = type) :
    (c'.assign m).lsa_messages = c.lsa_messages := by
  unfold assign
  rw [if_neg (by rw [hm, ht]; exact Bool.false_ne_true)]
  exact (newMessage_ack h ht).2

end LsMessageCenter

end Ns2.LinkState
