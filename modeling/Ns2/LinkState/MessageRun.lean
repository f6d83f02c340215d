import Ns2.LinkState.MessageCenter
import Ns2.Lib.Run

/-!
# The newest messages

The store of messages recycles the one with the smallest id.  That is the oldest one as long as ids
grow; they are 32 bits wide.

* `storage`, `currentId` — the two stores, announcements and acknowledgments, alike.
* `Call`, `CenterRun` — calls, and the messages created in each store, deleted ones marked.
* `Tells` — what a call of `newMessage` has to do; `SparesNewest` — the condition under which it does.
* `Inv` — the invariant: the newest messages are stored.
* `newest_kept_iff` — every run of calls, of any length.
* `Young`, `sparesNewest_of_few` — the condition holds as long as ids have not wrapped around.
-/

namespace Ns2.LinkState

namespace LsMessageCenter

/-! ## The two stores -/

/-- `lsa_messages` or `other_messages`. -/
def storage (c : LsMessageCenter) (update : Bool) : LsMap UInt32 LsMessage :=
  if update then c.lsa_messages else c.other_messages

/-- `current_lsa_id` or `current_other_id`. -/
def currentId (c : LsMessageCenter) (update : Bool) : UInt32 :=
  if update then c.current_lsa_id else c.current_other_id

/-- A center without messages. -/
def sized (max_size : ℕ) : LsMessageCenter := { init with max_size := max_size }

variable {c c' : LsMessageCenter} {msg m : LsMessage} {nodeId : ℤ} {type : LsMessageType}
  {id k : UInt32} {update : Bool}

/-- The message that `newMessage` creates. -/
def created (c : LsMessageCenter) (nodeId : ℤ) (type : LsMessageType) : LsMessage :=
  ⟨type, c.currentId type.isUpdate, c.currentId type.isUpdate, nodeId, .null⟩

/-- `newMessage` fails when the id is in use after recycling. -/
theorem newMessage_eq_none (h : (recycle c.size (c.storage type.isUpdate)).contains
    (c.currentId type.isUpdate) = true) : c.newMessage nodeId type = none := by
  unfold newMessage
  cases ht : type.isUpdate with
  | true =>
    rw [ht] at h
    exact if_pos h
  | false =>
    rw [ht] at h
    exact if_pos h

/-- What `newMessage` does otherwise: to its own store, and to the other one. -/
theorem newMessage_eq_some (nodeId : ℤ) (h : (recycle c.size (c.storage type.isUpdate)).contains
    (c.currentId type.isUpdate) = false) :
    ∃ c', c.newMessage nodeId type = some (c', c.created nodeId type) ∧ c'.size = c.size ∧
      c'.storage type.isUpdate = (recycle c.size (c.storage type.isUpdate)).insert
        (c.currentId type.isUpdate) (c.created nodeId type) ∧
      c'.storage (!type.isUpdate) = c.storage (!type.isUpdate) ∧
      c'.currentId type.isUpdate = nextId (c.currentId type.isUpdate) ∧
      c'.currentId (!type.isUpdate) = c.currentId (!type.isUpdate) := by
  have hsize : ∀ d : LsMessageCenter, d.max_size = c.size → d.size = c.size := by
    intro d hd
    rw [size, hd, if_neg]
    unfold size
    split_ifs with h0
    · decide
    · exact h0
  unfold newMessage created
  cases ht : type.isUpdate with
  | true =>
    rw [ht] at h
    have hnot : ¬ (recycle c.size c.lsa_messages).contains c.current_lsa_id = true := by
      rw [Bool.not_eq_true]
      exact h
    simp only [if_true, if_neg hnot]
    exact ⟨_, rfl, hsize _ rfl, rfl, rfl, rfl, rfl⟩
  | false =>
    rw [ht] at h
    have hnot : ¬ (recycle c.size c.other_messages).contains c.current_other_id = true := by
      rw [Bool.not_eq_true]
      exact h
    simp only [Bool.false_eq_true, if_false, if_neg hnot]
    exact ⟨_, rfl, hsize _ rfl, rfl, rfl, rfl, rfl⟩

theorem deleteMessage_storage (c : LsMessageCenter) (msgId : UInt32) (update : Bool) :
    (c.deleteMessage msgId).storage update =
      if update then c.storage update else (c.storage update).erase msgId := by
  cases update with
  | true => rfl
  | false => rfl

/-- Recycling takes out the smallest id of a full store. -/
theorem getElem?_recycle_of_ne {n : ℕ} {s : LsMap UInt32 LsMessage}
    (h : n ≤ s.size → s.minKey? ≠ some id) : (recycle n s)[id]? = s[id]? := by
  unfold recycle
  split_ifs with hfull
  · cases hmin : s.minKey? with
    | none => rfl
    | some k =>
      simp only
      rw [getElem?_lsErase, if_neg]
      rintro rfl
      exact h hfull hmin
  · rfl

theorem getElem?_recycle_min {n : ℕ} {s : LsMap UInt32 LsMessage} (hfull : n ≤ s.size)
    (hmin : s.minKey? = some id) : (recycle n s)[id]? = none := by
  rw [recycle, if_pos hfull, hmin]
  simp only
  rw [getElem?_lsErase, if_pos rfl]

theorem recycle_none {n : ℕ} {s : LsMap UInt32 LsMessage} (h : s[id]? = none) :
    (recycle n s).contains id = false := by
  cases hx : (recycle n s)[id]? with
  | none =>
    rw [Std.TreeMap.contains_eq_isSome_getElem?, hx]
    rfl
  | some x =>
    rw [getElem?_recycle hx] at h
    cases h

end LsMessageCenter

/-! ## Runs -/

/-- A call. -/
inductive Call where
  /-- `newMessage(nodeId, type)`. -/
  | newMessage (nodeId : ℤ) (type : LsMessageType)
  /-- `deleteMessage(msgId)`. -/
  | deleteMessage (msgId : UInt32)

/-- The center, and the messages created in each store, the newest first; a message that has been
deleted leaves its place empty. -/
structure CenterRun where
  ctr : LsMessageCenter
  messages : Bool → List (Option LsMessage)

/-- The list after a message has been deleted. -/
def erased (msgId : UInt32) (l : List (Option LsMessage)) : List (Option LsMessage) :=
  l.map fun o => o.filter fun m => m.messageId_ ≠ msgId

namespace CenterRun

/-- The state after a call.  A call that aborts is the last one. -/
def step (s : CenterRun) : Call → CenterRun
  | .newMessage nodeId type =>
    match s.ctr.newMessage nodeId type with
    | some (ctr, msg) =>
      { ctr := ctr
        messages := Function.update s.messages type.isUpdate
          (some msg :: s.messages type.isUpdate) }
    | none => s
  | .deleteMessage msgId =>
    { ctr := s.ctr.deleteMessage msgId
      messages := Function.update s.messages false (erased msgId (s.messages false)) }

/-- Nothing has been created. -/
def start (max_size : ℕ) : CenterRun := ⟨LsMessageCenter.sized max_size, fun _ => []⟩

/-- What a call has to do.  `newMessage` succeeds with an id that is not stored, of the right parity
and not the invalid one; afterwards each of the newest messages of the store, as many as it has room
for, is found unless it has been deleted. -/
def Tells (s : CenterRun) : Call → Prop
  | .newMessage nodeId type =>
    ∃ ctr msg, s.ctr.newMessage nodeId type = some (ctr, msg) ∧
      (s.ctr.storage type.isUpdate)[msg.messageId_]? = none ∧
      msg.messageId_.toNat % 2 = (if type.isUpdate then 1 else 0) ∧
      msg.messageId_ ≠ LS_INVALID_MESSAGE_ID ∧
      ∀ m, some m ∈ (some msg :: s.messages type.isUpdate).take s.ctr.size →
        ctr.retrieveMessagePtr m.messageId_ = some m
  | .deleteMessage _ => True

/-- The next id is not stored; and the message with the smallest id of a full store is not one of the
newest, all but one as many as there is room for. -/
def SparesNewest (s : CenterRun) : Call → Prop
  | .newMessage _ type =>
    (s.ctr.storage type.isUpdate)[s.ctr.currentId type.isUpdate]? = none ∧
      (s.ctr.size ≤ (s.ctr.storage type.isUpdate).size →
        ∀ m, some m ∈ (s.messages type.isUpdate).take (s.ctr.size - 1) →
          (s.ctr.storage type.isUpdate).minKey? ≠ some m.messageId_)
  | .deleteMessage _ => True

/-- **The invariant.** -/
structure Inv (s : CenterRun) : Prop where
  /-- The newest messages are stored. -/
  newest : ∀ b, ∀ m, some m ∈ (s.messages b).take s.ctr.size →
    (s.ctr.storage b)[m.messageId_]? = some m
  /-- The ids tell the stores apart. -/
  parity : ∀ b, (s.ctr.currentId b).toNat % 2 = (if b then 1 else 0) ∧
    s.ctr.currentId b ≠ LS_INVALID_MESSAGE_ID
  /-- So do those of the messages. -/
  messages : ∀ b, ∀ m, some m ∈ s.messages b → m.messageId_.toNat % 2 = (if b then 1 else 0)

variable {s : CenterRun} {m : LsMessage} {nodeId : ℤ} {type : LsMessageType} {msgId : UInt32}

theorem size_pos (c : LsMessageCenter) : 0 < c.size := by
  unfold LsMessageCenter.size
  split_ifs
  · omega
  · omega

/-- The store is told by the last bit. -/
theorem retrieveMessagePtr_eq {c : LsMessageCenter} {id : UInt32} {b : Bool}
    (h : id.toNat % 2 = if b then 1 else 0) : c.retrieveMessagePtr id = (c.storage b)[id]? := by
  have hbit : (1 &&& (id ^^^ LS_INVALID_MESSAGE_ID)).toNat = id.toNat % 2 := by
    have hxor : id ^^^ LS_INVALID_MESSAGE_ID = id := UInt32.xor_zero
    rw [hxor, UInt32.toNat_and]
    exact Nat.one_and_eq_mod_two _
  rw [LsMessageCenter.retrieveMessagePtr, LsMessageCenter.isLSA, LsMessageCenter.storage]
  cases b with
  | true =>
    rw [if_pos]
    · rfl
    · rw [bne_iff_ne]
      intro h0
      rw [h0] at hbit
      rw [← hbit] at h
      exact absurd h (by decide)
  | false =>
    rw [if_neg]
    · rfl
    · rw [bne_iff_ne, not_not, ← UInt32.toNat_inj, hbit, h]
      rfl

/-- The next id is of the same parity, and not the invalid one. -/
theorem nextId_parity {id : UInt32} {b : Bool} (h : id.toNat % 2 = if b then 1 else 0) :
    (LsMessageCenter.nextId id).toNat % 2 = (if b then 1 else 0) ∧
      LsMessageCenter.nextId id ≠ LS_INVALID_MESSAGE_ID := by
  have hadd : (id + 2).toNat = (id.toNat + 2) % 2 ^ 32 := UInt32.toNat_add id 2
  have hadd' : (id + 2 + 2).toNat = ((id + 2).toNat + 2) % 2 ^ 32 := UInt32.toNat_add (id + 2) 2
  have hinv : ∀ x : UInt32, x = LS_INVALID_MESSAGE_ID ↔ x.toNat = 0 := fun x => by
    rw [← UInt32.toNat_inj]
    rfl
  generalize (if b then 1 else 0) = r at h ⊢
  rw [LsMessageCenter.nextId]
  by_cases hz : id + 2 = LS_INVALID_MESSAGE_ID
  · rw [if_pos hz, ne_eq, hinv]
    rw [hinv] at hz
    omega
  · rw [if_neg hz]
    exact ⟨by omega, hz⟩

/-- The messages after one has been deleted. -/
theorem mem_erased {l : List (Option LsMessage)} :
    some m ∈ erased msgId l ↔ some m ∈ l ∧ m.messageId_ ≠ msgId := by
  rw [erased, List.mem_map]
  constructor
  · rintro ⟨o, ho, heq⟩
    obtain ⟨rfl, hne⟩ := Option.filter_eq_some_iff.mp heq
    exact ⟨ho, of_decide_eq_true hne⟩
  · rintro ⟨hm, hne⟩
    exact ⟨some m, hm, Option.filter_eq_some_iff.mpr ⟨rfl, decide_eq_true hne⟩⟩

theorem mem_take_erased {l : List (Option LsMessage)} {n : ℕ} :
    some m ∈ (erased msgId l).take n ↔ some m ∈ l.take n ∧ m.messageId_ ≠ msgId := by
  have htake : (erased msgId l).take n = erased msgId (l.take n) := (List.map_take ..).symm
  rw [htake, mem_erased]

theorem reduceOption_erased (l : List (Option LsMessage)) :
    (erased msgId l).reduceOption = l.reduceOption.filter fun m => m.messageId_ ≠ msgId := by
  simp only [List.reduceOption, erased, List.filterMap_map, List.filter_filterMap]
  rfl

/-- A call of `newMessage` under the condition: the state afterwards. -/
theorem Inv.newMessage (h : s.Inv) (hok : s.SparesNewest (.newMessage nodeId type)) :
    ∃ ctr, s.ctr.newMessage nodeId type = some (ctr, s.ctr.created nodeId type) ∧
      Inv ⟨ctr, Function.update s.messages type.isUpdate
        (some (s.ctr.created nodeId type) :: s.messages type.isUpdate)⟩ := by
  obtain ⟨hfresh, hspare⟩ := hok
  obtain ⟨ctr, hnew, hsize, hown, hother, hid, hidother⟩ :=
    LsMessageCenter.newMessage_eq_some nodeId (LsMessageCenter.recycle_none (n := s.ctr.size) hfresh)
  have hpos := size_pos s.ctr
  refine ⟨ctr, hnew, fun b m hm => ?_, fun b => ?_, fun b m hm => ?_⟩
  · simp only [hsize] at hm
    by_cases hb : b = type.isUpdate
    · subst hb
      simp only [Function.update_self] at hm
      simp only [hown, getElem?_lsInsert]
      rw [← Nat.sub_add_cancel hpos, List.take_succ_cons, List.mem_cons] at hm
      rcases hm with hm | hm
      · obtain rfl := Option.some.inj hm
        exact if_pos rfl
      · have hstored := h.newest _ m (List.take_subset_take_left _ (Nat.sub_le _ 1) hm)
        have hne : m.messageId_ ≠ s.ctr.currentId type.isUpdate := by
          rintro heq
          rw [heq, hfresh] at hstored
          cases hstored
        rw [if_neg hne, LsMessageCenter.getElem?_recycle_of_ne fun hfull => hspare hfull m hm]
        exact hstored
    · obtain rfl := Bool.eq_not.mpr hb
      simp only [Function.update_of_ne hb] at hm
      simp only [hother]
      exact h.newest _ m hm
  · by_cases hb : b = type.isUpdate
    · subst hb
      simp only [hid]
      exact nextId_parity (h.parity _).1
    · obtain rfl := Bool.eq_not.mpr hb
      simp only [hidother]
      exact h.parity _
  · by_cases hb : b = type.isUpdate
    · subst hb
      simp only [Function.update_self, List.mem_cons] at hm
      rcases hm with hm | hm
      · obtain rfl := Option.some.inj hm
        exact (h.parity _).1
      · exact h.messages _ m hm
    · simp only [Function.update_of_ne hb] at hm
      exact h.messages _ m hm

/-- A deletion keeps the invariant. -/
theorem Inv.deleteMessage (h : s.Inv) (msgId : UInt32) : (s.step (.deleteMessage msgId)).Inv := by
  have hsize : (s.ctr.deleteMessage msgId).size = s.ctr.size := rfl
  refine ⟨fun b m hm => ?_, fun b => ?_, fun b m hm => ?_⟩
  · simp only [step, LsMessageCenter.deleteMessage_storage, hsize] at hm ⊢
    cases b with
    | true => exact h.newest true m hm
    | false =>
      simp only [Function.update_self] at hm
      obtain ⟨hmem, hne⟩ := mem_take_erased.mp hm
      rw [if_neg Bool.false_ne_true, getElem?_lsErase, if_neg hne]
      exact h.newest false m hmem
  · cases b with
    | true => exact h.parity true
    | false => exact h.parity false
  · simp only [step] at hm
    cases b with
    | true => exact h.messages true m hm
    | false =>
      simp only [Function.update_self] at hm
      exact h.messages false m (mem_erased.mp hm).1

/-- Calls under the condition keep the invariant. -/
theorem Inv.step (h : s.Inv) (o : Call) (hok : s.SparesNewest o) : (s.step o).Inv := by
  cases o with
  | newMessage nodeId type =>
    obtain ⟨ctr, hnew, hinv⟩ := h.newMessage hok
    rw [CenterRun.step, hnew]
    exact hinv
  | deleteMessage msgId => exact h.deleteMessage msgId

/-- **One call** does what it has to do exactly under the condition. -/
theorem Inv.tells_iff (h : s.Inv) (o : Call) : s.Tells o ↔ s.SparesNewest o := by
  cases o with
  | deleteMessage msgId => exact Iff.rfl
  | newMessage nodeId type =>
    constructor
    · rintro ⟨ctr, msg, hnew, hfresh, hparity, -, hfound⟩
      have hid : msg.messageId_ = s.ctr.currentId type.isUpdate := by
        cases hc : (LsMessageCenter.recycle s.ctr.size (s.ctr.storage type.isUpdate)).contains
            (s.ctr.currentId type.isUpdate) with
        | true =>
          rw [LsMessageCenter.newMessage_eq_none hc] at hnew
          cases hnew
        | false =>
          obtain ⟨ctr', hnew', -⟩ := LsMessageCenter.newMessage_eq_some nodeId hc
          rw [hnew'] at hnew
          cases hnew
          rfl
      rw [hid] at hfresh
      refine ⟨hfresh, fun hfull m hm hmin => ?_⟩
      obtain ⟨ctr', hnew', -, hown, -⟩ := LsMessageCenter.newMessage_eq_some nodeId
        (LsMessageCenter.recycle_none (n := s.ctr.size) hfresh)
      obtain ⟨rfl, rfl⟩ := Prod.mk.inj (Option.some.inj (hnew'.symm.trans hnew))
      -- the message with the smallest id has been recycled
      have hmem : some m ∈ s.messages type.isUpdate := List.mem_of_mem_take hm
      have hstored := h.newest _ m (List.take_subset_take_left _ (Nat.sub_le _ 1) hm)
      have hne : m.messageId_ ≠ s.ctr.currentId type.isUpdate := by
        rintro heq
        rw [heq, hfresh] at hstored
        cases hstored
      have hget := hfound m (by
        rw [← Nat.sub_add_cancel (size_pos s.ctr), List.take_succ_cons]
        exact List.mem_cons_of_mem _ hm)
      rw [retrieveMessagePtr_eq (h.messages _ m hmem), hown, getElem?_lsInsert, if_neg hne,
        LsMessageCenter.getElem?_recycle_min hfull hmin] at hget
      cases hget
    · intro hok
      obtain ⟨ctr, hnew, hinv⟩ := h.newMessage hok
      have hpar := h.parity type.isUpdate
      have hsize : ctr.size = s.ctr.size := by
        obtain ⟨ctr', hnew', hsize, -⟩ := LsMessageCenter.newMessage_eq_some nodeId
          (LsMessageCenter.recycle_none (n := s.ctr.size) hok.1)
        obtain ⟨rfl, -⟩ := Prod.mk.inj (Option.some.inj (hnew'.symm.trans hnew))
        exact hsize
      refine ⟨ctr, _, hnew, hok.1, hpar.1, hpar.2, fun m hm => ?_⟩
      have hm' : some m ∈ (Function.update s.messages type.isUpdate
          (some (s.ctr.created nodeId type) :: s.messages type.isUpdate) type.isUpdate).take
            ctr.size := by
        rw [Function.update_self, hsize]
        exact hm
      rw [retrieveMessagePtr_eq (hinv.messages type.isUpdate m (List.mem_of_mem_take hm'))]
      exact hinv.newest type.isUpdate m hm'

/-! ## Before ids wrap around -/

/-- Ids have not wrapped around: there have been at most `n` calls. -/
structure Young (s : CenterRun) (n : ℕ) : Prop where
  /-- Ids go up by two. -/
  next : ∀ b, (s.ctr.currentId b).toNat ≤ 2 * n + 2
  /-- Messages have smaller ids than the next one. -/
  below : ∀ b m, some m ∈ s.messages b → m.messageId_.toNat < (s.ctr.currentId b).toNat
  /-- Newer messages have larger ids. -/
  sorted : ∀ b, (s.messages b).reduceOption.Pairwise fun later m =>
    m.messageId_.toNat < later.messageId_.toNat
  /-- What is stored has been created, and has not been deleted. -/
  stored : ∀ b (k : UInt32) m, (s.ctr.storage b)[k]? = some m →
    some m ∈ s.messages b ∧ m.messageId_ = k

variable {n : ℕ}

/-- The smallest id of a full store is that of the oldest message. -/
theorem Young.sparesNewest (h : s.Young n) (o : Call) : s.SparesNewest o := by
  cases o with
  | deleteMessage msgId => trivial
  | newMessage nodeId type =>
    constructor
    · cases hx : (s.ctr.storage type.isUpdate)[s.ctr.currentId type.isUpdate]? with
      | none => rfl
      | some m =>
        obtain ⟨hmem, hid⟩ := h.stored _ _ m hx
        have hlt := h.below _ m hmem
        rw [hid] at hlt
        exact absurd hlt (lt_irrefl _)
    · intro hfull m hm hmin
      have hsplit := List.take_append_drop (s.ctr.size - 1) (s.messages type.isUpdate)
      have hsorted := h.sorted type.isUpdate
      rw [← hsplit, List.reduceOption_append, List.pairwise_append] at hsorted
      -- all that is stored is among the newest messages, and these are too few
      have hsub : (s.ctr.storage type.isUpdate).keys ⊆
          ((s.messages type.isUpdate).take (s.ctr.size - 1)).reduceOption.map
            LsMessage.messageId_ := by
        intro k hk
        rw [Std.TreeMap.mem_keys, Std.TreeMap.mem_iff_isSome_getElem?, Option.isSome_iff_exists] at hk
        obtain ⟨m', hget⟩ := hk
        obtain ⟨hmem, rfl⟩ := h.stored _ k m' hget
        have hle : m.messageId_ ≤ m'.messageId_ := by
          have hcmp := (Std.TreeMap.minKey?_eq_some_iff_mem_and_forall.mp hmin).2 _
            (Std.TreeMap.mem_iff_isSome_getElem?.mpr (Option.isSome_iff_exists.mpr ⟨m', hget⟩))
          rwa [Std.isLE_compare] at hcmp
        refine List.mem_map_of_mem (List.reduceOption_mem_iff.mpr ?_)
        rw [← hsplit] at hmem
        refine (List.mem_append.mp hmem).resolve_right fun hdrop => ?_
        have hlt := hsorted.2.2 m (List.reduceOption_mem_iff.mpr hm) m'
          (List.reduceOption_mem_iff.mpr hdrop)
        exact absurd hlt (not_lt.mpr (UInt32.le_iff_toNat_le.mp hle))
      have hlen := (Std.TreeMap.nodup_keys.subperm hsub).length_le
      have htake := List.reduceOption_length_le ((s.messages type.isUpdate).take (s.ctr.size - 1))
      rw [Std.TreeMap.length_keys, List.length_map] at hlen
      rw [List.length_take] at htake
      have hpos := size_pos s.ctr
      omega

/-- A deletion while ids are small. -/
theorem Young.deleteMessage (h : s.Young n) (msgId : UInt32) :
    (s.step (.deleteMessage msgId)).Young (n + 1) := by
  refine ⟨fun b => ?_, fun b m hm => ?_, fun b => ?_, fun b k m hk => ?_⟩
  · have hnext := h.next b
    have hcur : ((s.step (.deleteMessage msgId)).ctr.currentId b) = s.ctr.currentId b := by
      cases b <;> rfl
    rw [hcur]
    omega
  · cases b with
    | true => exact h.below true m hm
    | false =>
      simp only [CenterRun.step, Function.update_self] at hm
      exact h.below false m (mem_erased.mp hm).1
  · cases b with
    | true => exact h.sorted true
    | false =>
      simp only [CenterRun.step, Function.update_self]
      rw [reduceOption_erased]
      exact (h.sorted false).filter _
  · simp only [CenterRun.step, LsMessageCenter.deleteMessage_storage] at hk ⊢
    cases b with
    | true => exact h.stored true k m hk
    | false =>
      rw [if_neg Bool.false_ne_true, getElem?_lsErase] at hk
      split_ifs at hk with hne
      obtain ⟨h1, rfl⟩ := h.stored false k m hk
      rw [Function.update_self]
      exact ⟨mem_erased.mpr ⟨h1, hne⟩, rfl⟩

/-- Another message while ids are small. -/
theorem Young.newMessage (h : s.Young n) (nodeId : ℤ) (type : LsMessageType) (hn : 2 * n + 4 < 2 ^ 32) :
    (s.step (.newMessage nodeId type)).Young (n + 1) := by
  obtain ⟨ctr, hnew, -, hown, hother, hid, hidother⟩ :=
    LsMessageCenter.newMessage_eq_some nodeId
      (LsMessageCenter.recycle_none (n := s.ctr.size) (h.sparesNewest (.newMessage nodeId type)).1)
  have hcur := h.next type.isUpdate
  have hadd : (s.ctr.currentId type.isUpdate + 2).toNat =
      ((s.ctr.currentId type.isUpdate).toNat + 2) % 2 ^ 32 := UInt32.toNat_add _ 2
  have hnextId : (ctr.currentId type.isUpdate).toNat =
      (s.ctr.currentId type.isUpdate).toNat + 2 := by
    rw [hid, LsMessageCenter.nextId, if_neg]
    · omega
    · rw [← UInt32.toNat_inj]
      have h0 : LS_INVALID_MESSAGE_ID.toNat = 0 := rfl
      omega
  simp only [CenterRun.step, hnew]
  refine ⟨fun b => ?_, fun b m hm => ?_, fun b => ?_, fun b k m hk => ?_⟩
  · by_cases hb : b = type.isUpdate
    · subst hb
      simp only
      omega
    · obtain rfl := Bool.eq_not.mpr hb
      have hnext := h.next (!type.isUpdate)
      simp only [hidother]
      omega
  · by_cases hb : b = type.isUpdate
    · subst hb
      simp only [Function.update_self, List.mem_cons] at hm
      simp only [hnextId]
      rcases hm with hm | hm
      · obtain rfl := Option.some.inj hm
        simp only [LsMessageCenter.created]
        omega
      · have hlt := h.below _ m hm
        omega
    · obtain rfl := Bool.eq_not.mpr hb
      simp only [Function.update_of_ne hb] at hm
      simp only [hidother]
      exact h.below _ m hm
  · by_cases hb : b = type.isUpdate
    · subst hb
      simp only [Function.update_self, List.reduceOption_cons_of_some, List.pairwise_cons]
      exact ⟨fun m hm => h.below _ m (List.reduceOption_mem_iff.mp hm), h.sorted _⟩
    · simp only [Function.update_of_ne hb]
      exact h.sorted b
  · by_cases hb : b = type.isUpdate
    · subst hb
      simp only [hown, getElem?_lsInsert] at hk
      simp only [Function.update_self, List.mem_cons]
      split_ifs at hk with heq
      · obtain rfl := Option.some.inj hk
        exact ⟨Or.inl rfl, heq.symm⟩
      · obtain ⟨h1, h2⟩ := h.stored _ k m (LsMessageCenter.getElem?_recycle hk)
        exact ⟨Or.inr h1, h2⟩
    · obtain rfl := Bool.eq_not.mpr hb
      simp only [hother] at hk
      simp only [Function.update_of_ne hb]
      exact h.stored _ k m hk

/-- A call while ids are small. -/
theorem Young.step (h : s.Young n) (o : Call) (hn : 2 * n + 4 < 2 ^ 32) :
    (s.step o).Young (n + 1) := by
  cases o with
  | deleteMessage msgId => exact h.deleteMessage msgId
  | newMessage nodeId type => exact h.newMessage nodeId type hn

theorem young_start (max_size : ℕ) : (start max_size).Young 0 := by
  refine ⟨fun b => ?_, fun b m hm => ?_, fun b => List.Pairwise.nil, fun b k m hk => ?_⟩
  · cases b with
    | true => exact (by decide : (LS_INVALID_MESSAGE_ID + 1).toNat ≤ 2)
    | false => exact (by decide : (LS_INVALID_MESSAGE_ID + 2).toNat ≤ 2)
  · exact absurd hm List.not_mem_nil
  · have hempty : (start max_size).ctr.storage b = ∅ := by
      cases b <;> rfl
    rw [hempty, Std.TreeMap.getElem?_emptyc] at hk
    cases hk

/-- **The condition holds before the ids wrap around.** -/
theorem sparesNewest_of_few (max_size : ℕ) (calls : List Call) (h : calls.length < 2 ^ 31 - 1) :
    Run.AllSteps step SparesNewest (start max_size) calls := by
  suffices ∀ (calls : List Call) (s : CenterRun) (n : ℕ), s.Young n →
      n + calls.length < 2 ^ 31 - 1 → Run.AllSteps CenterRun.step SparesNewest s calls from
    this calls _ 0 (young_start max_size) (by omega)
  intro calls
  induction calls with
  | nil => exact fun _ _ _ _ => trivial
  | cons o calls ih =>
    intro s n hs hn
    rw [List.length_cons] at hn
    exact ⟨hs.sparesNewest o, ih _ (n + 1) (hs.step o (by omega)) (by omega)⟩

/-! ## Every run -/

theorem inv_start (max_size : ℕ) : (start max_size).Inv := by
  refine ⟨fun b m hm => ?_, fun b => ?_, fun b m hm => absurd hm List.not_mem_nil⟩
  · exact absurd (List.mem_of_mem_take hm) List.not_mem_nil
  · cases b with
    | true => exact (by decide : (LS_INVALID_MESSAGE_ID + 1).toNat % 2 = 1 ∧
        LS_INVALID_MESSAGE_ID + 1 ≠ LS_INVALID_MESSAGE_ID)
    | false => exact (by decide : (LS_INVALID_MESSAGE_ID + 2).toNat % 2 = 0 ∧
        LS_INVALID_MESSAGE_ID + 2 ≠ LS_INVALID_MESSAGE_ID)

/-- The two conditions have the same runs. -/
theorem allSteps_tells_iff (calls : List Call) (s : CenterRun) (h : s.Inv) :
    Run.AllSteps step Tells s calls ↔ Run.AllSteps step SparesNewest s calls :=
  Run.allSteps_congr (fun _ o hs => hs.tells_iff o) (fun _ o hs ho => hs.step o ho) calls s h

end CenterRun

/-- **The newest messages are kept** exactly as long as recycling spares them.  In every run of
`newMessage` and `deleteMessage`, all calls succeed with an id that is not stored and of the right
parity, after which the newest messages are found, exactly when no next id is stored and the message
with the smallest id of a full store is never one of the newest. -/
theorem newest_kept_iff (max_size : ℕ) (calls : List Call) :
    Run.AllSteps CenterRun.step CenterRun.Tells (CenterRun.start max_size) calls ↔
      Run.AllSteps CenterRun.step CenterRun.SparesNewest (CenterRun.start max_size) calls :=
  CenterRun.allSteps_tells_iff calls _ (CenterRun.inv_start max_size)

/-! ## After the ids have wrapped around -/

namespace CenterRun

/-- Announcements of one node only, `k` of them so far, in a store with room for two. -/
structure Announced (s : CenterRun) (k : ℕ) : Prop where
  inv : s.Inv
  size : s.ctr.size = 2
  next : s.ctr.currentId true = UInt32.ofNat (2 * k + 1)
  odd : ∀ (id : UInt32) m, (s.ctr.storage true)[id]? = some m → id.toNat % 2 = 1

variable {s : CenterRun} {k : ℕ}

/-- One more. -/
theorem Announced.step (h : s.Announced k) (hok : s.SparesNewest (.newMessage 0 .lsa)) :
    (s.step (.newMessage 0 .lsa)).Announced (k + 1) ∧
      ∃ m, m.messageId_ = UInt32.ofNat (2 * k + 1) ∧
        (s.step (.newMessage 0 .lsa)).messages true = some m :: s.messages true := by
  have hinv := h.inv.step _ hok
  have hnext := h.next
  have hpar := (h.inv.parity true).1
  have hroom : (LsMessageCenter.recycle s.ctr.size (s.ctr.storage LsMessageType.lsa.isUpdate)).contains
      (s.ctr.currentId LsMessageType.lsa.isUpdate) = false := LsMessageCenter.recycle_none hok.1
  obtain ⟨ctr, hnew, hsize, hown, -, hid, -⟩ := LsMessageCenter.newMessage_eq_some 0 hroom
  have hstep : s.step (.newMessage 0 .lsa) = ⟨ctr, Function.update s.messages true
      (some (s.ctr.created 0 .lsa) :: s.messages true)⟩ := by
    rw [CenterRun.step, hnew]
    rfl
  rw [hstep] at hinv ⊢
  refine ⟨⟨hinv, hsize.trans h.size, ?_, fun id m hm => ?_⟩, s.ctr.created 0 .lsa, hnext,
    Function.update_self true _ s.messages⟩
  · have hcur : ctr.currentId true = LsMessageCenter.nextId (s.ctr.currentId true) := hid
    have hodd : s.ctr.currentId true + 2 ≠ LS_INVALID_MESSAGE_ID := by
      intro h0
      have hadd : (s.ctr.currentId true + 2).toNat =
          ((s.ctr.currentId true).toNat + 2) % 2 ^ 32 := UInt32.toNat_add _ 2
      have hzero : LS_INVALID_MESSAGE_ID.toNat = 0 := rfl
      rw [h0, hzero] at hadd
      simp only [if_true] at hpar
      omega
    rw [hcur, LsMessageCenter.nextId, if_neg hodd, hnext, ← UInt32.toNat_inj, UInt32.toNat_add,
      UInt32.toNat_ofNat', UInt32.toNat_ofNat']
    have htwo : (2 : UInt32).toNat = 2 := rfl
    omega
  · have hstore : ctr.storage true = (LsMessageCenter.recycle s.ctr.size
        (s.ctr.storage true)).insert (s.ctr.currentId true) (s.ctr.created 0 .lsa) := hown
    simp only [hstore, getElem?_lsInsert] at hm
    split_ifs at hm with heq
    · rw [heq]
      exact hpar
    · exact h.odd id m (LsMessageCenter.getElem?_recycle hm)

theorem announced_start : (start 2).Announced 0 := by
  refine ⟨inv_start 2, rfl, rfl, fun id m hm => ?_⟩
  have hempty : (start 2).ctr.storage true = ∅ := rfl
  rw [hempty, Std.TreeMap.getElem?_emptyc] at hm
  cases hm

/-- All announcements. -/
theorem Announced.run (h : s.Announced k) (n : ℕ)
    (hok : Run.AllSteps CenterRun.step SparesNewest s (List.replicate n (.newMessage 0 .lsa))) :
    ((List.replicate n (.newMessage 0 .lsa)).foldl CenterRun.step s).Announced (k + n) := by
  induction n generalizing s k with
  | zero => exact h
  | succ n ih =>
    rw [List.replicate_succ] at hok ⊢
    rw [List.foldl_cons, show k + (n + 1) = k + 1 + n by omega]
    exact ih (h.step hok.1).1 hok.2

/-- When the ids have just wrapped around, the newest message is recycled next. -/
theorem Announced.not_sparesNewest (h : s.Announced (2 ^ 31 - 1)) (hok : Run.AllSteps CenterRun.step
    SparesNewest s (List.replicate 3 (.newMessage 0 .lsa))) : False := by
  obtain ⟨h1, h2, h3, -⟩ := hok
  obtain ⟨ha, m, hm, hmsgs⟩ := h.step h1
  obtain ⟨hb, m', hm', hmsgs'⟩ := ha.step h2
  generalize (s.step (.newMessage 0 .lsa)).step (.newMessage 0 .lsa) = t at hb hmsgs' h3
  rw [hmsgs] at hmsgs'
  have hstored' : (t.ctr.storage true)[m'.messageId_]? = some m' := by
    refine hb.inv.newest true m' ?_
    rw [hmsgs', hb.size]
    exact List.mem_cons_self
  have hstored : (t.ctr.storage true)[m.messageId_]? = some m := by
    refine hb.inv.newest true m ?_
    rw [hmsgs', hb.size]
    exact List.mem_cons_of_mem _ List.mem_cons_self
  have hlt : m'.messageId_.toNat = 1 ∧ m.messageId_.toNat = 2 ^ 32 - 1 := by
    rw [hm, hm', UInt32.toNat_ofNat', UInt32.toNat_ofNat']
    omega
  have hmem' := Std.TreeMap.mem_iff_isSome_getElem?.mpr (Option.isSome_iff_exists.mpr ⟨_, hstored'⟩)
  have hmem := Std.TreeMap.mem_iff_isSome_getElem?.mpr (Option.isSome_iff_exists.mpr ⟨_, hstored⟩)
  refine h3.2 ?_ m' ?_ (Std.TreeMap.minKey?_eq_some_iff_mem_and_forall.mpr ⟨hmem', fun k hk => ?_⟩)
  · -- both are there, so the store is full
    rw [hb.size]
    show 2 ≤ (t.ctr.storage true).size
    have hsub : [m'.messageId_, m.messageId_] ⊆ (t.ctr.storage true).keys := by
      intro k hk
      rw [Std.TreeMap.mem_keys]
      rcases List.mem_cons.mp hk with rfl | hk
      · exact hmem'
      · rw [List.mem_singleton.mp hk]
        exact hmem
    have hne : m'.messageId_ ≠ m.messageId_ := by
      intro heq
      rw [heq] at hlt
      omega
    have hnodup : [m'.messageId_, m.messageId_].Nodup := by simp [hne]
    have hlen := (hnodup.subperm hsub).length_le
    rwa [Std.TreeMap.length_keys] at hlen
  · rw [hb.size]
    show some m' ∈ (t.messages true).take 1
    rw [hmsgs']
    exact List.mem_cons_self
  · rw [Std.isLE_compare, UInt32.le_iff_toNat_le, hlt.1]
    obtain ⟨x, hx⟩ := Option.isSome_iff_exists.mp (Std.TreeMap.mem_iff_isSome_getElem?.mp hk)
    have hodd := hb.odd k x hx
    omega

end CenterRun

/-- With room for two messages, the second announcement after the wrap recycles the first. -/
theorem newest_recycled : ¬ Run.AllSteps CenterRun.step CenterRun.Tells (CenterRun.start 2)
    (List.replicate (2 ^ 31 + 2) (.newMessage 0 .lsa)) := by
  rw [CenterRun.allSteps_tells_iff _ _ (CenterRun.inv_start 2),
    show 2 ^ 31 + 2 = (2 ^ 31 - 1) + 3 by omega, List.replicate_add, Run.allSteps_append]
  rintro ⟨hfew, hrest⟩
  refine CenterRun.Announced.not_sparesNewest ?_ hrest
  have hrun := CenterRun.announced_start.run (2 ^ 31 - 1) hfew
  rwa [Nat.zero_add] at hrun

end Ns2.LinkState
