import Ns2.Aodv.PacketQueue
import Ns2.Lib.Run

/-!
# What the send buffer does with its packets

The send buffer of `aodv/aodv_rqueue.cc` from its construction on, with an account of the packets
that were put in.

* `Sent`, `QueueRun` — the calls of `enque`, and what became of their packets.
* `QueueRun.call` — one operation, or the clock moving on.
* `QueueRun.Sound` — no packet is lost, none is returned late, and none out of order.
* `QueueRun.Ledger` — the same with the packets that were lost; every operation keeps it.
* `keeps_packets_iff` — nothing is lost exactly as long as no operation finds a packet that has timed
  out.
-/

namespace Ns2.Aodv

variable {Ptr : Type} [DecidableEq Ptr]

/-! ## Runs -/

/-- A call of `enque`: its number, the destination of the packet and the time. -/
structure Sent where
  no : ℕ
  dst : ℤ
  time : ℚ
  deriving DecidableEq

/-- An operation of the queue.  A packet that is put in has its destination set. -/
inductive QueueOp (Ptr : Type) where
  | enque (p : Ptr) (dst : ℤ)
  | deque
  | dequeFor (dst : ℤ)
  | find (dst : ℤ)
  | advance (dt : ℚ)

/-- The queue, the clock, and the account of the packets: for each packet the last call that put it
in, and the calls whose packets were returned, with the time, and dropped. -/
structure QueueRun (Ptr : Type) where
  queue : PacketQueue Ptr
  now : ℚ
  entry : Ptr → Sent
  sent : List Sent
  returned : List (Sent × ℚ)
  dropped : List Sent

namespace QueueRun

/-- A new queue. -/
def new (next_ : Ptr → Option Ptr) (ts_ : Ptr → ℚ) (daddr : Ptr → ℤ) (entry : Ptr → Sent) (now : ℚ) :
    QueueRun Ptr :=
  ⟨PacketQueue.new next_ ts_ daddr, now, entry, [], [], []⟩

/-- The caller sets the destination of a packet. -/
def address (w : QueueRun Ptr) (p : Ptr) (dst : ℤ) : PacketQueue Ptr :=
  { w.queue with daddr := Function.update w.queue.daddr p dst }

/-- The packet `p` was put in. -/
def enter (w : QueueRun Ptr) (p : Ptr) (dst : ℤ) : QueueRun Ptr :=
  let e : Sent := ⟨w.sent.length, dst, w.now⟩
  { w with
    entry := Function.update w.entry p e
    sent := w.sent ++ [e] }

/-- The packet was returned, if there is one. -/
def give (w : QueueRun Ptr) (p : Option Ptr) : QueueRun Ptr :=
  { w with returned := w.returned ++ p.toList.map fun p => (w.entry p, w.now) }

/-- The packet was dropped, if there is one. -/
def drop (w : QueueRun Ptr) (p : Option Ptr) : QueueRun Ptr :=
  { w with dropped := w.dropped ++ p.toList.map w.entry }

/-- The queue changes. -/
def withQueue (w : QueueRun Ptr) (s : PacketQueue Ptr) : QueueRun Ptr := { w with queue := s }

/-- One operation; it may fail. -/
def call (fuel : ℕ) (w : QueueRun Ptr) : QueueOp Ptr → Option (QueueRun Ptr)
  | .enque p dst => do
      let (d, s) ← (w.address p dst).enque fuel p w.now
      some (((w.drop (d.map Prod.fst)).enter p dst).withQueue s)
  | .deque => do
      let (p, s) ← w.queue.deque fuel w.now
      some ((w.give p).withQueue s)
  | .dequeFor dst => do
      let (p, s) ← w.queue.dequeFor fuel dst w.now
      some ((w.give p).withQueue s)
  | .find dst => do
      let _ ← w.queue.find fuel dst
      some w
  | .advance dt => some { w with now := w.now + dt }

/-- The state after an operation; one that fails changes nothing. -/
def step (fuel : ℕ) (w : QueueRun Ptr) (op : QueueOp Ptr) : QueueRun Ptr := (w.call fuel op).getD w

/-- A packet that is put in is not in the queue. -/
def Legal (w : QueueRun Ptr) : QueueOp Ptr → Prop
  | .enque p _ => p ∉ w.queue.packets
  | _ => True

/-- No packet in the queue has timed out, when the operation is one that purges. -/
def Prompt (w : QueueRun Ptr) : QueueOp Ptr → Prop
  | .find _ => True
  | .advance _ => True
  | _ => ∀ p ∈ w.queue.packets, w.now ≤ w.queue.ts_ p

instance (w : QueueRun Ptr) : ∀ op : QueueOp Ptr, Decidable (w.Legal op)
  | .enque p _ => inferInstanceAs (Decidable (p ∉ _))
  | .deque => .isTrue trivial
  | .dequeFor _ => .isTrue trivial
  | .find _ => .isTrue trivial
  | .advance _ => .isTrue trivial

instance (w : QueueRun Ptr) : ∀ op : QueueOp Ptr, Decidable (w.Prompt op)
  | .enque _ _ => inferInstanceAs (Decidable (∀ p ∈ w.queue.packets, _ ≤ _))
  | .deque => inferInstanceAs (Decidable (∀ p ∈ w.queue.packets, _ ≤ _))
  | .dequeFor _ => inferInstanceAs (Decidable (∀ p ∈ w.queue.packets, _ ≤ _))
  | .find _ => .isTrue trivial
  | .advance _ => .isTrue trivial

/-- The list from `head_` to `tail_` has `len_` packets, at most `limit_`; every packet that was put
in is either in the list, or returned, or dropped; none was returned that was older than the timeout;
the packets of one destination were returned in the order in which they were put in. -/
structure Sound (w : QueueRun Ptr) : Prop where
  accounted : ∃ xs, w.queue.Holds xs ∧ w.queue.len_ ≤ w.queue.limit_ ∧
    (xs.map w.entry ++ w.returned.map Prod.fst ++ w.dropped).Perm w.sent
  distinct : w.sent.Nodup
  age : ∀ r ∈ w.returned, r.2 - r.1.time ≤ AODV_RTQ_TIMEOUT
  order : w.returned.Pairwise fun a b => a.1.dst = b.1.dst → a.1.no < b.1.no

/-- The operation does not fail, and leaves a queue that is sound. -/
def Tells (fuel : ℕ) (w : QueueRun Ptr) (op : QueueOp Ptr) : Prop :=
  ∃ w', w.call fuel op = some w' ∧ w'.Sound

/-! ## The account -/

/-- The account of a queue that holds `xs`, with the packets that were lost. -/
structure Ledger (w : QueueRun Ptr) (xs : List Ptr) (lost : List Sent) : Prop where
  limit : w.queue.limit_ = AODV_RTQ_MAX_LEN
  timeout : w.queue.timeout_ = AODV_RTQ_TIMEOUT
  length_le : xs.length ≤ AODV_RTQ_MAX_LEN
  accounted : (xs.map w.entry ++ w.returned.map Prod.fst ++ w.dropped ++ lost).Perm w.sent
  numbered : w.sent.map Sent.no = List.range w.sent.length
  stamped : ∀ p ∈ xs, w.queue.ts_ p = (w.entry p).time + AODV_RTQ_TIMEOUT
  addressed : ∀ p ∈ xs, w.queue.daddr p = (w.entry p).dst
  fifo : xs.Pairwise fun p q => (w.entry p).no < (w.entry q).no
  age : ∀ r ∈ w.returned, r.2 - r.1.time ≤ AODV_RTQ_TIMEOUT
  order : w.returned.Pairwise fun a b => a.1.dst = b.1.dst → a.1.no < b.1.no
  ahead : ∀ r ∈ w.returned, ∀ p ∈ xs, r.1.dst = (w.entry p).dst → r.1.no < (w.entry p).no

/-- The calls whose packets have timed out. -/
def gone (w : QueueRun Ptr) (xs : List Ptr) : List Sent :=
  (xs.filter fun p => !decide (w.now ≤ w.queue.ts_ p)).map w.entry

namespace Ledger

variable {w : QueueRun Ptr} {xs ys A B : List Ptr} {lost more : List Sent} {p : Ptr}

omit [DecidableEq Ptr] in
/-- Only the headers and the configuration of the queue matter. -/
theorem withQueue {s : PacketQueue Ptr} (h : w.Ledger xs lost) (hs : PacketQueue.Same w.queue s) :
    (w.withQueue s).Ledger xs lost :=
  ⟨hs.limit_.trans h.limit, hs.timeout_.trans h.timeout, h.length_le, h.accounted, h.numbered,
    fun p hp => (congrFun hs.ts_ p).trans (h.stamped p hp),
    fun p hp => (congrFun hs.daddr p).trans (h.addressed p hp), h.fifo, h.age, h.order, h.ahead⟩

omit [DecidableEq Ptr] in
/-- Packets leave the list, and nobody gets them. -/
theorem lose (h : w.Ledger xs lost) (hys : ys.Sublist xs)
    (hperm : (ys.map w.entry ++ more).Perm (xs.map w.entry)) : w.Ledger ys (lost ++ more) where
  limit := h.limit
  timeout := h.timeout
  length_le := hys.length_le.trans h.length_le
  accounted := by
    refine List.Perm.trans (List.perm_iff_count.2 fun e => ?_) h.accounted
    have he := hperm.count_eq e
    simp only [List.count_append] at he ⊢
    omega
  numbered := h.numbered
  stamped p hp := h.stamped p (hys.subset hp)
  addressed p hp := h.addressed p (hys.subset hp)
  fifo := h.fifo.sublist hys
  age := h.age
  order := h.order
  ahead r hr p hp := h.ahead r hr p (hys.subset hp)

omit [DecidableEq Ptr] in
/-- The packets that have timed out are purged. -/
theorem purge (h : w.Ledger xs lost) :
    w.Ledger (w.queue.alive xs w.now) (lost ++ w.gone xs) := by
  refine h.lose (w.queue.alive_sublist xs w.now) ?_
  rw [gone, PacketQueue.alive, ← List.map_append]
  exact (List.filter_append_perm _ xs).map w.entry

omit [DecidableEq Ptr] in
/-- The first packet of a destination is returned, if it has not timed out. -/
theorem give (h : w.Ledger (A ++ p :: B) lost) (hA : ∀ x ∈ A, w.queue.daddr x ≠ w.queue.daddr p)
    (hp : w.now ≤ w.queue.ts_ p) : (w.give (some p)).Ledger (A ++ B) lost := by
  have hsub : (A ++ B).Sublist (A ++ p :: B) := (List.sublist_cons_self p B).append_left A
  have hmem : p ∈ A ++ p :: B := by simp
  refine ⟨h.limit, h.timeout, hsub.length_le.trans h.length_le, ?_, h.numbered,
    fun x hx => h.stamped x (hsub.subset hx), fun x hx => h.addressed x (hsub.subset hx),
    h.fifo.sublist hsub, ?_, ?_, ?_⟩
  · refine List.Perm.trans (List.perm_iff_count.2 fun e => ?_) h.accounted
    simp only [QueueRun.give, Option.toList_some, List.map_cons, List.map_nil, List.map_append,
      List.count_append, List.count_cons, List.count_nil]
    omega
  · intro r hr
    rcases List.mem_append.1 hr with hr | hr
    · exact h.age r hr
    · obtain rfl : r = (w.entry p, w.now) := by simpa using hr
      have hts := h.stamped p hmem
      simp only
      linarith
  · refine List.pairwise_append.2 ⟨h.order, List.pairwise_singleton _ _, ?_⟩
    intro a ha b hb hdst
    obtain rfl : b = (w.entry p, w.now) := by simpa using hb
    exact h.ahead a ha p hmem hdst
  · intro r hr x hx hdst
    rcases List.mem_append.1 hr with hr | hr
    · exact h.ahead r hr x (hsub.subset hx) hdst
    · obtain rfl : r = (w.entry p, w.now) := by simpa using hr
      -- the packets of the destination are all behind this one
      have hxB : x ∈ B := by
        refine (List.mem_append.1 hx).resolve_left fun hxA => hA x hxA ?_
        rw [h.addressed x (hsub.subset hx), h.addressed p hmem]
        exact hdst.symm
      exact (List.pairwise_cons.1 (List.pairwise_append.1 h.fifo).2.1).1 x hxB

omit [DecidableEq Ptr] in
/-- The first packet is dropped. -/
theorem drop (h : w.Ledger (p :: B) lost) : (w.drop (some p)).Ledger B lost := by
  have hsub : B.Sublist (p :: B) := List.sublist_cons_self p B
  refine ⟨h.limit, h.timeout, hsub.length_le.trans h.length_le, ?_, h.numbered,
    fun x hx => h.stamped x (hsub.subset hx), fun x hx => h.addressed x (hsub.subset hx),
    h.fifo.sublist hsub, h.age, h.order, fun r hr x hx => h.ahead r hr x (hsub.subset hx)⟩
  refine List.Perm.trans (List.perm_iff_count.2 fun e => ?_) h.accounted
  simp only [QueueRun.drop, Option.toList_some, List.map_cons, List.map_nil, List.count_append,
    List.count_cons, List.count_nil]
  omega

omit [DecidableEq Ptr] in
/-- The calls are numbered below the next number. -/
theorem no_lt (h : w.Ledger xs lost) {e : Sent} (he : e ∈ w.sent) : e.no < w.sent.length := by
  have hmem := List.mem_map_of_mem (f := Sent.no) he
  rwa [h.numbered, List.mem_range] at hmem

omit [DecidableEq Ptr] in
theorem entry_mem (h : w.Ledger xs lost) (hp : p ∈ xs) : w.entry p ∈ w.sent := by
  refine h.accounted.subset ?_
  simp only [List.mem_append]
  exact Or.inl (Or.inl (Or.inl (List.mem_map_of_mem hp)))

omit [DecidableEq Ptr] in
theorem returned_mem (h : w.Ledger xs lost) {r : Sent × ℚ} (hr : r ∈ w.returned) : r.1 ∈ w.sent := by
  refine h.accounted.subset ?_
  simp only [List.mem_append]
  exact Or.inl (Or.inl (Or.inr (List.mem_map_of_mem hr)))

/-- A packet is put in behind the others. -/
theorem enter (h : w.Ledger xs lost) (hp : p ∉ xs) (hlen : xs.length < AODV_RTQ_MAX_LEN) (dst : ℤ) :
    ((w.enter p dst).withQueue
      { w.address p dst with
        ts_ := Function.update w.queue.ts_ p (w.now + w.queue.timeout_) }).Ledger (xs ++ [p]) lost := by
  have hne : ∀ x ∈ xs, x ≠ p := fun x hx hxp => hp (hxp ▸ hx)
  -- the entries of the other packets are the ones they had
  have hentry : ∀ x ∈ xs, (w.enter p dst).entry x = w.entry x :=
    fun x hx => Function.update_of_ne (hne x hx) _ _
  have hnew : (w.enter p dst).entry p = ⟨w.sent.length, dst, w.now⟩ := Function.update_self _ _ _
  have hmap : xs.map (w.enter p dst).entry = xs.map w.entry := List.map_congr_left hentry
  refine ⟨h.limit, h.timeout, ?_, ?_, ?_, ?_, ?_, ?_, h.age, h.order, ?_⟩
  · rw [List.length_append, List.length_singleton]
    exact hlen
  · change (List.map (w.enter p dst).entry (xs ++ [p]) ++ _ ++ _ ++ _).Perm (w.sent ++ [_])
    rw [List.map_append, hmap, List.map_singleton, hnew]
    refine List.perm_iff_count.2 fun e => ?_
    have he := h.accounted.count_eq e
    simp only [List.count_append] at he ⊢
    change _ + List.count e (w.returned.map Prod.fst) + List.count e w.dropped + _ = _
    omega
  · change (w.sent ++ [_]).map Sent.no = List.range (w.sent ++ [_]).length
    rw [List.map_append, h.numbered, List.length_append, List.length_singleton, List.range_succ]
    rfl
  · refine List.forall_mem_append.2 ⟨fun x hx => ?_, List.forall_mem_singleton.2 ?_⟩
    · change Function.update w.queue.ts_ p _ x = ((w.enter p dst).entry x).time + _
      rw [Function.update_of_ne (hne x hx), hentry x hx, h.stamped x hx]
    · change Function.update w.queue.ts_ p _ p = ((w.enter p dst).entry p).time + _
      rw [Function.update_self, hnew, h.timeout]
  · refine List.forall_mem_append.2 ⟨fun x hx => ?_, List.forall_mem_singleton.2 ?_⟩
    · change Function.update w.queue.daddr p dst x = ((w.enter p dst).entry x).dst
      rw [Function.update_of_ne (hne x hx), hentry x hx, h.addressed x hx]
    · change Function.update w.queue.daddr p dst p = ((w.enter p dst).entry p).dst
      rw [Function.update_self, hnew]
  · change (xs ++ [p]).Pairwise fun a b => ((w.enter p dst).entry a).no < ((w.enter p dst).entry b).no
    refine List.pairwise_append.2 ⟨?_, List.pairwise_singleton _ _, ?_⟩
    · refine h.fifo.imp_of_mem fun ha hb hab => ?_
      rwa [hentry _ ha, hentry _ hb]
    · intro x hx y hy
      rw [List.mem_singleton.1 hy, hentry x hx, hnew]
      exact h.no_lt (h.entry_mem hx)
  · intro r hr
    change ∀ x ∈ xs ++ [p], _ = ((w.enter p dst).entry x).dst → _ < ((w.enter p dst).entry x).no
    refine List.forall_mem_append.2 ⟨fun x hx => ?_, List.forall_mem_singleton.2 fun _ => ?_⟩
    · rw [hentry x hx]
      exact h.ahead r hr x hx
    · rw [hnew]
      exact h.no_lt (h.returned_mem hr)

omit [DecidableEq Ptr] in
theorem give_none (h : w.Ledger xs lost) : (w.give none).Ledger xs lost := by
  have hw : w.give none = w := by simp [QueueRun.give]
  rwa [hw]

omit [DecidableEq Ptr] in
theorem drop_none (h : w.Ledger xs lost) : (w.drop none).Ledger xs lost := by
  have hw : w.drop none = w := by simp [QueueRun.drop]
  rwa [hw]

omit [DecidableEq Ptr] in
/-- `deque()` returns the first packet. -/
theorem give_head (h : w.Ledger xs lost) (halive : ∀ p ∈ xs, w.now ≤ w.queue.ts_ p) :
    (w.give xs.head?).Ledger xs.tail lost := by
  cases xs with
  | nil => exact h.give_none
  | cons p xs => exact h.give (A := []) (fun x hx => nomatch hx) (halive p List.mem_cons_self)

omit [DecidableEq Ptr] in
/-- `deque(dst)` returns the first packet for the destination. -/
theorem give_find (h : w.Ledger xs lost) (halive : ∀ p ∈ xs, w.now ≤ w.queue.ts_ p) (dst : ℤ) :
    (w.give (xs.find? fun p => w.queue.daddr p = dst)).Ledger
      (xs.eraseP fun p => w.queue.daddr p = dst) lost := by
  cases hfind : xs.find? fun p => w.queue.daddr p = dst with
  | none =>
      rw [List.eraseP_of_forall_not (by simpa using List.find?_eq_none.1 hfind)]
      exact h.give_none
  | some p =>
      obtain ⟨hp, A, B, rfl, hA⟩ := List.find?_eq_some_iff_append.1 hfind
      have hp' : w.queue.daddr p = dst := by simpa using hp
      have hA' : ∀ x ∈ A, w.queue.daddr x ≠ dst := by simpa using hA
      have herase : (A ++ p :: B).eraseP (fun p => w.queue.daddr p = dst) = A ++ B :=
        Linked.eraseP_middle (by simpa using hA') (by simpa using hp')
      rw [herase]
      exact h.give (by rwa [hp']) (halive p (by simp))

omit [DecidableEq Ptr] in
/-- A full queue drops its first packet. -/
theorem drop_kept (h : w.Ledger xs lost) :
    (w.drop ((w.queue.dropped xs w.now).map Prod.fst)).Ledger (w.queue.kept xs) lost := by
  rw [PacketQueue.dropped, PacketQueue.kept]
  by_cases hfull : (xs.length : ℤ) = w.queue.limit_
  · rw [if_pos hfull, if_pos hfull]
    cases xs with
    | nil => exact h.drop_none
    | cons p xs => exact h.drop
  · rw [if_neg hfull, if_neg hfull]
    exact h.drop_none

end Ledger

/-! ## One operation -/

/-- The queue holds `xs`, and the account is right but for the packets that were lost. -/
structure Inv (w : QueueRun Ptr) (xs : List Ptr) (lost : List Sent) : Prop where
  holds : w.queue.Holds xs
  ledger : w.Ledger xs lost

/-- The packets that an operation loses. -/
def losses (w : QueueRun Ptr) (xs : List Ptr) : QueueOp Ptr → List Sent
  | .find _ => []
  | .advance _ => []
  | _ => w.gone xs

variable {w : QueueRun Ptr} {xs : List Ptr} {lost : List Sent} {op : QueueOp Ptr} {fuel : ℕ}

/-- **One operation.**  It does not fail, and what it loses are the packets that have timed out. -/
theorem call_inv (h : w.Inv xs lost) (hl : w.Legal op) (hf : AODV_RTQ_MAX_LEN < fuel) :
    ∃ w' ys, w.call fuel op = some w' ∧ w'.Inv ys (lost ++ w.losses xs op) := by
  have hlen : xs.length < fuel := h.ledger.length_le.trans_lt hf
  have halive : ∀ p ∈ w.queue.alive xs w.now, w.now ≤ w.queue.ts_ p :=
    fun p hp => by simpa using (List.mem_filter.1 hp).2
  cases op with
  | enque p dst =>
      have hp : p ∉ xs := by
        rw [← h.holds.packets]
        exact hl
      have hlimit : (w.address p dst).limit_ = AODV_RTQ_MAX_LEN := h.ledger.limit
      have hroom : (0 : ℤ) < AODV_RTQ_MAX_LEN := by decide
      have hle : (xs.length : ℤ) ≤ (w.address p dst).limit_ := by
        rw [hlimit]
        exact_mod_cast h.ledger.length_le
      have haddress : (w.address p dst).Holds xs := ⟨h.holds.slist, h.holds.tail, h.holds.len⟩
      obtain ⟨t, ht, hholds, hsame⟩ := haddress.enque hp (by rwa [hlimit]) hle
        (by rw [hlimit]; exact_mod_cast hf) w.now
      refine ⟨((w.drop _).enter p dst).withQueue t, _, by rw [call, ht]; rfl, hholds, ?_⟩
      -- the purged packets, then the one that is dropped, then the new one
      have hkept : ∀ x ∈ w.queue.kept (w.queue.alive xs w.now), x ∈ xs := fun x hx =>
        (w.queue.alive_sublist xs w.now).subset ((w.queue.kept_sublist _).subset hx)
      have hlt : (w.queue.kept (w.queue.alive xs w.now)).length < AODV_RTQ_MAX_LEN := by
        have hlt : ((w.queue.kept (w.queue.alive xs w.now)).length : ℤ) < w.queue.limit_ :=
          PacketQueue.kept_length_lt (by rw [h.ledger.limit]; exact hroom)
            (by rw [h.ledger.limit]; exact_mod_cast h.ledger.purge.length_le)
        rw [h.ledger.limit] at hlt
        exact_mod_cast hlt
      exact (h.ledger.purge.drop_kept.enter (fun hx => hp (hkept p hx)) hlt dst).withQueue hsame
  | deque =>
      obtain ⟨t, ht, hholds, hsame⟩ := h.holds.deque hlen w.now
      refine ⟨(w.give (w.queue.alive xs w.now).head?).withQueue t, _, by rw [call, ht]; rfl, hholds, ?_⟩
      exact (h.ledger.purge.give_head halive).withQueue hsame
  | dequeFor dst =>
      obtain ⟨t, ht, hholds, hsame⟩ := h.holds.dequeFor hlen dst w.now
      refine ⟨(w.give _).withQueue t, _, by rw [call, ht]; rfl, hholds, ?_⟩
      exact (h.ledger.purge.give_find halive dst).withQueue hsame
  | find dst =>
      refine ⟨w, xs, by rw [call, h.holds.find hlen]; rfl, ?_⟩
      rw [losses, List.append_nil]
      exact h
  | advance dt =>
      refine ⟨_, xs, rfl, ?_⟩
      rw [losses, List.append_nil]
      exact ⟨h.holds, { h.ledger with }⟩

omit [DecidableEq Ptr] in
/-- The account is right exactly if nothing was lost. -/
theorem Inv.sound_iff (h : w.Inv xs lost) : w.Sound ↔ lost = [] := by
  constructor
  · intro hs
    obtain ⟨ys, hholds, -, hperm⟩ := hs.accounted
    rw [hholds.slist.unique h.holds.slist] at hperm
    have hlen := (hperm.trans h.ledger.accounted.symm).length_eq
    simp only [List.length_append] at hlen
    exact List.length_eq_zero_iff.1 (by omega)
  · rintro rfl
    have hperm := h.ledger.accounted
    rw [List.append_nil] at hperm
    refine ⟨⟨xs, h.holds, ?_, hperm⟩, ?_, h.ledger.age, h.ledger.order⟩
    · rw [h.holds.len, h.ledger.limit]
      exact_mod_cast h.ledger.length_le
    · have hnumbered : (w.sent.map Sent.no).Nodup := h.ledger.numbered ▸ List.nodup_range
      exact hnumbered.of_map

omit [DecidableEq Ptr] in
/-- An operation loses nothing exactly if no packet in its way has timed out. -/
theorem losses_eq_nil_iff (h : w.queue.Holds xs) : w.losses xs op = [] ↔ w.Prompt op := by
  have hgone : w.gone xs = [] ↔ ∀ p ∈ w.queue.packets, w.now ≤ w.queue.ts_ p := by
    rw [gone, List.map_eq_nil_iff, List.filter_eq_nil_iff, h.packets]
    simp
  cases op with
  | enque p dst => exact hgone
  | deque => exact hgone
  | dequeFor dst => exact hgone
  | find dst => exact iff_of_true rfl trivial
  | advance dt => exact iff_of_true rfl trivial

/-! ## Whole runs -/

omit [DecidableEq Ptr] in
theorem new_inv (next_ : Ptr → Option Ptr) (ts_ : Ptr → ℚ) (daddr : Ptr → ℤ) (entry : Ptr → Sent)
    (now : ℚ) : (new next_ ts_ daddr entry now).Inv [] [] where
  holds := ⟨Linked.IsSList.nil, rfl, rfl⟩
  ledger := by constructor <;> simp [new, PacketQueue.new]

variable (next_ : Ptr → Option Ptr) (ts_ : Ptr → ℚ) (daddr : Ptr → ℤ) (entry : Ptr → Sent) (now : ℚ)

/-- **What holds in every run**, also where packets are lost: no operation fails, the list from
`head_` to `tail_` has `len_` packets and at most `limit_`, no packet is returned late, and none out
of order. -/
theorem safe_run (hf : AODV_RTQ_MAX_LEN < fuel) (ops : List (QueueOp Ptr))
    (hlegal : Run.AllSteps (step fuel) Legal (new next_ ts_ daddr entry now) ops) :
    Run.AllSteps (step fuel) (fun w op => ∃ w' ys, w.call fuel op = some w' ∧ w'.queue.Holds ys ∧
        w'.queue.len_ ≤ w'.queue.limit_ ∧
        (∀ r ∈ w'.returned, r.2 - r.1.time ≤ AODV_RTQ_TIMEOUT) ∧
        w'.returned.Pairwise fun a b => a.1.dst = b.1.dst → a.1.no < b.1.no)
      (new next_ ts_ daddr entry now) ops := by
  refine Run.allSteps_imp (I := fun w : QueueRun Ptr => ∃ xs lost, w.Inv xs lost) ?_ ?_ ops _
    ⟨[], [], new_inv next_ ts_ daddr entry now⟩ hlegal
  · rintro w op ⟨xs, lost, h⟩ hl
    obtain ⟨w', ys, hcall, h'⟩ := call_inv h hl hf
    refine ⟨w', ys, hcall, h'.holds, ?_, h'.ledger.age, h'.ledger.order⟩
    rw [h'.holds.len, h'.ledger.limit]
    exact_mod_cast h'.ledger.length_le
  · rintro w op ⟨xs, lost, h⟩ hl
    obtain ⟨w', ys, hcall, h'⟩ := call_inv h hl hf
    exact ⟨ys, _, by rw [step, hcall]; exact h'⟩

/-- **The buffer loses nothing exactly as long as nothing times out in it.**  In a run from a new
queue every operation leaves a queue that is sound if and only if none that purges, that is `enque`,
`deque()` and `deque(dst)`, is called while a packet in the queue has timed out. -/
theorem keeps_packets_iff (hf : AODV_RTQ_MAX_LEN < fuel) (ops : List (QueueOp Ptr))
    (hlegal : Run.AllSteps (step fuel) Legal (new next_ ts_ daddr entry now) ops) :
    Run.AllSteps (step fuel) (Tells fuel) (new next_ ts_ daddr entry now) ops ↔
      Run.AllSteps (step fuel) Prompt (new next_ ts_ daddr entry now) ops := by
  refine Run.allSteps_congr_legal (I := fun w : QueueRun Ptr => ∃ xs, w.Inv xs []) ?_ ?_ ops _
    ⟨[], new_inv next_ ts_ daddr entry now⟩ hlegal
  · rintro w op ⟨xs, h⟩ hl
    obtain ⟨w', ys, hcall, h'⟩ := call_inv h hl hf
    rw [List.nil_append] at h'
    rw [← losses_eq_nil_iff h.holds, ← h'.sound_iff, Tells, hcall]
    simp
  · rintro w op ⟨xs, h⟩ hl hprompt
    obtain ⟨w', ys, hcall, h'⟩ := call_inv h hl hf
    rw [List.nil_append, (losses_eq_nil_iff h.holds).2 hprompt] at h'
    exact ⟨ys, by rw [step, hcall]; exact h'⟩

/-- A new queue at time 0. -/
def start : QueueRun ℕ := new (fun _ => none) (fun _ => 0) (fun _ => 0) (fun _ => ⟨0, 0, 0⟩) 0

/-- Two packets that are returned in time. -/
theorem keeps_two :
    Run.AllSteps (step 65) (Tells 65) start
      [.enque 1 5, .enque 2 5, .advance 30, .dequeFor 5, .find 5, .deque] :=
  (keeps_packets_iff _ _ _ _ _ (by decide) _ (by decide)).2 (by decide +kernel)

/-- A packet that waits for 31 seconds is neither in the queue then, nor returned, nor dropped. -/
theorem loses_one :
    ¬ ∀ ops : List (QueueOp ℕ), Run.AllSteps (step 65) Legal start ops →
      Run.AllSteps (step 65) (Tells 65) start ops := by
  intro hall
  obtain ⟨-, -, ⟨w', hcall, hsound⟩, -⟩ := hall [.enque 1 5, .advance 31, .deque] (by decide)
  have hleft : (((start.step 65 (.enque 1 5)).step 65 (.advance 31)).call 65 .deque).map
      (fun w => (w.queue.head_, w.returned, w.dropped, w.sent.length)) = some (none, [], [], 1) := by
    decide +kernel
  rw [hcall, Option.map_some, Option.some_inj, Prod.mk.injEq, Prod.mk.injEq, Prod.mk.injEq] at hleft
  obtain ⟨hhead, hreturned, hdropped, hsent⟩ := hleft
  obtain ⟨xs, hholds, -, hperm⟩ := hsound.accounted
  have hxs : xs = [] := List.head?_eq_none_iff.1 (hholds.slist.head.symm.trans hhead)
  have hlen := hperm.length_eq
  rw [hxs, hreturned, hdropped, hsent] at hlen
  simp at hlen

end QueueRun

end Ns2.Aodv
