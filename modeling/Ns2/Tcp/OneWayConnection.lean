import Ns2.Tcp.OneWaySends
import Ns2.Tcp.TcpSink

/-!
# A one-way connection over a lossy network

A sender of `tcp/tcp.cc` and a sink of `tcp/tcp-sink.cc` that delays its ACKs.  A packet up to
`maxseq_` may arrive at any time and any number of times, and so may every ACK that was sent: the
network loses, repeats and reorders both.

* `OneWayConnection`, `OneWayConnection.step`, `OneWayConnection.run` — the two ends.
* `Safe` — the invariant.
* `one_way_reliable` — nothing is acknowledged that the application has not got.
-/

namespace Ns2.Tcp

structure OneWayConnection where
  sender : OneWaySender
  receiver : SinkRun

inductive OneWayConnectionEvent where
  /-- A packet arrives. -/
  | data (pkt : SinkPacket)
  /-- The delay timer of the sink goes off. -/
  | delay
  /-- The `i`-th ACK arrives. -/
  | ack (i : ℕ) (no_ts_ eln_ : Bool) (w : OneWayContext)
  | timeout (turns : List OneWayTurn)
  | timeoutNonrtx (turns : List OneWayTurn)
  | advanceby (delta : ℤ) (turns : List OneWayTurn)
  | sendmsg (nbytes : ℤ) (turns : List OneWayTurn)
  | persist (other : OneWaySender)

namespace OneWayConnection

/-- The sender alone takes a step. -/
def send (c : OneWayConnection) (e : OneWayEvent) : Option OneWayConnection :=
  (c.sender.step e).map fun a => { c with sender := a }

/-- One event; `none` when the sender aborts.  `size` gives the bytes of a packet. -/
def step (size : ℕ → ℤ) (c : OneWayConnection) : OneWayConnectionEvent → Option OneWayConnection
  | .data pkt =>
    if pkt.seqno ≤ c.sender.maxseq_ ∧ pkt.size = size pkt.seqno then
      (c.receiver.step (.recv pkt)).map fun r => { c with receiver := r }
    else some c
  | .delay => (c.receiver.step .timeout).map fun r => { c with receiver := r }
  | .ack i no_ts_ eln_ w =>
    match c.receiver.acks[i]? with
    | none => some c
    | some k => c.send (.recv ⟨k.seqno, k.ecnecho, false, no_ts_, eln_⟩ w)
  | .timeout turns => c.send (.timeout turns)
  | .timeoutNonrtx turns => c.send (.timeoutNonrtx turns)
  | .advanceby delta turns => c.send (.advanceby delta turns)
  | .sendmsg nbytes turns => c.send (.sendmsg nbytes turns)
  | .persist other => c.send (.persist other)

def run (size : ℕ → ℤ) (c : OneWayConnection) (es : List OneWayConnectionEvent) :
    Option OneWayConnection :=
  es.foldlM (step size) c

/-- A sender that has just been started, and a new sink. -/
def start (a : OneWaySender) (s : DelAckSink) : OneWayConnection := ⟨a, .start s⟩

/-! ## The invariant -/

variable {size : ℕ → ℤ} {c c' : OneWayConnection}

/-- The sink is not ahead of what was sent, nor the sender of what was acknowledged. -/
structure Safe (size : ℕ → ℤ) (c : OneWayConnection) : Prop where
  filled : c.sender.progress.Filled
  delayed : c.receiver.Delayed size
  sent : ∀ n ∈ c.receiver.received, (n : ℤ) ≤ c.sender.maxseq_
  acked : c.sender.last_ack_ ≤ lastAck c.receiver.acks

/-- What is in sequence was sent. -/
theorem Safe.seqno_le (h : Safe size c) : c.receiver.sink.acker_.Seqno ≤ c.sender.maxseq_ := by
  have hpoint := h.delayed.inSequence.exact.point
  have hstart : -1 ≤ c.sender.last_ack_ := h.filled.start
  have hack : c.sender.last_ack_ ≤ c.sender.maxseq_ := h.filled.ack
  unfold Acker.Seqno
  by_contra hlt
  have hmem : c.receiver.sink.acker_.next_ - 1 ∈ c.receiver.received := by
    by_contra hmiss
    have := hpoint.2 hmiss
    omega
  have := h.sent _ hmem
  omega

/-- An ACK that was sent is for packets that were sent. -/
theorem Safe.ack_le (h : Safe size c) {k : SinkAck} (hk : k ∈ c.receiver.acks) :
    k.seqno ≤ lastAck c.receiver.acks ∧ k.seqno ≤ c.sender.maxseq_ :=
  ⟨h.delayed.le k hk, (h.delayed.le k hk).trans (h.delayed.last_le.trans h.seqno_le)⟩

theorem safe_start {a b : OneWaySender} (h : a.start = some b) (b₁ b₂ b₃ b₄ b₅ : Bool) :
    Safe size (start b (.new b₁ b₂ b₃ b₄ b₅)) := by
  obtain ⟨hfilled, -, hlast⟩ := OneWaySender.start_filled h
  exact ⟨hfilled, SinkRun.delayed_start b₁ b₂ b₃ b₄ b₅, fun n hn => absurd hn (Finset.notMem_empty n),
    le_of_eq hlast⟩

/-- The sink takes a step. -/
theorem Safe.receive {e : SinkEvent} {r : SinkRun} (hsize : ∀ i, 0 < size i) (h : Safe size c)
    (he : ∀ pkt, e = .recv pkt → (pkt.seqno : ℤ) ≤ c.sender.maxseq_ ∧ pkt.size = size pkt.seqno)
    (hstep : c.receiver.step e = some r) : Safe size { c with receiver := r } := by
  obtain ⟨r', hr', hdelayed, hpackets⟩ := h.delayed.step hsize fun pkt hpkt => (he pkt hpkt).2
  obtain rfl := Option.some.inj (hr'.symm.trans hstep)
  refine ⟨h.filled, hdelayed, fun n hn => ?_, ?_⟩
  · rw [SinkRun.received, hpackets, List.map_append, List.toFinset_append] at hn
    rcases Finset.mem_union.mp hn with hn | hn
    · exact h.sent n hn
    · obtain ⟨pkt, hpkt, rfl⟩ := List.mem_map.mp (List.mem_toFinset.mp hn)
      have hpkt := Option.mem_toList.mp hpkt
      cases e with
      | recv q =>
        simp only [SinkEvent.packet?] at hpkt
        split at hpkt
        · exact absurd hpkt.symm (Option.some_ne_none pkt)
        · obtain rfl := Option.some.inj hpkt
          exact (he q rfl).1
      | timeout => exact absurd hpkt.symm (Option.some_ne_none pkt)
  · exact h.acked.trans (hdelayed.lastAck_le hstep)

/-- The sender takes a step that is no ACK. -/
theorem Safe.send {e : OneWayEvent} (h : Safe size c) (hstep : c.send e = some c')
    (he : ∀ a', c.sender.step e = some a' → Progress.Sends c.sender.progress a'.progress) :
    Safe size c' := by
  obtain ⟨a', ha', rfl⟩ := Option.map_eq_some_iff.mp hstep
  have hsends := he a' ha'
  refine ⟨hsends.filled h.filled, h.delayed, fun n hn => (h.sent n hn).trans hsends.maxseq, ?_⟩
  have hlast : a'.last_ack_ = c.sender.last_ack_ := hsends.last_ack
  exact hlast ▸ h.acked

/-- An ACK arrives. -/
theorem Safe.ack {i : ℕ} {b₁ b₂ : Bool} {w : OneWayContext} (h : Safe size c)
    (hstep : c.step size (.ack i b₁ b₂ w) = some c') :
    Safe size c' ∧ c'.receiver = c.receiver ∧
      ∀ k, c.receiver.acks[i]? = some k →
        c'.sender.last_ack_ = if w.stale then c.sender.last_ack_ else max c.sender.last_ack_ k.seqno := by
  unfold OneWayConnection.step at hstep
  cases hi : c.receiver.acks[i]? with
  | none =>
    simp only [hi] at hstep
    cases hstep
    exact ⟨h, rfl, fun k hk => absurd hk.symm (Option.some_ne_none k)⟩
  | some k =>
    simp only [hi] at hstep
    obtain ⟨a', ha', rfl⟩ := Option.map_eq_some_iff.mp hstep
    obtain ⟨hlast, hsent⟩ := h.ack_le (List.mem_of_getElem? hi)
    obtain ⟨hfilled, hmax, hack⟩ := OneWaySender.recv_progress h.filled hsent ha'
    refine ⟨⟨hfilled, h.delayed, fun n hn => (h.sent n hn).trans hmax, ?_⟩, rfl, fun k' hk' => ?_⟩
    · show a'.last_ack_ ≤ _
      rw [hack]
      split
      · exact h.acked
      · exact max_le h.acked hlast
    · obtain rfl := Option.some.inj hk'
      exact hack

/-- One event. -/
theorem Safe.step {e : OneWayConnectionEvent} (hsize : ∀ i, 0 < size i) (h : Safe size c)
    (hstep : c.step size e = some c') : Safe size c' := by
  cases e with
  | data pkt =>
    simp only [OneWayConnection.step] at hstep
    split at hstep
    · rename_i hpkt
      obtain ⟨r, hr, rfl⟩ := Option.map_eq_some_iff.mp hstep
      refine h.receive hsize (fun q hq => ?_) hr
      obtain rfl := SinkEvent.recv.inj hq
      exact hpkt
    · cases hstep
      exact h
  | delay =>
    obtain ⟨r, hr, rfl⟩ := Option.map_eq_some_iff.mp hstep
    exact h.receive hsize (fun q hq => SinkEvent.noConfusion hq) hr
  | ack i b₁ b₂ w => exact (h.ack hstep).1
  | timeout turns =>
    refine h.send hstep fun a' ha' => ?_
    cases ha'
    exact OneWaySender.sends_timeout _ turns
  | timeoutNonrtx turns =>
    refine h.send hstep fun a' ha' => ?_
    cases ha'
    exact OneWaySender.sends_sendMuch _ turns
  | advanceby delta turns =>
    refine h.send hstep fun a' ha' => ?_
    cases ha'
    exact OneWaySender.sends_advanceby _ delta turns
  | sendmsg nbytes turns =>
    refine h.send hstep fun a' ha' => ?_
    cases ha'
    exact OneWaySender.sends_sendmsg _ nbytes turns
  | persist other =>
    refine h.send hstep fun a' ha' => ?_
    cases ha'
    exact Progress.Sends.refl _

theorem Safe.run {es : List OneWayConnectionEvent} (hsize : ∀ i, 0 < size i) (h : Safe size c)
    (hrun : c.run size es = some c') : Safe size c' := by
  induction es generalizing c with
  | nil =>
    cases hrun
    exact h
  | cons e es ih =>
    rw [OneWayConnection.run, List.foldlM_cons] at hrun
    obtain ⟨c₁, hstep, hrest⟩ := Option.bind_eq_some_iff.mp hrun
    exact ih (h.step hsize hstep) hrest

/-- When all that was sent has arrived, it is in sequence. -/
theorem Safe.seqno_eq (h : Safe size c)
    (hall : ∀ n : ℕ, (n : ℤ) ≤ c.sender.maxseq_ → n ∈ c.receiver.received) :
    c.receiver.sink.acker_.Seqno = c.sender.maxseq_ := by
  refine le_antisymm h.seqno_le ?_
  have hmiss := h.delayed.inSequence.exact.point.1
  by_contra hlt
  refine hmiss (hall _ ?_)
  unfold Acker.Seqno at hlt
  omega

/-- **A one-way connection is reliable.**  However the network loses, repeats and reorders packets
and ACKs, and whatever timers go off: what the sink has in sequence are the packets before the first
one that has not arrived, it has delivered exactly their bytes, and they were sent with no gap.  The
sender takes nothing for acknowledged that was not delivered.  When the last ACK arrives, all is
acknowledged that the sink has acknowledged; and if all packets sent have arrived and none is held
back, all of them are. -/
theorem one_way_reliable (size : ℕ → ℤ) (hsize : ∀ i, 0 < size i) {a b : OneWaySender}
    (hstart : a.start = some b) (b₁ b₂ b₃ b₄ b₅ : Bool) {es : List OneWayConnectionEvent}
    {c : OneWayConnection} (hrun : (start b (.new b₁ b₂ b₃ b₄ b₅)).run size es = some c) :
    IsLeast {n | n ∉ c.receiver.packets.map SinkPacket.seqno} c.receiver.sink.acker_.next_ ∧
      c.receiver.sink.bytes_ = ∑ i ∈ Finset.range c.receiver.sink.acker_.next_, size i ∧
      -1 ≤ c.sender.highest_ack_ ∧ c.sender.highest_ack_ = c.sender.last_ack_ ∧
      c.sender.highest_ack_ < c.receiver.sink.acker_.next_ ∧
      c.receiver.sink.acker_.next_ ≤ c.sender.maxseq_ + 1 ∧ c.sender.t_seqno_ ≤ c.sender.maxseq_ + 1 ∧
      ∀ i no_ts_ eln_ w c', c.step size (.ack i no_ts_ eln_ w) = some c' →
        i + 1 = c.receiver.acks.length → w.stale = false →
        c'.sender.highest_ack_ = lastAck c.receiver.acks ∧
          (c.receiver.sink.delay_timer_ = false →
            (∀ n : ℕ, (n : ℤ) ≤ c.sender.maxseq_ → n ∈ c.receiver.packets.map SinkPacket.seqno) →
            c'.sender.highest_ack_ = c.sender.maxseq_) := by
  have h : Safe size c := (safe_start hstart b₁ b₂ b₃ b₄ b₅).run hsize hrun
  have hsame : c.sender.highest_ack_ = c.sender.last_ack_ := h.filled.same
  have hahead := h.seqno_le
  have hacked := h.acked.trans h.delayed.last_le
  unfold Acker.Seqno at hahead hacked
  refine ⟨?_, h.delayed.inSequence.bytes, hsame ▸ h.filled.start, hsame, by omega, by omega,
    h.filled.next, ?_⟩
  · have hpoint := h.delayed.inSequence.exact.point
    simpa [SinkRun.received] using hpoint
  · intro i no_ts_ eln_ w c' hstep hi hstale
    obtain ⟨h', hsink, hack⟩ := h.ack hstep
    obtain ⟨k, hk⟩ : ∃ k, c.receiver.acks[i]? = some k := ⟨_, List.getElem?_eq_getElem (by omega)⟩
    have hlast : lastAck c.receiver.acks = k.seqno := by
      rw [lastAck, List.getLast?_eq_getElem?, ← hi, Nat.add_sub_cancel, hk]
      rfl
    have hhigh : c'.sender.highest_ack_ = lastAck c.receiver.acks := by
      have hsame' : c'.sender.highest_ack_ = c'.sender.last_ack_ := h'.filled.same
      rw [hsame', hack k hk, hstale, if_neg Bool.false_ne_true, ← hlast]
      exact max_eq_right h.acked
    refine ⟨hhigh, fun hidle hall => ?_⟩
    have hseqno := h.seqno_eq fun n hn => List.mem_toFinset.mpr (hall n hn)
    have hbehind := h.delayed.behind
    rw [hidle] at hbehind
    rw [hhigh]
    refine le_antisymm (h.delayed.last_le.trans hseqno.le) (hseqno.ge.trans (hbehind.trans ?_))
    simp

/-- Nothing happens to the window while a packet is sent. -/
def quiet : OneWayTurn := ⟨false, none, false⟩

/-- A packet or two are sent when an ACK arrives. -/
def prompt : OneWayContext := ⟨false, none, 0, some 5, quiet, [quiet, quiet]⟩

/-- The `SYN` and its ACK arrive; then packets 2 and 1, in this order, and the ACK for both. -/
def reordered : List OneWayConnectionEvent :=
  [.advanceby 2 [quiet], .data (SinkRun.plain 0 false false), .ack 0 false false prompt,
    .data (SinkRun.plain 2 false false), .data (SinkRun.plain 1 false false), .ack 2 false false prompt]

/-- All three packets are acknowledged. -/
theorem one_way_reliable_reordered :
    ∃ b c, OneWaySender.default.start = some b ∧
      (start b (.new true false false true true)).run (fun _ => 1000) reordered = some c ∧
      c.sender.highest_ack_ = 2 ∧ c.sender.maxseq_ = 2 ∧
      c.sender.highest_ack_ < c.receiver.sink.acker_.next_ ∧ c.sender.t_seqno_ ≤ 3 := by
  have hall : OneWaySender.default.start.bind (fun b =>
      ((start b (.new true false false true true)).run (fun _ => 1000) reordered).map
        fun c => (c.sender.highest_ack_, c.sender.maxseq_)) = some (2, 2) := by decide +kernel
  obtain ⟨b, hb, h⟩ := Option.bind_eq_some_iff.mp hall
  obtain ⟨c, hrun, h⟩ := Option.map_eq_some_iff.mp h
  obtain ⟨hhigh, hmax⟩ := Prod.mk.inj h
  obtain ⟨-, -, -, -, hlt, -, hnext, -⟩ :=
    one_way_reliable (fun _ => 1000) (fun _ => by decide) hb true false false true true hrun
  exact ⟨b, c, hb, hrun, hhigh, hmax, hlt, by rwa [hmax] at hnext⟩

end OneWayConnection

end Ns2.Tcp
