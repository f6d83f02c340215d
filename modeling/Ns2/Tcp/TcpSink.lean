import Ns2.Tcp.Acker

/-!
# TCP sinks

`TcpSink` and `DelAckSink` of `tcp/tcp-sink.cc`: an ACK for every packet, or for every second one
that arrives in sequence, with a timer for the one that is held back.  `double`s are exact
rationals.

* `TcpSink.updateTs`, `TcpSink.accept`, `TcpSink.ack`, `TcpSink.recv` — the sink that answers at once.
* `DelAckSink.recv`, `DelAckSink.timeout` — the sink that delays.
* `SinkRun`, `SinkRun.step` — a sink with the packets it has accepted and the ACKs it has sent.
* `Delayed` — the invariant of the sink that delays.
* `delayed_acks` — the ACKs follow the data, one packet behind at most.
* `congested` — what a receiver owes the sender after some packets.
* `marks_are_echoed` — no congestion mark is lost.
-/

namespace Ns2.Tcp

/-! ## Packets -/

/-- What a sink reads of a packet. -/
structure SinkPacket where
  seqno : ℕ
  ts : ℚ
  /-- Bytes of the packet. -/
  size : ℤ
  ect : Bool
  ce : Bool
  cong_action : Bool
  ecnecho : Bool
  deriving DecidableEq, Repr

namespace SinkPacket

/-- A mark of congestion. -/
def marked (p : SinkPacket) : Bool := p.ect && p.ce

/-- ECN is negotiated. -/
def negotiates (p : SinkPacket) : Bool := !p.ect && p.ecnecho

end SinkPacket

/-- What a sink writes into an ACK. -/
structure SinkAck where
  seqno : ℤ
  ts_echo : ℚ
  ecnecho : Bool
  ect : Bool
  deriving DecidableEq, Repr

/-! ## The sink that answers at once -/

/-- A sink, with the fields of its acker that `update` does not use. -/
structure TcpSink where
  acker_ : Acker
  /-- A mark was reported, and the sender has not answered. -/
  ecn_unacked_ : Bool
  ts_to_echo_ : ℚ
  last_ack_sent_ : ℤ
  /-- The packet that is held back. -/
  save_ : Option SinkPacket
  bytes_ : ℤ
  /-- Time of the last reset. -/
  lastreset_ : ℚ
  ts_echo_bugfix_ : Bool
  ts_echo_rfc1323_ : Bool
  /-- The ACK of a `SYN` may be marked. -/
  ecn_syn_ : Bool

/-- `Seqno`, the last packet in sequence. -/
def Acker.Seqno (a : Acker) : ℤ := a.next_ - 1

namespace TcpSink

/-- The constructor, with the bound variables. -/
def new (ts_echo_bugfix_ ts_echo_rfc1323_ ecn_syn_ : Bool) : TcpSink where
  acker_ := .new
  ecn_unacked_ := false
  ts_to_echo_ := 0
  last_ack_sent_ := 0
  save_ := none
  bytes_ := 0
  lastreset_ := 0
  ts_echo_bugfix_ := ts_echo_bugfix_
  ts_echo_rfc1323_ := ts_echo_rfc1323_
  ecn_syn_ := ecn_syn_

/-- `update_ts(seqno, ts, rfc1323)`. -/
def updateTs (s : TcpSink) (seqno : ℕ) (ts : ℚ) : TcpSink :=
  if s.ts_echo_rfc1323_ ∧ seqno = s.last_ack_sent_ + 1 then { s with ts_to_echo_ := ts }
  else if ts ≥ s.ts_to_echo_ ∧ seqno ≤ s.last_ack_sent_ + 1 then { s with ts_to_echo_ := ts }
  else s

/-- The part of `recv` before the ACK, the same for both sinks. -/
def accept (s : TcpSink) (pkt : SinkPacket) : Option TcpSink :=
  let s := s.updateTs pkt.seqno pkt.ts
  (s.acker_.update pkt.seqno pkt.size).map fun (r : Acker × ℤ) =>
    { s with acker_ := r.1, bytes_ := if r.2 ≠ 0 then s.bytes_ + r.2 else s.bytes_ }

/-- A packet has the property, this one or the one held back. -/
def either (s : TcpSink) (opkt : SinkPacket) (f : SinkPacket → Bool) : Bool := s.save_.any f || f opkt

/-- What `ack` makes of `ecn_unacked_`. -/
def unacked (s : TcpSink) (opkt : SinkPacket) : Bool :=
  let u := if s.either opkt SinkPacket.cong_action then false else s.ecn_unacked_
  if s.either opkt SinkPacket.marked then true else u

/-- `ack(opkt)`, with the ACK. -/
def ack (s : TcpSink) (opkt : SinkPacket) : TcpSink × SinkAck :=
  let negotiates := s.either opkt SinkPacket.negotiates
  ({ s with ecn_unacked_ := s.unacked opkt, last_ack_sent_ := s.acker_.Seqno },
    { seqno := s.acker_.Seqno
      ts_echo := if s.ts_echo_bugfix_ then s.ts_to_echo_ else opkt.ts
      ecnecho := if negotiates then true else if s.either opkt SinkPacket.ect then s.unacked opkt else false
      ect := negotiates && s.ecn_syn_ })

/-- `recv(pkt)`, with the ACK. -/
def recv (s : TcpSink) (pkt : SinkPacket) : Option (TcpSink × Option SinkAck) :=
  if pkt.ts < s.lastreset_ then some (s, none)
  else (s.accept pkt).map fun s => ((s.ack pkt).1, some (s.ack pkt).2)

end TcpSink

/-! ## The sink that delays -/

/-- A sink that delays its ACKs. -/
structure DelAckSink extends TcpSink where
  /-- `delay_timer_` is pending. -/
  delay_timer_ : Bool
  /-- A packet that fills a gap is acknowledged at once. -/
  RFC2581_immediate_ack_ : Bool
  /-- The `SYN` is acknowledged at once. -/
  SYN_immediate_ack_ : Bool

namespace DelAckSink

/-- The ACK is sent, and the packet held back is freed. -/
def ackNow (s : DelAckSink) (pkt : SinkPacket) : DelAckSink × SinkAck :=
  ({ s with toTcpSink := { (s.ack pkt).1 with save_ := none }, delay_timer_ := false }, (s.ack pkt).2)

/-- The packet is held back. -/
def delays (s : DelAckSink) (pkt : SinkPacket) : Bool :=
  ¬ s.delay_timer_ ∧ pkt.seqno = s.acker_.Seqno ∧
    ¬ (s.RFC2581_immediate_ack_ ∧ pkt.seqno < s.acker_.maxseen_) ∧
    ¬ (s.SYN_immediate_ack_ ∧ pkt.seqno = 0)

/-- `recv(pkt)`, with the ACK. -/
def recv (s : DelAckSink) (pkt : SinkPacket) : Option (DelAckSink × Option SinkAck) :=
  if pkt.ts < s.lastreset_ then some (s, none)
  else (s.accept pkt).map fun b =>
    let s := { s with toTcpSink := b }
    if s.delays pkt then ({ s with save_ := some pkt, delay_timer_ := true }, none)
    else ((s.ackNow pkt).1, some (s.ackNow pkt).2)

/-- `timeout`, of the delay timer, with the ACK. -/
def timeout (s : DelAckSink) : DelAckSink × Option SinkAck :=
  match s.save_ with
  | none => ({ s with delay_timer_ := false }, none)
  | some pkt => ((s.ackNow pkt).1, some (s.ackNow pkt).2)

end DelAckSink

/-! ## Runs -/

inductive SinkEvent where
  | recv (pkt : SinkPacket)
  /-- The delay timer goes off. -/
  | timeout

/-- A sink, the packets it has accepted, and the ACKs it has sent. -/
structure SinkRun where
  sink : DelAckSink
  packets : List SinkPacket
  acks : List SinkAck

namespace SinkRun

/-- A packet arrives. -/
def recv (r : SinkRun) (pkt : SinkPacket) : Option SinkRun :=
  (r.sink.recv pkt).map fun s =>
    { sink := s.1
      packets := if pkt.ts < r.sink.lastreset_ then r.packets else r.packets ++ [pkt]
      acks := r.acks ++ s.2.toList }

/-- One event; the timer only goes off when it is pending. -/
def step (r : SinkRun) : SinkEvent → Option SinkRun
  | .recv pkt => r.recv pkt
  | .timeout =>
    if r.sink.delay_timer_ then
      some { r with sink := r.sink.timeout.1, acks := r.acks ++ r.sink.timeout.2.toList }
    else some r

def run (r : SinkRun) (es : List SinkEvent) : Option SinkRun := es.foldlM step r

end SinkRun

/-- The constructor, with the bound variables. -/
def DelAckSink.new (ts_echo_bugfix_ ts_echo_rfc1323_ ecn_syn_ RFC2581_immediate_ack_
    SYN_immediate_ack_ : Bool) : DelAckSink where
  toTcpSink := .new ts_echo_bugfix_ ts_echo_rfc1323_ ecn_syn_
  delay_timer_ := false
  RFC2581_immediate_ack_ := RFC2581_immediate_ack_
  SYN_immediate_ack_ := SYN_immediate_ack_

/-- The beginning of a run. -/
def SinkRun.start (s : DelAckSink) : SinkRun := ⟨s, [], []⟩

/-- A packet of the present connection. -/
def SinkEvent.packet? : SinkEvent → Option SinkPacket
  | .recv pkt => if pkt.ts < 0 then none else some pkt
  | .timeout => none

/-! ## One packet -/

section

variable {size : ℕ → ℤ} {R : Finset ℕ}

namespace TcpSink

variable {s s' : TcpSink} {pkt : SinkPacket}

theorem updateTs_eq (s : TcpSink) (seqno : ℕ) (ts : ℚ) :
    ∃ t, s.updateTs seqno ts = { s with ts_to_echo_ := t } := by
  unfold updateTs
  split
  · exact ⟨ts, rfl⟩
  · split
    · exact ⟨ts, rfl⟩
    · exact ⟨s.ts_to_echo_, rfl⟩

/-- The packets that are in sequence have been received, and their bytes delivered. -/
structure InSequence (size : ℕ → ℤ) (R : Finset ℕ) (s : TcpSink) : Prop where
  exact : Acker.Exact size R s.acker_
  bytes : s.bytes_ = ∑ i ∈ Finset.range s.acker_.next_, size i

theorem inSequence_new (b₁ b₂ b₃ : Bool) : (new b₁ b₂ b₃).InSequence size ∅ :=
  ⟨Acker.exact_new size, (Finset.sum_range_zero size).symm⟩

/-- A packet is accepted; nothing else of the sink changes but the timestamp. -/
theorem accept_spec (hsize : ∀ i, 0 < size i) (h : s.InSequence size R)
    (hpkt : pkt.size = size pkt.seqno) :
    ∃ a t n, s.accept pkt = some { s with acker_ := a, ts_to_echo_ := t, bytes_ := n } ∧
      ({ s with acker_ := a, ts_to_echo_ := t, bytes_ := n } : TcpSink).InSequence size
        (insert pkt.seqno R) ∧
      s.acker_.next_ ≤ a.next_ := by
  obtain ⟨t, ht⟩ := updateTs_eq s pkt.seqno pkt.ts
  obtain ⟨a, ha, htaken⟩ := Acker.update_spec hsize h.exact pkt.seqno (hsize pkt.seqno)
  rw [Function.update_eq_self] at ha htaken
  have hsum := Finset.sum_range_add_sum_Ico size htaken.next_le
  have hbytes : (if ∑ i ∈ Finset.Ico s.acker_.next_ a.next_, size i ≠ 0 then
      s.bytes_ + ∑ i ∈ Finset.Ico s.acker_.next_ a.next_, size i else s.bytes_) =
        ∑ i ∈ Finset.range a.next_, size i := by
    rw [← hsum, ← h.bytes]
    split
    · rfl
    · rename_i hnone
      rw [not_not.mp hnone, add_zero]
  refine ⟨a, t, ∑ i ∈ Finset.range a.next_, size i, ?_, ⟨htaken.exact, rfl⟩, htaken.next_le⟩
  simp only [accept, ht, hpkt, ha, Option.map_some, hbytes]

end TcpSink

/-- A packet that is the last one in sequence moves the window by one at most. -/
theorem Acker.Exact.next_le_succ {a a' : Acker} {seq : ℕ} (h : Acker.Exact size R a)
    (h' : Acker.Exact size (insert seq R) a') (hlast : (seq : ℤ) = a'.Seqno) :
    a'.next_ ≤ a.next_ + 1 := by
  by_contra hfar
  have hmem : a.next_ ∈ insert seq R := by
    by_contra hmiss
    have := h'.point.2 hmiss
    omega
  unfold Acker.Seqno at hlast
  rcases Finset.mem_insert.mp hmem with heq | hmem
  · omega
  · exact h.point.1 hmem

end

/-! ## The invariant -/

/-- The number of the last ACK; the packet before the first one when there is none. -/
def lastAck (acks : List SinkAck) : ℤ := (acks.getLast?.map SinkAck.seqno).getD (-1)

@[simp] theorem lastAck_append (acks : List SinkAck) (k : SinkAck) : lastAck (acks ++ [k]) = k.seqno := by
  simp [lastAck]

namespace SinkRun

variable {size : ℕ → ℤ} {r r' : SinkRun} {pkt : SinkPacket}

/-- The numbers of the packets accepted. -/
def received (r : SinkRun) : Finset ℕ := (r.packets.map SinkPacket.seqno).toFinset

/-- The ACKs are one packet behind at most, and only while a packet is held back. -/
structure Delayed (size : ℕ → ℤ) (r : SinkRun) : Prop where
  inSequence : r.sink.InSequence size r.received
  timer : r.sink.delay_timer_ = r.sink.save_.isSome
  saved : ∀ p, r.sink.save_ = some p → r.packets.getLast? = some p ∧ r.sink.acker_.Seqno = p.seqno
  sorted : r.acks.Pairwise fun k k' => k.seqno ≤ k'.seqno
  le : ∀ k ∈ r.acks, k.seqno ≤ lastAck r.acks
  last_le : lastAck r.acks ≤ r.sink.acker_.Seqno
  behind : r.sink.acker_.Seqno ≤ lastAck r.acks + r.sink.delay_timer_.toNat
  start_le : -1 ≤ lastAck r.acks
  current : r.sink.lastreset_ = 0

theorem delayed_start (b₁ b₂ b₃ b₄ b₅ : Bool) :
    (start (.new b₁ b₂ b₃ b₄ b₅)).Delayed size where
  inSequence := TcpSink.inSequence_new b₁ b₂ b₃
  timer := rfl
  saved _ h := absurd h (Option.some_ne_none _).symm
  sorted := List.Pairwise.nil
  le _ hk := absurd hk List.not_mem_nil
  last_le := le_refl (-1 : ℤ)
  behind := le_refl (-1 + 0 : ℤ)
  start_le := le_rfl
  current := rfl

/-- An ACK is sent for all that is in sequence. -/
theorem Delayed.ackNow {s : DelAckSink} {packets : List SinkPacket} {acks : List SinkAck}
    (hseq : s.InSequence size (received ⟨s, packets, acks⟩)) (hcurrent : s.lastreset_ = 0)
    (hsorted : acks.Pairwise fun k k' => k.seqno ≤ k'.seqno)
    (hle : ∀ k ∈ acks, k.seqno ≤ s.acker_.Seqno) (pkt : SinkPacket) :
    Delayed size ⟨(s.ackNow pkt).1, packets, acks ++ [(s.ackNow pkt).2]⟩ where
  inSequence := ⟨hseq.exact, hseq.bytes⟩
  timer := rfl
  saved _ h := absurd h (Option.some_ne_none _).symm
  sorted := List.pairwise_append.mpr ⟨hsorted, List.pairwise_singleton _ _, fun k hk k' hk' => by
    rw [List.mem_singleton.mp hk']
    exact hle k hk⟩
  le k hk := by
    rw [lastAck_append]
    rcases List.mem_append.mp hk with hk | hk
    · exact hle k hk
    · rw [List.mem_singleton.mp hk]
  last_le := by
    rw [lastAck_append]
    exact le_rfl
  behind := by
    rw [lastAck_append]
    exact le_of_eq (add_zero _).symm
  start_le := by
    rw [lastAck_append]
    show -1 ≤ (s.acker_.next_ : ℤ) - 1
    omega
  current := hcurrent

/-- The last packet in sequence is held back. -/
theorem Delayed.hold (hcurrent : r.sink.lastreset_ = 0)
    (hseq : r.sink.InSequence size r.received)
    (hsorted : r.acks.Pairwise fun k k' => k.seqno ≤ k'.seqno)
    (hle : ∀ k ∈ r.acks, k.seqno ≤ lastAck r.acks) (hlast : lastAck r.acks ≤ r.sink.acker_.Seqno)
    (hbehind : r.sink.acker_.Seqno ≤ lastAck r.acks + 1) (hstart : -1 ≤ lastAck r.acks)
    (hpkt : r.packets.getLast? = some pkt) (hseqno : (pkt.seqno : ℤ) = r.sink.acker_.Seqno) :
    Delayed size { r with sink := { r.sink with save_ := some pkt, delay_timer_ := true } } where
  inSequence := ⟨hseq.exact, hseq.bytes⟩
  timer := rfl
  saved p hp := by
    obtain rfl := Option.some.inj hp
    exact ⟨hpkt, hseqno.symm⟩
  sorted := hsorted
  le := hle
  last_le := hlast
  behind := hbehind
  start_le := hstart
  current := hcurrent

/-- A packet arrives. -/
theorem Delayed.recv (hsize : ∀ i, 0 < size i) (h : r.Delayed size) (hpkt : pkt.size = size pkt.seqno) :
    ∃ r', r.recv pkt = some r' ∧ r'.Delayed size ∧
      r'.packets = r.packets ++ (SinkEvent.recv pkt).packet?.toList := by
  unfold SinkRun.recv DelAckSink.recv SinkEvent.packet?
  simp only [h.current]
  by_cases hold : pkt.ts < 0
  · refine ⟨r, ?_, h, by simp [hold]⟩
    simp [hold]
  · obtain ⟨a, t, n, hacc, hseq, hnext⟩ := TcpSink.accept_spec hsize h.inSequence hpkt
    have hreceived : received { r with packets := r.packets ++ [pkt] } = insert pkt.seqno r.received := by
      simp [received, Finset.union_comm]
    rw [← hreceived] at hseq
    have hle : ∀ k ∈ r.acks, k.seqno ≤ a.Seqno := fun k hk => by
      have h₁ := h.le k hk
      have h₂ := h.last_le
      unfold Acker.Seqno at h₂ ⊢
      omega
    simp only [if_neg hold, hacc, Option.map_some]
    split
    · -- no packet is held back, and this one is the last in sequence
      rename_i hdelays
      obtain ⟨htimer, hseqno, -, -⟩ := of_decide_eq_true hdelays
      have hidle : r.sink.delay_timer_ = false := by simpa using htimer
      refine ⟨_, rfl, ?_, rfl⟩
      have hone : a.next_ ≤ r.sink.acker_.next_ + 1 :=
        h.inSequence.exact.next_le_succ (hreceived ▸ hseq.exact) hseqno
      have hlast := h.last_le
      have hbehind := h.behind
      rw [hidle] at hbehind
      simp only [Option.toList_none, List.append_nil]
      refine Delayed.hold (r := ⟨{ r.sink with acker_ := a, ts_to_echo_ := t, bytes_ := n },
        r.packets ++ [pkt], r.acks⟩) h.current hseq h.sorted h.le ?_ ?_ h.start_le
        (by simp) hseqno
      · simp only [Acker.Seqno] at hlast ⊢
        omega
      · simp only [Acker.Seqno, Bool.toNat_false, Nat.cast_zero] at hbehind ⊢
        omega
    · refine ⟨_, rfl, ?_, rfl⟩
      exact Delayed.ackNow (s := { r.sink with acker_ := a, ts_to_echo_ := t, bytes_ := n })
        hseq h.current h.sorted hle pkt

/-- One event. -/
theorem Delayed.step {e : SinkEvent} (hsize : ∀ i, 0 < size i) (h : r.Delayed size)
    (he : ∀ pkt, e = .recv pkt → pkt.size = size pkt.seqno) :
    ∃ r', r.step e = some r' ∧ r'.Delayed size ∧ r'.packets = r.packets ++ e.packet?.toList := by
  cases e with
  | recv pkt => exact h.recv hsize (he pkt rfl)
  | timeout =>
    by_cases hpending : r.sink.delay_timer_ = true
    · obtain ⟨p, hp⟩ := Option.isSome_iff_exists.mp (h.timer.symm.trans hpending)
      refine ⟨_, if_pos hpending, ?_, (List.append_nil _).symm⟩
      simp only [DelAckSink.timeout, hp]
      exact Delayed.ackNow h.inSequence h.current h.sorted
        (fun k hk => (h.le k hk).trans h.last_le) p
    · exact ⟨r, if_neg hpending, h, (List.append_nil _).symm⟩

/-- The ACKs do not go back. -/
theorem Delayed.lastAck_le {e : SinkEvent} (h : r'.Delayed size) (hstep : r.step e = some r') :
    lastAck r.acks ≤ lastAck r'.acks := by
  have hmore : r.acks <+: r'.acks := by
    cases e with
    | recv pkt =>
      obtain ⟨s, -, rfl⟩ := Option.map_eq_some_iff.mp hstep
      exact List.prefix_append _ _
    | timeout =>
      simp only [SinkRun.step] at hstep
      split at hstep
      · cases hstep
        exact List.prefix_append _ _
      · cases hstep
        exact List.prefix_refl _
  cases hlast : r.acks.getLast? with
  | none =>
    rw [lastAck, hlast]
    exact h.start_le
  | some k =>
    rw [lastAck, hlast]
    exact h.le k (hmore.subset (List.mem_of_getLast? hlast))

/-- A run. -/
theorem Delayed.run {es : List SinkEvent} (hsize : ∀ i, 0 < size i) (h : r.Delayed size)
    (hes : ∀ pkt, SinkEvent.recv pkt ∈ es → pkt.size = size pkt.seqno) :
    ∃ r', r.run es = some r' ∧ r'.Delayed size ∧
      r'.packets = r.packets ++ es.filterMap SinkEvent.packet? := by
  induction es generalizing r with
  | nil => exact ⟨r, rfl, h, (List.append_nil _).symm⟩
  | cons e es ih =>
    obtain ⟨r₁, hstep, h₁, hpackets₁⟩ := h.step hsize fun pkt he => hes pkt (he ▸ List.mem_cons_self)
    obtain ⟨r', hrun, h', hpackets'⟩ := ih h₁ fun pkt hmem => hes pkt (List.mem_cons_of_mem _ hmem)
    refine ⟨r', ?_, h', ?_⟩
    · rw [SinkRun.run, List.foldlM_cons, hstep]
      exact hrun
    · rw [hpackets', hpackets₁, List.append_assoc]
      congr 1
      cases he : e.packet? <;> simp [he]

/-- **The ACKs follow the data.**  Packets arrive in any order, with any copies, and the delay timer
goes off at any time.  The sink returns.  What it has in sequence are the packets before the first
one missing, and it has delivered exactly their bytes.  Its ACKs never go back, and the last one is
behind the data by one packet at most: not at all unless the timer is pending, which it is exactly
while the packet that came last, and which is the last in sequence, is held back. -/
theorem delayed_acks (size : ℕ → ℤ) (hsize : ∀ i, 0 < size i) (b₁ b₂ b₃ b₄ b₅ : Bool)
    (es : List SinkEvent) (hes : ∀ pkt, SinkEvent.recv pkt ∈ es → pkt.size = size pkt.seqno) :
    ∃ r, (start (.new b₁ b₂ b₃ b₄ b₅)).run es = some r ∧
      r.packets = es.filterMap SinkEvent.packet? ∧
      IsLeast {n | n ∉ r.packets.map SinkPacket.seqno} r.sink.acker_.next_ ∧
      r.sink.bytes_ = ∑ i ∈ Finset.range r.sink.acker_.next_, size i ∧
      r.acks.Pairwise (fun k k' => k.seqno ≤ k'.seqno) ∧
      lastAck r.acks ≤ r.sink.acker_.Seqno ∧ r.sink.acker_.Seqno ≤ lastAck r.acks + 1 ∧
      (r.sink.delay_timer_ = false → lastAck r.acks = r.sink.acker_.Seqno) ∧
      (r.sink.delay_timer_ = true → ∃ p, r.sink.save_ = some p ∧ r.packets.getLast? = some p ∧
        r.sink.acker_.Seqno = p.seqno) := by
  obtain ⟨r, hrun, h, hpackets⟩ := (delayed_start b₁ b₂ b₃ b₄ b₅).run hsize hes
  have hbehind := h.behind
  have hlast := h.last_le
  refine ⟨r, hrun, hpackets, ?_, h.inSequence.bytes, h.sorted, hlast, ?_, fun hidle => ?_,
    fun hpending => ?_⟩
  · have hpoint := h.inSequence.exact.point
    simpa [received] using hpoint
  · have := Bool.toNat_le r.sink.delay_timer_
    omega
  · rw [hidle] at hbehind
    simp only [Bool.toNat_false, Nat.cast_zero, add_zero] at hbehind
    exact le_antisymm hlast hbehind
  · obtain ⟨p, hp⟩ := Option.isSome_iff_exists.mp (h.timer.symm.trans hpending)
    exact ⟨p, hp, h.saved p hp⟩

/-- A packet of 1000 bytes. -/
def plain (seqno : ℕ) (ce cong_action : Bool) : SinkPacket :=
  ⟨seqno, 1, 1000, true, ce, cong_action, false⟩

/-- Packets 0, 2, 1 and 3 arrive, the last of them with a timer that goes off after it. -/
theorem delayed_acks_reordered :
    ∃ r, (start (.new true false false true true)).run
        [.recv (plain 0 false false), .recv (plain 2 false false), .recv (plain 1 false false),
          .recv (plain 3 false false)] = some r ∧
      IsLeast {n | n ∉ r.packets.map SinkPacket.seqno} r.sink.acker_.next_ ∧
      r.sink.bytes_ = ∑ i ∈ Finset.range r.sink.acker_.next_, (fun _ => 1000) i ∧
      r.packets.map SinkPacket.seqno = [0, 2, 1, 3] := by
  obtain ⟨r, hrun, hpackets, hleast, hbytes, -⟩ := delayed_acks (fun _ => 1000) (fun _ => by decide)
    true false false true true [.recv (plain 0 false false), .recv (plain 2 false false),
      .recv (plain 1 false false), .recv (plain 3 false false)]
    (fun pkt hmem => by
      simp only [List.mem_cons, SinkEvent.recv.injEq, List.not_mem_nil, or_false] at hmem
      rcases hmem with rfl | rfl | rfl | rfl <;> rfl)
  refine ⟨r, hrun, hleast, hbytes, ?_⟩
  rw [hpackets]
  simp [SinkEvent.packet?, plain]

end SinkRun

/-! ## Marks -/

/-- What a receiver owes the sender after one more packet: a mark is reported until the sender says
that it has answered. -/
def SinkPacket.owes (owed : Bool) (p : SinkPacket) : Bool :=
  if p.marked then true else if p.cong_action then false else owed

/-- What a receiver owes the sender after some packets. -/
def congested (packets : List SinkPacket) : Bool := packets.foldl SinkPacket.owes false

@[simp] theorem congested_append_singleton (packets : List SinkPacket) (p : SinkPacket) :
    congested (packets ++ [p]) = p.owes (congested packets) := by
  simp [congested]

/-- The same packet once more changes nothing. -/
theorem SinkPacket.owes_owes (p : SinkPacket) (owed : Bool) : p.owes (p.owes owed) = p.owes owed := by
  unfold SinkPacket.owes
  split
  · rfl
  · split <;> rfl

namespace TcpSink

variable {s s' : TcpSink} {pkt : SinkPacket}

/-- With no packet held back, `ack` does what a receiver owes. -/
theorem unacked_eq (hsave : s.save_ = none) (pkt : SinkPacket) :
    s.unacked pkt = pkt.owes s.ecn_unacked_ := by
  simp [unacked, either, hsave, SinkPacket.owes]

/-- Nothing is forgotten when a packet is held back. -/
theorem unacked_of_congested {packets : List SinkPacket} {pkt : SinkPacket}
    (h : congested packets = true → s.ecn_unacked_ = true)
    (howes : congested (packets ++ s.save_.toList ++ [pkt]) = true) : s.unacked pkt = true := by
  cases hsave : s.save_ with
  | none =>
    rw [unacked_eq hsave]
    rw [hsave, Option.toList_none, List.append_nil, congested_append_singleton] at howes
    unfold SinkPacket.owes at howes ⊢
    split
    · rfl
    · rename_i hmark
      rw [if_neg hmark] at howes
      split
      · rename_i hcut
        rw [if_pos hcut] at howes
        exact howes
      · rename_i hcut
        rw [if_neg hcut] at howes
        exact h howes
  | some p =>
    rw [hsave, Option.toList_some, congested_append_singleton, congested_append_singleton] at howes
    unfold SinkPacket.owes at howes
    unfold unacked either
    simp only [hsave, Option.any_some]
    grind

theorem accept_eq (h : s.accept pkt = some s') :
    s'.save_ = s.save_ ∧ s'.ecn_unacked_ = s.ecn_unacked_ ∧ s'.lastreset_ = s.lastreset_ := by
  obtain ⟨t, ht⟩ := updateTs_eq s pkt.seqno pkt.ts
  unfold accept at h
  rw [ht] at h
  obtain ⟨r, -, rfl⟩ := Option.map_eq_some_iff.mp h
  exact ⟨rfl, rfl, rfl⟩

/-- An ACK for a packet of an ECN-capable sender reports what `ack` has found. -/
theorem ack_ecnecho (s : TcpSink) {pkt : SinkPacket} (hect : pkt.ect = true) :
    s.unacked pkt = true → (s.ack pkt).2.ecnecho = true := by
  intro hunacked
  simp only [ack, either, hect, Bool.or_true, if_true, hunacked]
  split <;> rfl

/-- The packets and the ACKs of a sink that answers at once. -/
def run (s : TcpSink) (packets : List SinkPacket) : Option (TcpSink × List SinkAck) :=
  packets.foldlM (fun r pkt => (r.1.recv pkt).map fun r' => (r'.1, r.2 ++ r'.2.toList)) (s, [])

end TcpSink

/-- The sink that answers at once owes what a receiver owes, and its ACKs say so. -/
theorem TcpSink.run_echoes {b₁ b₂ b₃ : Bool} {packets : List SinkPacket} {s : TcpSink}
    {acks : List SinkAck} (h : (TcpSink.new b₁ b₂ b₃).run packets = some (s, acks))
    (hts : ∀ p ∈ packets, 0 ≤ p.ts) :
    (s.save_ = none ∧ s.lastreset_ = 0 ∧ s.ecn_unacked_ = congested packets) ∧
      acks.length = packets.length ∧
      ∀ i p k, packets[i]? = some p → acks[i]? = some k →
        k.ecnecho = (p.negotiates || p.ect && congested (packets.take (i + 1))) := by
  induction packets using List.reverseRecOn generalizing s acks with
  | nil =>
    cases h
    exact ⟨⟨rfl, rfl, rfl⟩, rfl, fun i p k hp => absurd hp (by simp)⟩
  | append_singleton packets pkt ih =>
    unfold TcpSink.run at h
    rw [List.foldlM_append] at h
    obtain ⟨⟨s₁, acks₁⟩, hrun, h⟩ := Option.bind_eq_some_iff.mp h
    simp only [List.foldlM_cons, List.foldlM_nil, Option.bind_eq_bind, Option.pure_def] at h
    obtain ⟨r, h, hr⟩ := Option.bind_eq_some_iff.mp h
    obtain ⟨⟨s₂, k₂⟩, hrecv, rfl⟩ := Option.map_eq_some_iff.mp h
    obtain ⟨⟨hsave, hreset, howed⟩, hlen, hacks⟩ := ih hrun fun p hp =>
      hts p (List.mem_append_left _ hp)
    have hpkt : ¬ pkt.ts < s₁.lastreset_ := by
      rw [hreset]
      exact not_lt.mpr (hts pkt (by simp))
    unfold TcpSink.recv at hrecv
    rw [if_neg hpkt] at hrecv
    obtain ⟨s₃, hacc, heq⟩ := Option.map_eq_some_iff.mp hrecv
    obtain ⟨hsave₃, hunacked₃, hreset₃⟩ := accept_eq hacc
    simp only [Prod.mk.injEq] at heq
    obtain ⟨rfl, rfl⟩ := heq
    simp only [Option.some.injEq, Prod.mk.injEq, Option.toList_some] at hr
    obtain ⟨rfl, rfl⟩ := hr
    have hunacked : s₃.unacked pkt = congested (packets ++ [pkt]) := by
      rw [unacked_eq (hsave₃.trans hsave), hunacked₃, howed, congested_append_singleton]
    refine ⟨⟨hsave₃.trans hsave, hreset₃.trans hreset, hunacked⟩, by simp [hlen], fun i p k hp hk => ?_⟩
    rcases lt_trichotomy i packets.length with hlt | rfl | hgt
    · rw [List.getElem?_append_left hlt] at hp
      rw [List.getElem?_append_left (by omega)] at hk
      rw [List.take_append_of_le_length (by omega)]
      exact hacks i p k hp hk
    · rw [List.getElem?_append_right le_rfl, Nat.sub_self] at hp
      rw [List.getElem?_append_right (by omega), hlen, Nat.sub_self] at hk
      obtain rfl := Option.some.inj hp
      obtain rfl := Option.some.inj hk
      rw [List.take_of_length_le (by simp), ← hunacked]
      simp only [ack, either, hsave₃.trans hsave, Option.any_none, Bool.false_or]
      cases pkt.negotiates <;> cases pkt.ect <;> simp
    · rw [List.getElem?_eq_none (by simp; omega)] at hp
      exact absurd hp.symm (Option.some_ne_none p)

namespace SinkRun

variable {r r' : SinkRun}

/-- Apart from the packet held back, what is owed is known. -/
structure Echoes (r : SinkRun) : Prop where
  timer : r.sink.delay_timer_ = r.sink.save_.isSome
  owed : ∃ packets, r.packets = packets ++ r.sink.save_.toList ∧
    (congested packets = true → r.sink.ecn_unacked_ = true)

/-- An ACK for the packet that came last. -/
theorem echoes_ackNow {s : DelAckSink} {packets : List SinkPacket} {pkt : SinkPacket}
    (h : congested packets = true → s.unacked pkt = true) (acks : List SinkAck) :
    Echoes ⟨(s.ackNow pkt).1, packets, acks⟩ :=
  ⟨rfl, packets, (List.append_nil _).symm, h⟩

/-- An ACK that is sent reports what is owed. -/
def Reports (r r' : SinkRun) : Prop :=
  ∀ k p, r'.acks = r.acks ++ [k] → r'.packets.getLast? = some p → p.ect = true →
    congested r'.packets = true → k.ecnecho = true

theorem reports_none {s : DelAckSink} {packets : List SinkPacket} : Reports r ⟨s, packets, r.acks⟩ :=
  fun k _ hk => absurd (congrArg List.length hk) (by simp)

theorem reports_ackNow {s : DelAckSink} {packets : List SinkPacket} {pkt : SinkPacket}
    (hlast : packets.getLast? = some pkt) (h : congested packets = true → s.unacked pkt = true) :
    Reports r ⟨(s.ackNow pkt).1, packets, r.acks ++ [(s.ackNow pkt).2]⟩ := by
  intro k p hk hp hect howed
  obtain rfl := Option.some.inj (hlast.symm.trans hp)
  obtain rfl : (s.ackNow pkt).2 = k := by simpa using hk
  exact s.ack_ecnecho hect (h howed)

/-- One event. -/
theorem Echoes.step {e : SinkEvent} (h : r.Echoes) (hstep : r.step e = some r') :
    r'.Echoes ∧ r.Reports r' := by
  obtain ⟨packets, hpackets, howed⟩ := h.owed
  cases e with
  | recv pkt =>
    obtain ⟨s, hs, rfl⟩ := Option.map_eq_some_iff.mp hstep
    unfold DelAckSink.recv at hs
    by_cases hold : pkt.ts < r.sink.lastreset_
    · rw [if_pos hold] at hs
      cases hs
      simp only [if_pos hold, Option.toList_none, List.append_nil]
      exact ⟨⟨h.timer, packets, hpackets, howed⟩, reports_none⟩
    · rw [if_neg hold] at hs
      obtain ⟨b, hacc, rfl⟩ := Option.map_eq_some_iff.mp hs
      obtain ⟨hsave, hunacked, -⟩ := TcpSink.accept_eq hacc
      simp only [if_neg hold]
      split
      · -- the packet is held back, and none was before
        rename_i hdelays
        obtain ⟨htimer, -⟩ := of_decide_eq_true hdelays
        have hnone : r.sink.save_ = none := by
          have htimer' := h.timer
          cases hsave' : r.sink.save_ with
          | none => rfl
          | some p => simp [hsave', htimer'] at htimer
        rw [hnone, Option.toList_none, List.append_nil] at hpackets
        simp only [Option.toList_none, List.append_nil]
        refine ⟨⟨rfl, packets, by rw [hpackets]; rfl, fun hc => ?_⟩, reports_none⟩
        exact hunacked.trans (howed hc)
      · have hfound : congested (r.packets ++ [pkt]) = true → b.unacked pkt = true := fun hc => by
          rw [hpackets, ← hsave] at hc
          exact TcpSink.unacked_of_congested (fun hcong => hunacked.trans (howed hcong)) hc
        simp only [Option.toList_some]
        exact ⟨echoes_ackNow hfound _, reports_ackNow (by simp) hfound⟩
  | timeout =>
    simp only [SinkRun.step] at hstep
    split at hstep
    · cases hstep
      cases hsave : r.sink.save_ with
      | none =>
        simp only [DelAckSink.timeout, hsave, Option.toList_none, List.append_nil]
        exact ⟨⟨hsave ▸ rfl, packets, hpackets, howed⟩, reports_none⟩
      | some p =>
        rw [hsave, Option.toList_some] at hpackets
        have hfound : congested r.packets = true → r.sink.unacked p = true := fun hc => by
          refine TcpSink.unacked_of_congested howed ?_
          rw [hsave, Option.toList_some, congested_append_singleton, congested_append_singleton,
            SinkPacket.owes_owes, ← congested_append_singleton, ← hpackets]
          exact hc
        simp only [DelAckSink.timeout, hsave, Option.toList_some]
        exact ⟨echoes_ackNow hfound _, reports_ackNow (by simp [hpackets]) hfound⟩
    · cases hstep
      exact ⟨h, reports_none⟩

/-- A run. -/
theorem Echoes.run {es : List SinkEvent} (h : r.Echoes) (hrun : r.run es = some r') : r'.Echoes := by
  induction es generalizing r with
  | nil =>
    cases hrun
    exact h
  | cons e es ih =>
    rw [SinkRun.run, List.foldlM_cons] at hrun
    obtain ⟨r₁, hstep, hrest⟩ := Option.bind_eq_some_iff.mp hrun
    exact ih (h.step hstep).1 hrest

end SinkRun

/-- **No mark is lost.**  A receiver owes the sender an echo from a packet with a mark on until one
says that the window was reduced.  Every ACK of the sink that answers at once says of a packet that
is ECN-capable whether an echo is owed.  In every run of the sink that delays, an ACK that is sent
while an echo is owed carries one, if the packet that came last is ECN-capable: a mark on a packet
that is held back is not forgotten, whether another packet or the timer ends the delay. -/
theorem marks_are_echoed (b₁ b₂ b₃ b₄ b₅ : Bool) :
    (∀ packets s acks, (TcpSink.new b₁ b₂ b₃).run packets = some (s, acks) →
      (∀ p ∈ packets, 0 ≤ p.ts) → acks.length = packets.length ∧
        ∀ i p k, packets[i]? = some p → acks[i]? = some k →
          k.ecnecho = (p.negotiates || p.ect && congested (packets.take (i + 1)))) ∧
    ∀ es r e r' k p, (SinkRun.start (.new b₁ b₂ b₃ b₄ b₅)).run es = some r → r.step e = some r' →
      r'.acks = r.acks ++ [k] → r'.packets.getLast? = some p → p.ect = true →
        congested r'.packets = true → k.ecnecho = true := by
  refine ⟨fun packets s acks h hts => (TcpSink.run_echoes h hts).2, ?_⟩
  intro es r e r' k p hrun hstep hk hp hect hc
  have hstart : (SinkRun.start (.new b₁ b₂ b₃ b₄ b₅)).Echoes := 
    ⟨rfl, [], rfl, fun hc => absurd hc Bool.false_ne_true⟩
  exact ((hstart.run hrun).step hstep).2 k p hk hp hect hc

/-- A marked packet is held back; the next one brings the ACK, with the echo. -/
theorem marks_are_echoed_held :
    ∃ r r' k, (SinkRun.start (.new true false false true false)).run
        [.recv (SinkRun.plain 0 true false)] = some r ∧
      r.step (.recv (SinkRun.plain 1 false false)) = some r' ∧ r'.acks = r.acks ++ [k] ∧
      k.ecnecho = true := by
  have hall : ((SinkRun.start (.new true false false true false)).run
      [.recv (SinkRun.plain 0 true false)]).bind (fun r =>
        (r.step (.recv (SinkRun.plain 1 false false))).map fun r' =>
          (r.acks, r'.acks.length, r'.packets)) =
      some ([], 1, [SinkRun.plain 0 true false, SinkRun.plain 1 false false]) := by decide +kernel
  obtain ⟨r, hrun, h⟩ := Option.bind_eq_some_iff.mp hall
  obtain ⟨r', hstep, h⟩ := Option.map_eq_some_iff.mp h
  simp only [Prod.mk.injEq] at h
  obtain ⟨hnone, hone, hpackets⟩ := h
  obtain ⟨k, hk⟩ := List.length_eq_one_iff.mp hone
  have hacks : r'.acks = r.acks ++ [k] := by rw [hk, hnone]; rfl
  exact ⟨r, r', k, hrun, hstep, hacks, (marks_are_echoed true false false true false).2 _ r _ r' k
    (SinkRun.plain 1 false false) hrun hstep hacks (by rw [hpackets]; rfl) rfl (by rw [hpackets]; rfl)⟩

end Ns2.Tcp
