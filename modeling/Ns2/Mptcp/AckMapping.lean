import Ns2.Mptcp.Connection
import Ns2.Tcp.ReassemblyMask

/-!
# There is a mapping for `rcv_nxt_`

`rcv_nxt_` is always the end of a packet that has arrived, and under the condition of `Connection` a
mapping for this end has come with the packet or earlier.  A mapping is erased only when `rcv_nxt_` has
passed it.

* `Receiver` — the invariant of a subflow that receives.
* `Takes` — input that keeps it, and forgets nothing that was got; one lemma for each part of `recv`.
* `Good` — a packet on its way to a subflow.
* `Sound` — the invariant of the connection; `step_sound`.
* `getack_finds` — **`mptcp_recv_getack` finds a mapping**; `getack_aborts` — not after a `FIN`.
-/

namespace Ns2.Mptcp

open Ns2.Tcp
open ReassemblyQueue (Without Added)

/-! ## Flags -/

theorem and_fin (f : TcpFlag) : f &&& thFin = 0 ↔ f % 2 = 0 := by
  rw [show thFin = 2 ^ 0 from rfl, Nat.and_two_pow, Nat.toNat_testBit]
  simp

theorem and_syn (f : TcpFlag) : f &&& thSyn = 0 ↔ f / 2 % 2 = 0 := by
  rw [show thSyn = 2 ^ 1 from rfl, Nat.and_two_pow, Nat.toNat_testBit]
  simp

theorem and_ack (f : TcpFlag) : f &&& thAck = 0 ↔ f / 16 % 2 = 0 := by
  rw [show thAck = 2 ^ 4 from rfl, Nat.and_two_pow, Nat.toNat_testBit]
  simp

theorem has_eq_false {p : Packet} {f : TcpFlag} : p.has f = false ↔ p.flags &&& f = 0 := by
  simp [Packet.has]

theorem has_eq_true {p : Packet} {f : TcpFlag} : p.has f = true ↔ p.flags &&& f ≠ 0 := by
  simp [Packet.has]

/-! ## The reassembly queue -/

/-- Where `rcv_nxt_` goes when a segment is put into the queue. -/
theorem reass_ends {q q' : ReassemblyQueue} {xs : List Ptr} {s e : ℤ} {g flags : TcpFlag}
    {state_ : TcpState} (hq : q.Holds xs) (ha : q.AheadOf xs) (hs : q.rcv_nxt_ ≤ s) (hse : s < e)
    (h : q.reass state_ s e g = some (q', flags)) :
    ∃ xs', q'.Holds xs' ∧ q'.AheadOf xs' ∧ q.rcv_nxt_ ≤ q'.rcv_nxt_ ∧
      (∀ x ∈ xs', q'.endseq_ x = e ∨ ∃ y ∈ xs, q.endseq_ y = q'.endseq_ x) ∧
      (q'.rcv_nxt_ = q.rcv_nxt_ ∨ q'.rcv_nxt_ = e ∨ ∃ y ∈ xs, q.endseq_ y = q'.rcv_nxt_) := by
  obtain ⟨q₁, flag, xs₁, hadd, hwith⟩ := ReassemblyQueue.add_spec (g := g) (f := 0) hq hse
  have hadded := hwith.toAdded
  have hreach : q.Reaches e := Or.inl (hs.trans hse.le)
  have hle := (hadded.rcv_nxt_le_iff hse hq ha).mpr hreach
  have hahead := hadded.aheadOf hq ha hreach
  have hpoint : q₁.rcv_nxt_ = q.rcv_nxt_ ∨ q₁.rcv_nxt_ = e ∨
      ∃ y ∈ xs, q.endseq_ y = q₁.rcv_nxt_ := by
    rcases hadded.point with ⟨heq, -⟩ | ⟨b, hb, -, hpoint⟩
    · exact Or.inl heq
    · rw [ReassemblyQueue.PointAt] at hpoint
      split_ifs at hpoint
      · rw [hpoint]
        exact Or.inr (hadded.endseq_eq hb)
      · exact Or.inl hpoint
  unfold ReassemblyQueue.reass at h
  rw [if_neg (fun heq => hse.ne heq.1), hadd, Option.bind_some] at h
  dsimp only at h
  have hsame : some (q₁, (0 : TcpFlag)) = some (q', flags) → ∃ xs', q'.Holds xs' ∧ q'.AheadOf xs' ∧
      q.rcv_nxt_ ≤ q'.rcv_nxt_ ∧
      (∀ x ∈ xs', q'.endseq_ x = e ∨ ∃ y ∈ xs, q.endseq_ y = q'.endseq_ x) ∧
      (q'.rcv_nxt_ = q.rcv_nxt_ ∨ q'.rcv_nxt_ = e ∨ ∃ y ∈ xs, q.endseq_ y = q'.rcv_nxt_) := by
    intro heq
    obtain ⟨rfl, -⟩ := Prod.mk.inj (Option.some.inj heq)
    exact ⟨xs₁, hadded.holds, hahead, hle, fun x hx => hadded.endseq_eq hx, hpoint⟩
  split_ifs at h
  · exact hsame h
  · exact hsame h
  · obtain ⟨⟨q₂, g₂⟩, hclear, heq⟩ := Option.map_eq_some_iff.mp h
    obtain ⟨rfl, -⟩ := Prod.mk.inj heq
    obtain ⟨q₃, g₃, xs₂, h1, h2, -, h4, h5, -⟩ :=
      ReassemblyQueue.clearto_spec q₁.rcv_nxt_ hadded.holds
    obtain ⟨rfl, -⟩ := Prod.mk.inj (Option.some.inj (h1.symm.trans hclear))
    refine ⟨xs₂, h2, fun x hx => ?_, by rwa [h4], fun x hx => ?_, by rwa [h4]⟩
    · rw [h4]
      exact (h5 x hx).2.2.le
    · rw [(h5 x hx).2.1]
      exact hadded.endseq_eq (h5 x hx).1

/-! ## The receiver -/

namespace MpFullTcpAgent

/-- The states before a `FIN` has been taken. -/
def BeforeFin (s : TcpState) : Prop := s ≠ .closeWait ∧ s ≠ .closing ∧ s ≠ .lastAck

instance (s : TcpState) : Decidable (BeforeFin s) := inferInstanceAs (Decidable (_ ∧ _ ∧ _))

/-- A subflow that has taken no `FIN`: `rcv_nxt_`, and the ends of the blocks that wait, have mappings. -/
structure Receiver (t : MpFullTcpAgent) : Prop where
  state : BeforeFin t.state_
  queue : ∃ xs, t.rq_.Holds xs ∧ t.rq_.AheadOf xs ∧ (∀ x ∈ xs, t.Got (t.rq_.endseq_ x)) ∧
    (t.state_.haveRcvdSyn = false → xs = [])
  nofin : t.rq_.Without thFin
  idle : t.state_.haveRcvdSyn = false → t.rcv_nxt_ = -1
  point : t.state_.haveRcvdSyn = true →
    1 ≤ t.rcv_nxt_ ∧ (t.rcv_nxt_ = 1 ∨ ∃ m ∈ t.mptcp_recv_dsnmap_, m.Meets t.rcv_nxt_)

/-- Input keeps the invariant, and what was got; what it sends has neither data nor `SYN`. -/
structure Takes (t t' : MpFullTcpAgent) : Prop where
  receiver : Receiver t'
  got : ∀ e, t.Got e → t'.Got e
  answer : ∃ l, t'.sent = t.sent ++ l ∧ ∀ p ∈ l, p.datalen = 0 ∧ p.has thSyn = false

variable {t t' t'' : MpFullTcpAgent} {core core' : Core} {p : Packet} {seqno ackno datalen size : ℤ}
  {pflags tiflags hflags : TcpFlag}

theorem Takes.trans (h : Takes t t') (h' : Takes t' t'') : Takes t t'' := by
  obtain ⟨l, hl, hp⟩ := h.answer
  obtain ⟨l', hl', hp'⟩ := h'.answer
  refine ⟨h'.receiver, fun e he => h'.got e (h.got e he), l ++ l', ?_, fun p hmem => ?_⟩
  · rw [hl', hl, List.append_assoc]
  · exact (List.mem_append.mp hmem).elim (hp p) (hp' p)

theorem got_congr (hrq : t'.rq_ = t.rq_) (hmap : t'.mptcp_recv_dsnmap_ = t.mptcp_recv_dsnmap_) (e : ℤ) :
    t'.Got e ↔ t.Got e := by
  rw [Got, Got, rcv_nxt_, rcv_nxt_, hrq, hmap]

theorem Takes.of_sent (hrec : Receiver t') (hgot : ∀ e, t.Got e → t'.Got e) (hsent : t'.sent = t.sent) :
    Takes t t' :=
  ⟨hrec, hgot, [], by rw [hsent, List.append_nil], by simp⟩

/-- A receiver with an empty queue. -/
theorem Receiver.of_empty (hstate : BeforeFin t.state_) (hq : t.rq_.Holds [])
    (hnofin : t.rq_.Without thFin) (hidle : t.state_.haveRcvdSyn = false → t.rcv_nxt_ = -1)
    (hpoint : t.state_.haveRcvdSyn = true →
      1 ≤ t.rcv_nxt_ ∧ (t.rcv_nxt_ = 1 ∨ ∃ m ∈ t.mptcp_recv_dsnmap_, m.Meets t.rcv_nxt_)) : Receiver t :=
  ⟨hstate, ⟨[], hq, by simp [ReassemblyQueue.AheadOf], by simp, fun _ => rfl⟩, hnofin, hidle, hpoint⟩

/-- Other mappings, among them those for `rcv_nxt_`. -/
theorem Receiver.withMappings (h : Receiver t) (hrq : t'.rq_ = t.rq_) (hstate : t'.state_ = t.state_)
    (hgot : ∀ e, t.Got e → t'.Got e)
    (hkeep : t.state_.haveRcvdSyn = true →
      ∀ m ∈ t.mptcp_recv_dsnmap_, m.Meets t.rcv_nxt_ → m ∈ t'.mptcp_recv_dsnmap_) : Receiver t' := by
  have hnxt : t'.rcv_nxt_ = t.rcv_nxt_ := congrArg ReassemblyQueue.rcv_nxt_ hrq
  obtain ⟨xs, h1, h2, h3, h4⟩ := h.queue
  refine ⟨by rw [hstate]; exact h.state, ⟨xs, ?_⟩, by rw [hrq]; exact h.nofin, ?_, ?_⟩
  · rw [hrq, hstate]
    exact ⟨h1, h2, fun x hx => hgot _ (h3 x hx), h4⟩
  · rw [hstate, hnxt]
    exact h.idle
  · rw [hstate, hnxt]
    intro hsyn
    obtain ⟨hone, hpoint⟩ := h.point hsyn
    exact ⟨hone, hpoint.imp_right fun ⟨m, hm, hmeets⟩ => ⟨m, hkeep hsyn m hm hmeets, hmeets⟩⟩

/-- Another state of the same kind. -/
theorem Receiver.withState (h : Receiver t) (hrq : t'.rq_ = t.rq_)
    (hmap : t'.mptcp_recv_dsnmap_ = t.mptcp_recv_dsnmap_)
    (hsyn : t'.state_.haveRcvdSyn = t.state_.haveRcvdSyn)
    (hstate : BeforeFin t'.state_) : Receiver t' := by
  have hnxt : t'.rcv_nxt_ = t.rcv_nxt_ := congrArg ReassemblyQueue.rcv_nxt_ hrq
  obtain ⟨xs, h1, h2, h3, h4⟩ := h.queue
  refine ⟨hstate, ⟨xs, ?_⟩, ?_, ?_, ?_⟩
  · rw [hrq, hsyn]
    exact ⟨h1, h2, fun x hx => (got_congr hrq hmap _).mpr (h3 x hx), h4⟩
  · rw [hrq]
    exact h.nofin
  · rw [hsyn, hnxt]
    exact h.idle
  · rw [hsyn, hnxt, hmap]
    exact h.point

/-- A change of something else. -/
theorem Receiver.takes_of_eq (h : Receiver t) (hrq : t'.rq_ = t.rq_)
    (hmap : t'.mptcp_recv_dsnmap_ = t.mptcp_recv_dsnmap_) (hsent : t'.sent = t.sent)
    (hsyn : t'.state_.haveRcvdSyn = t.state_.haveRcvdSyn)
    (hstate : BeforeFin t'.state_) : Takes t t' :=
  Takes.of_sent (h.withState hrq hmap hsyn hstate) (fun e he => (got_congr hrq hmap e).mpr he) hsent

/-- **A call of `mptcp_recv_getack`** erases only what `rcv_nxt_` has passed. -/
theorem Receiver.getack (h : Receiver t) (hopt : AckOption t t' core core' ackno pflags)
    (hstate : t'.state_ = t.state_) (hrq : t'.rq_ = t.rq_) (hle : ackno = 0 ∨ ackno = t.rcv_nxt_) :
    Receiver t' ∧ ∀ e, t.Got e → t'.Got e := by
  have hnxt : t'.rcv_nxt_ = t.rcv_nxt_ := congrArg ReassemblyQueue.rcv_nxt_ hrq
  have hsame : t'.mptcp_recv_dsnmap_ = t.mptcp_recv_dsnmap_ →
      Receiver t' ∧ ∀ e, t.Got e → t'.Got e := fun hmap =>
    ⟨h.withState hrq hmap (by rw [hstate]) (by rw [hstate]; exact h.state),
      fun e he => (got_congr hrq hmap e).mpr he⟩
  rcases hopt with ⟨-, -, hmap⟩ | ⟨-, -, -, hmap⟩ | ⟨-, -, m, hscan, -⟩
  · exact hsame hmap
  · exact hsame hmap
  · have hkeep := (scan_eq_some hscan).2.2
    have hlow : -1 ≤ t.rcv_nxt_ ∧ (t.state_.haveRcvdSyn = true → 1 ≤ t.rcv_nxt_) := by
      cases hsyn : t.state_.haveRcvdSyn with
      | false => exact ⟨(h.idle hsyn).ge, fun hne => by cases hne⟩
      | true =>
        have := (h.point hsyn).1
        exact ⟨by omega, fun _ => this⟩
    have hgot : ∀ e, t.Got e → t'.Got e := by
      rintro e (hle' | ⟨x, hx, hmeets⟩)
      · exact Or.inl (hnxt ▸ hle')
      · rcases hkeep x hx with hx | hstop
        · exact Or.inr ⟨x, hx, hmeets⟩
        · have := hmeets.2
          refine Or.inl ?_
          rw [hnxt]
          omega
    refine ⟨h.withMappings hrq hstate hgot fun hsyn x hx hmeets => ?_, hgot⟩
    rcases hkeep x hx with hx | hstop
    · exact hx
    · have := hmeets.2
      have := hlow.2 hsyn
      omega

/-- A packet without data. -/
theorem Receiver.sendpacket (h : Receiver t) (hsyn : pflags &&& thSyn = 0)
    (hle : ackno = 0 ∨ ackno = t.rcv_nxt_)
    (hs : t.sendpacket core seqno ackno pflags 0 = some (t', core')) : Takes t t' := by
  obtain ⟨p, hout, -, hlen, hflags, -, -, -, hopt⟩ := sendpacket_spec hs
  obtain ⟨hrec, hgot⟩ := h.getack hopt hout.frame.state hout.frame.rq hle
  refine ⟨hrec, hgot, [p], hout.sent, fun p' hp' => ?_⟩
  rw [List.mem_singleton.mp hp']
  exact ⟨hlen, has_eq_false.mpr (by rw [hflags]; exact hsyn)⟩

theorem Takes.sendpacket (hs : t'.sendpacket core seqno ackno pflags 0 = some (t'', core'))
    (h : Takes t t') (hsyn : pflags &&& thSyn = 0) (hle : ackno = 0 ∨ ackno = t'.rcv_nxt_) : Takes t t'' :=
  h.trans (h.receiver.sendpacket hsyn hle hs)

/-! ## The parts of `recv` -/

/-- A segment that may be taken: it is trimmed, there is a mapping for its end, and no `FIN`. -/
structure Fresh (t : MpFullTcpAgent) (seqno datalen size : ℤ) (tiflags hflags : TcpFlag) : Prop where
  fin : tiflags &&& thFin = 0
  header : hflags &&& thFin = 0
  data : 0 < datalen → size = datalen ∧ t.rcv_nxt_ ≤ seqno ∧ t.Got (seqno + datalen)

theorem Fresh.congr (h : Fresh t seqno datalen size tiflags hflags) (hrq : t'.rq_ = t.rq_)
    (hgot : ∀ e, t.Got e → t'.Got e) : Fresh t' seqno datalen size tiflags hflags :=
  ⟨h.fin, h.header, fun hpos => by
    obtain ⟨h1, h2, h3⟩ := h.data hpos
    exact ⟨h1, (congrArg ReassemblyQueue.rcv_nxt_ hrq).trans_le h2, hgot _ h3⟩⟩

/-- The next segment, when no other waits: `rcv_nxt_` goes to its end. -/
theorem Receiver.takeNext (h : Receiver t) (hsyn : t.state_.haveRcvdSyn = true) (hpos : 0 < datalen)
    (hempty : t.rq_.empty = true) (hgot : t.Got (t.rcv_nxt_ + datalen)) :
    Takes t (t.setRcvNxt (t.rcv_nxt_ + datalen)) := by
  obtain ⟨xs, h1, -, -, -⟩ := h.queue
  obtain ⟨hone, -⟩ := h.point hsyn
  have hnil : xs = [] := h1.empty_iff.mp hempty
  subst hnil
  have hmapping : ∃ m ∈ t.mptcp_recv_dsnmap_, m.Meets (t.rcv_nxt_ + datalen) :=
    hgot.resolve_left (by omega)
  have hnxt : (t.setRcvNxt (t.rcv_nxt_ + datalen)).rcv_nxt_ = t.rcv_nxt_ + datalen := rfl
  have hrec : Receiver (t.setRcvNxt (t.rcv_nxt_ + datalen)) := by
    refine .of_empty h.state ⟨h1.links, h1.blocks, h1.count⟩ h.nofin (fun hno => ?_) fun _ => ?_
    · exact absurd (hsyn.symm.trans hno) (by decide)
    · rw [hnxt]
      exact ⟨by omega, Or.inr hmapping⟩
  refine Takes.of_sent hrec ?_ rfl
  rintro e (hold | hold)
  · refine Or.inl ?_
    rw [hnxt]
    omega
  · exact Or.inr hold

/-- A segment is put into the queue: `rcv_nxt_` stays, or goes to the end of a block. -/
theorem Receiver.takeReass {q : ReassemblyQueue} {g : TcpFlag} (h : Receiver t)
    (hsyn : t.state_.haveRcvdSyn = true) (hpos : 0 < datalen) (hle : t.rcv_nxt_ ≤ seqno)
    (hgot : t.Got (seqno + datalen)) (hheader : hflags &&& thFin = 0)
    (hreass : t.rq_.reass t.state_ seqno (seqno + datalen) hflags = some (q, g)) :
    Takes t { t with rq_ := q, acknow := true } ∧ g &&& thFin = 0 := by
  obtain ⟨xs, h1, h2, hends, -⟩ := h.queue
  obtain ⟨hone, hpoint⟩ := h.point hsyn
  obtain ⟨xs', k1, k2, k3, k4, k5⟩ := reass_ends h1 h2 hle (by omega) hreass
  obtain ⟨hwithout, hg⟩ := ReassemblyQueue.reass_without h.nofin hheader hreass
  have hmono : ∀ e, t.Got e → ({ t with rq_ := q, acknow := true } : MpFullTcpAgent).Got e := by
    rintro e (hold | hold)
    · exact Or.inl (hold.trans k3)
    · exact Or.inr hold
  have hidle : t.state_.haveRcvdSyn ≠ false := by
    rw [hsyn]
    decide
  refine ⟨Takes.of_sent ⟨h.state, ⟨xs', k1, k2, fun x hx => ?_, fun hno => absurd hno hidle⟩, hwithout,
    fun hno => absurd hno hidle, fun _ => ⟨hone.trans k3, ?_⟩⟩ hmono rfl, hg⟩
  · refine hmono _ ?_
    rcases k4 x hx with hend | ⟨y, hy, hend⟩
    · rw [hend]
      exact hgot
    · rw [← hend]
      exact hends y hy
  · -- the new `rcv_nxt_` was got before
    have hnew : t.Got q.rcv_nxt_ := by
      rcases k5 with hold | hend | ⟨y, hy, hend⟩
      · rw [hold]
        exact Or.inl le_rfl
      · rw [hend]
        exact hgot
      · rw [← hend]
        exact hends y hy
    rcases hnew with hback | hnew
    · have hsame : q.rcv_nxt_ = t.rcv_nxt_ := le_antisymm hback k3
      rw [show (({ t with rq_ := q, acknow := true } : MpFullTcpAgent)).rcv_nxt_ = q.rcv_nxt_ from rfl,
        hsame]
      exact hpoint
    · exact Or.inr hnew

/-- **Data.**  `rcv_nxt_` stays, or goes to the end of a segment. -/
theorem Receiver.acceptData {flags : TcpFlag} (h : Receiver t) (hsyn : t.state_.haveRcvdSyn = true)
    (hf : Fresh t seqno datalen size tiflags hflags)
    (hs : t.acceptData seqno datalen size tiflags hflags = some (t', flags)) :
    Takes t t' ∧ flags &&& thFin = 0 := by
  unfold MpFullTcpAgent.acceptData at hs
  split at hs
  · rename_i hcond
    have hpos : 0 < datalen := hcond.1.resolve_right (not_not.mpr hf.fin)
    obtain ⟨hsize, hle, hgot⟩ := hf.data hpos
    split at hs
    · -- the fast path
      rename_i hnext
      obtain ⟨rfl, rfl⟩ := Prod.mk.inj (Option.some.inj hs)
      refine ⟨h.takeNext hsyn hpos hnext.2 (hnext.1 ▸ hgot), ?_⟩
      rw [Nat.and_assoc, Nat.and_self]
      exact hf.header
    · obtain ⟨⟨q, g⟩, hreass, heq⟩ := Option.map_eq_some_iff.mp hs
      obtain ⟨rfl, rfl⟩ := Prod.mk.inj heq
      rw [hsize] at hreass
      exact h.takeReass hsyn hpos hle hgot hf.header hreass
  · rename_i hcond
    obtain ⟨rfl, rfl⟩ := Prod.mk.inj (Option.some.inj hs)
    rw [if_neg (not_not.mpr hf.fin)]
    exact ⟨h.takes_of_eq rfl rfl rfl rfl h.state, hf.fin⟩

theorem Receiver.step6 (h : Receiver t) (hsyn : t.state_.haveRcvdSyn = true)
    (hf : Fresh t seqno datalen size tiflags hflags)
    (hs : t.step6 core seqno datalen size tiflags hflags = some (t', core')) : Takes t t' := by
  obtain ⟨⟨r, flags⟩, haccept, heq⟩ := Option.map_eq_some_iff.mp hs
  obtain ⟨htakes, hfin⟩ := h.acceptData hsyn hf haccept
  obtain ⟨rfl, -⟩ := Prod.mk.inj heq
  have hno : r.processFin flags = r := if_neg (not_not.mpr hfin)
  dsimp only
  rw [hno]
  exact htakes

/-- An ACK changes the state only. -/
theorem Receiver.processAck {b : Bool} (h : Receiver t) (hs : t.processAck ackno = some (t', b)) :
    Takes t t' ∧ t'.rq_ = t.rq_ ∧ t'.state_.haveRcvdSyn = t.state_.haveRcvdSyn := by
  have hsame : ∀ t' : MpFullTcpAgent, t'.rq_ = t.rq_ → t'.mptcp_recv_dsnmap_ = t.mptcp_recv_dsnmap_ →
      t'.sent = t.sent → t'.state_ = t.state_ →
      Takes t t' ∧ t'.rq_ = t.rq_ ∧ t'.state_.haveRcvdSyn = t.state_.haveRcvdSyn := by
    intro t' hrq hmap hsent hstate
    refine ⟨h.takes_of_eq hrq hmap hsent (by rw [hstate]) ?_, hrq, by rw [hstate]⟩
    rw [hstate]
    exact h.state
  unfold MpFullTcpAgent.processAck at hs
  split at hs
  · obtain ⟨rfl, -⟩ := Prod.mk.inj (Option.some.inj hs)
    exact hsame _ rfl rfl rfl rfl
  · dsimp only at hs
    split at hs
    · split at hs
      · rename_i hstate
        obtain ⟨rfl, -⟩ := Prod.mk.inj (Option.some.inj hs)
        have hsyn : TcpState.finWait2.haveRcvdSyn = t.state_.haveRcvdSyn := by
          rw [hstate]
          rfl
        exact ⟨h.takes_of_eq rfl rfl rfl hsyn (by decide : BeforeFin .finWait2), rfl, hsyn⟩
      · rename_i hstate
        exact absurd hstate h.state.2.1
      · rename_i hstate
        exact absurd hstate h.state.2.2
      · obtain ⟨rfl, -⟩ := Prod.mk.inj (Option.some.inj hs)
        exact hsame _ rfl rfl rfl rfl
    · obtain ⟨rfl, -⟩ := Prod.mk.inj (Option.some.inj hs)
      exact hsame _ rfl rfl rfl rfl

theorem Receiver.ackThenStep6 (h : Receiver t) (hsyn : t.state_.haveRcvdSyn = true)
    (hf : Fresh t seqno datalen size tiflags hflags)
    (hs : t.ackThenStep6 core ackno seqno datalen size tiflags hflags = some (t', core')) :
    Takes t t' := by
  obtain ⟨⟨r, b⟩, hack, h2⟩ := Option.bind_eq_some_iff.mp hs
  obtain ⟨htakes, hrq, hstate⟩ := h.processAck hack
  dsimp only at h2
  split_ifs at h2
  · obtain ⟨rfl, -⟩ := Prod.mk.inj (Option.some.inj h2)
    exact htakes
  · exact htakes.trans (htakes.receiver.step6 (hstate.trans hsyn) (hf.congr hrq htakes.got) h2)

theorem Receiver.dropWithReset (h : Receiver t) (hack : tiflags &&& thAck ≠ 0)
    (hs : t.dropWithReset core p seqno datalen tiflags = some (t', core')) : Takes t t' := by
  unfold MpFullTcpAgent.dropWithReset at hs
  rw [if_pos hack] at hs
  exact h.sendpacket rfl (Or.inl rfl) hs

/-- The first packet has come: `rcv_nxt_` is one. -/
theorem Receiver.opened (h : Receiver t) (hidle : t.state_.haveRcvdSyn = false)
    (hrq : t'.rq_ = { t.rq_ with rcv_nxt_ := 1 })
    (hmap : t'.mptcp_recv_dsnmap_ = t.mptcp_recv_dsnmap_) (hsent : t'.sent = t.sent)
    (hsyn : t'.state_.haveRcvdSyn = true)
    (hstate : BeforeFin t'.state_) : Takes t t' := by
  have hnxt : t'.rcv_nxt_ = 1 := congrArg ReassemblyQueue.rcv_nxt_ hrq
  have hold := h.idle hidle
  obtain ⟨xs, h1, -, -, h4⟩ := h.queue
  obtain rfl := h4 hidle
  refine Takes.of_sent (.of_empty hstate ?_ ?_ (fun hno => ?_) fun _ => ⟨hnxt.ge, Or.inl hnxt⟩) ?_ hsent
  · rw [hrq]
    exact ⟨h1.links, h1.blocks, h1.count⟩
  · rw [hrq]
    exact h.nofin
  · exact absurd (hsyn.symm.trans hno) (by decide)
  · rintro e (hle | hmapping)
    · refine Or.inl ?_
      rw [hnxt]
      omega
    · refine Or.inr ?_
      rw [hmap]
      exact hmapping

/-! ## `recv` -/

/-- A packet on its way to the subflow `u`. -/
structure Good (u : MpFullTcpAgent) (p : Packet) : Prop where
  syn : p.has thSyn = true → p.seqno = 0 ∧ p.datalen = 0 ∧ p.has thFin = false
  nonneg : 0 ≤ p.datalen
  data : 0 < p.datalen →
    (p.mp_dsn ≠ 0 ∧ p.mapping.Meets (p.seqno + p.datalen)) ∨ u.Got (p.seqno + p.datalen)

/-- What a packet brings is there before anything else. -/
theorem Receiver.recvOptions (h : Receiver t) (hp : Good t p) :
    Takes t (MptcpAgent.recvOptions t p) ∧ (MptcpAgent.recvOptions t p).state_ = t.state_ ∧
      (0 < p.datalen → (MptcpAgent.recvOptions t p).Got (p.seqno + p.datalen)) := by
  have hmap := MptcpAgent.recvOptions_recvmap t p
  have hrest : (MptcpAgent.recvOptions t p).rq_ = t.rq_ ∧
      (MptcpAgent.recvOptions t p).state_ = t.state_ ∧ (MptcpAgent.recvOptions t p).sent = t.sent := by
    unfold MptcpAgent.recvOptions
    dsimp only
    split_ifs <;> exact ⟨rfl, rfl, rfl⟩
  obtain ⟨hrq, hstate, hsent⟩ := hrest
  have hnxt : (MptcpAgent.recvOptions t p).rcv_nxt_ = t.rcv_nxt_ :=
    congrArg ReassemblyQueue.rcv_nxt_ hrq
  have hold : ∀ m ∈ t.mptcp_recv_dsnmap_, m ∈ (MptcpAgent.recvOptions t p).mptcp_recv_dsnmap_ := by
    intro m hm
    rw [hmap]
    exact List.mem_append_left _ hm
  have hgot : ∀ e, t.Got e → (MptcpAgent.recvOptions t p).Got e := by
    rintro e (hle | ⟨m, hm, hmeets⟩)
    · exact Or.inl (hnxt ▸ hle)
    · exact Or.inr ⟨m, hold m hm, hmeets⟩
  have hrec := h.withMappings hrq hstate hgot fun _ m hm _ => hold m hm
  refine ⟨Takes.of_sent hrec hgot hsent, hstate, fun hpos => ?_⟩
  rcases hp.data hpos with ⟨hdsn, hmeets⟩ | hbefore
  · refine Or.inr ⟨p.mapping, ?_, hmeets⟩
    rw [hmap, if_pos hdsn]
    exact List.mem_append_right _ List.mem_cons_self
  · exact hgot _ hbefore

/-- What is left of a packet after the trimming. -/
structure TrimOk (t : MpFullTcpAgent) (p : Packet) (g : Trimmed) : Prop where
  fresh : Fresh t g.seqno g.datalen g.size g.tiflags p.flags
  syn : g.tiflags &&& thSyn = 0
  ack : p.has thAck = true → g.tiflags &&& thAck ≠ 0

/-- The flags of a `SYN` without the `SYN`. -/
theorem trim_syn_flags (hfin : p.has thFin = false) (hsyn : p.has thSyn = true) :
    (p.flags - thSyn) &&& thFin = 0 ∧ (p.flags - thSyn) &&& thSyn = 0 ∧
      (p.has thAck = true → (p.flags - thSyn) &&& thAck ≠ 0) := by
  have hbits : ∀ n : ℕ, n % 2 = 0 → n / 2 % 2 ≠ 0 →
      (n - 2) % 2 = 0 ∧ (n - 2) / 2 % 2 = 0 ∧ (n - 2) / 16 % 2 = n / 16 % 2 := by
    intro n h1 h2
    refine ⟨?_, ?_, ?_⟩ <;> omega
  obtain ⟨h1, h2, h3⟩ := hbits p.flags ((and_fin _).mp (has_eq_false.mp hfin))
    (mt (and_syn _).mpr (has_eq_true.mp hsyn))
  refine ⟨(and_fin _).mpr h1, (and_syn _).mpr h2, fun hack hzero => ?_⟩
  exact has_eq_true.mp hack ((and_ack _).mpr (h3 ▸ (and_ack _).mp hzero))

/-- The `SYN` has come before, and is dropped. -/
theorem trim_syn (hp : Good t p) (hone : 1 ≤ t.rcv_nxt_) (hsyn : p.has thSyn = true) :
    TrimOk t p (t.trim p) := by
  obtain ⟨hseq, hlen, hfin⟩ := hp.syn hsyn
  obtain ⟨h1, h2, h3⟩ := trim_syn_flags hfin hsyn
  have htrim : t.trim p = ⟨p.seqno + 1 + p.datalen, 0, -1, p.flags - thSyn, true⟩ := by
    unfold trim
    rw [hfin, hsyn, hseq, hlen]
    simp only [if_true, true_or, and_true, Bool.false_eq_true, if_false, Int.sub_zero]
    rw [if_pos (by omega), if_pos (by omega)]
  rw [htrim]
  exact ⟨⟨h1, has_eq_false.mp hfin, fun hpos => absurd hpos (lt_irrefl 0)⟩, h2, h3⟩

/-- Of other packets only data is dropped. -/
theorem trim_data (hfin : p.has thFin = false) (hsyn : p.has thSyn = false)
    (hgot : 0 < p.datalen → t.Got (p.seqno + p.datalen)) : TrimOk t p (t.trim p) := by
  have hflags : (t.trim p).tiflags = p.flags := by
    unfold trim
    rw [hfin, hsyn]
    simp only [Bool.false_eq_true, if_false, false_or]
    split_ifs <;> rfl
  have hdata : 0 < (t.trim p).datalen → 0 < p.datalen ∧ (t.trim p).size = (t.trim p).datalen ∧
      t.rcv_nxt_ ≤ (t.trim p).seqno ∧
      (t.trim p).seqno + (t.trim p).datalen = p.seqno + p.datalen := by
    unfold trim
    rw [hfin, hsyn]
    simp only [Bool.false_eq_true, if_false, false_or, Int.sub_zero]
    split_ifs with hdrop hdup
    · exact fun hpos => absurd hpos (lt_irrefl 0)
    · exact fun _ => ⟨hdrop.2, rfl, by dsimp only; omega, by dsimp only; omega⟩
    · exact fun hpos => ⟨hpos, rfl, by dsimp only at hpos ⊢; omega, rfl⟩
  refine ⟨⟨?_, has_eq_false.mp hfin, fun hpos => ?_⟩, ?_, fun hack => ?_⟩
  · rw [hflags]
    exact has_eq_false.mp hfin
  · obtain ⟨h1, h2, h3, h4⟩ := hdata hpos
    rw [h4]
    exact ⟨h2, h3, hgot h1⟩
  · rw [hflags]
    exact has_eq_false.mp hsyn
  · rw [hflags]
    exact has_eq_true.mp hack

theorem trim_ok (hp : Good t p) (hfin : p.has thFin = false) (hone : 1 ≤ t.rcv_nxt_)
    (hgot : 0 < p.datalen → t.Got (p.seqno + p.datalen)) : TrimOk t p (t.trim p) := by
  cases hsyn : p.has thSyn with
  | true => exact trim_syn hp hone hsyn
  | false => exact trim_data hfin hsyn hgot

/-- The first packet has no data. -/
theorem Takes.step6_syn (h : Takes t t') (hsyn : t'.state_.haveRcvdSyn = true)
    (hfin : tiflags &&& thFin = 0) (hheader : hflags &&& thFin = 0) (hlen : datalen = 0)
    (hs : t'.step6 core seqno datalen size tiflags hflags = some (t'', core')) : Takes t t'' :=
  h.trans (h.receiver.step6 hsyn ⟨hfin, hheader, fun hpos => absurd hlen hpos.ne'⟩ hs)

theorem Receiver.recvListen (h : Receiver t) (hidle : t.state_.haveRcvdSyn = false) (hp : Good t p)
    (hs : t.recvListen core p = some (t', core')) : Takes t t' := by
  unfold MpFullTcpAgent.recvListen at hs
  split at hs
  · rename_i hack
    exact h.dropWithReset (has_eq_true.mp hack) hs
  · split at hs
    · obtain ⟨rfl, -⟩ := Prod.mk.inj (Option.some.inj hs)
      exact h.takes_of_eq rfl rfl rfl rfl h.state
    · rename_i hno
      obtain ⟨hseq, hlen, hfin⟩ := hp.syn (Bool.eq_true_of_not_eq_false hno)
      have hheader := has_eq_false.mp hfin
      dsimp only at hs
      refine Takes.step6_syn ?_ rfl hheader hheader hlen hs
      exact h.opened hidle (by rw [hseq, hlen]; rfl) rfl rfl rfl (by decide : BeforeFin .synReceived)

/-- The state after the handshake. -/
theorem handshake_state (b : Bool) :
    (if b then TcpState.finWait1 else .established).haveRcvdSyn = true ∧
      BeforeFin (if b then TcpState.finWait1 else .established) := by
  cases b <;> decide

theorem Receiver.recvSynSent (h : Receiver t) (hidle : t.state_.haveRcvdSyn = false) (hp : Good t p)
    (hs : t.recvSynSent core p = some (t', core')) : Takes t t' := by
  unfold MpFullTcpAgent.recvSynSent at hs
  split at hs
  · rename_i hack
    exact h.dropWithReset (has_eq_true.mp hack.1) hs
  · split at hs
    · obtain ⟨rfl, -⟩ := Prod.mk.inj (Option.some.inj hs)
      exact h.takes_of_eq rfl rfl rfl rfl h.state
    · rename_i hno
      have hsyn := Bool.eq_true_of_not_eq_false hno
      obtain ⟨hseq, hlen, hfin⟩ := hp.syn hsyn
      have hheader := has_eq_false.mp hfin
      have hopen : ({ t.rq_ with rcv_nxt_ := p.seqno + p.datalen + 1 } : ReassemblyQueue) =
          { t.rq_ with rcv_nxt_ := 1 } := by rw [hseq, hlen]; rfl
      dsimp only at hs
      split at hs
      · obtain ⟨⟨r, c⟩, hsend, h2⟩ := Option.bind_eq_some_iff.mp hs
        obtain ⟨hsyn', hstate⟩ := handshake_state t.needfin
        have hfirst : Takes t r := by
          refine Takes.sendpacket hsend ?_ rfl (Or.inr rfl)
          exact h.opened hidle hopen rfl rfl hsyn' hstate
        have hr : r.state_.haveRcvdSyn = true := by
          obtain ⟨q, hout, -⟩ := sendpacket_spec hsend
          rw [hout.frame.state]
          exact hsyn'
        refine hfirst.trans (hfirst.receiver.ackThenStep6 hr ⟨?_, hheader, ?_⟩ h2)
        · split_ifs
          · exact (trim_syn_flags hfin hsyn).1
          · exact hheader
        · exact fun hpos => absurd hlen hpos.ne'
      · refine Takes.step6_syn ?_ rfl hheader hheader hlen hs
        exact h.opened hidle hopen rfl rfl rfl (by decide : BeforeFin .synReceived)

theorem Takes.recvAck {g : Trimmed} {dupack : Bool}
    (hs : t'.recvAck core p g dupack = some (t'', core')) (h : Takes t t')
    (hsyn : t'.state_.haveRcvdSyn = true) (hg : TrimOk t p g) (hrq : t'.rq_ = t.rq_) : Takes t t'' := by
  have hfresh := hg.fresh.congr hrq h.got
  unfold MpFullTcpAgent.recvAck at hs
  split at hs
  · split at hs
    · obtain ⟨rfl, -⟩ := Prod.mk.inj (Option.some.inj hs)
      exact h
    · exact h.trans (h.receiver.step6 hsyn hfresh hs)
  · exact h.trans (h.receiver.ackThenStep6 hsyn hfresh hs)

theorem Receiver.recvSynchronized {dupack : Bool} (h : Receiver t) (hsyn : t.state_.haveRcvdSyn = true)
    (hp : Good t p) (hfin : p.has thFin = false)
    (hgot : 0 < p.datalen → t.Got (p.seqno + p.datalen))
    (hs : t.recvSynchronized core p dupack = some (t', core')) : Takes t t' := by
  have hg := trim_ok hp hfin (h.point hsyn).1 hgot
  have hr : Takes t { t with acknow := t.acknow || (t.trim p).dupseg } :=
    h.takes_of_eq rfl rfl rfl rfl h.state
  unfold MpFullTcpAgent.recvSynchronized at hs
  dsimp only at hs
  split at hs
  · rename_i hlast
    exact absurd hlast.1 h.state.2.2
  · split at hs
    · rename_i hflag
      exact absurd hg.syn hflag
    · split at hs
      · obtain ⟨rfl, -⟩ := Prod.mk.inj (Option.some.inj hs)
        exact hr
      · rename_i hno
        have hack := Bool.eq_true_of_not_eq_false hno
        split at hs
        · split at hs
          · exact hr.trans (hr.receiver.dropWithReset (hg.ack hack) hs)
          · rename_i hstate _
            obtain ⟨hsyn', hbefore⟩ := handshake_state t.needfin
            refine Takes.recvAck hs ?_ hsyn' hg rfl
            refine h.takes_of_eq rfl rfl rfl ?_ hbefore
            rw [hstate]
            exact hsyn'
        · exact Takes.recvAck hs hr hsyn hg rfl

/-- **Input.** -/
theorem Receiver.recv {cong : Congestion} {dupack : Bool} (h : Receiver t) (hp : Good t p)
    (hfin : t.state_.haveRcvdSyn = true → p.has thFin = false)
    (hgot : 0 < p.datalen → t.Got (p.seqno + p.datalen))
    (hs : t.recv core p cong dupack = some (t', core')) : Takes t t' := by
  have hcong : Takes t { t with cong := cong } := h.takes_of_eq rfl rfl rfl rfl h.state
  have hgood : Good { t with cong := cong } p :=
    ⟨hp.syn, hp.nonneg, fun hpos => (hp.data hpos).imp_right (hcong.got _)⟩
  refine hcong.trans ?_
  have hgot' : 0 < p.datalen → Got { t with cong := cong } (p.seqno + p.datalen) :=
    fun hpos => hcong.got _ (hgot hpos)
  have hrec := hcong.receiver
  unfold MpFullTcpAgent.recv at hs
  dsimp only at hs
  split at hs
  · obtain ⟨rfl, -⟩ := Prod.mk.inj (Option.some.inj hs)
    split_ifs
    · exact hrec.takes_of_eq rfl rfl rfl rfl h.state
    · exact hrec.takes_of_eq rfl rfl rfl rfl h.state
  · rename_i hstate
    exact hrec.recvListen (show t.state_.haveRcvdSyn = false by rw [hstate]; rfl) hgood hs
  · rename_i hstate
    exact hrec.recvSynSent (show t.state_.haveRcvdSyn = false by rw [hstate]; rfl) hgood hs
  · rename_i h1 h2 h3
    have hsyn : t.state_.haveRcvdSyn = true := by
      cases hstate : t.state_ with
      | closed => exact absurd hstate h1
      | listen => exact absurd hstate h2
      | synSent => exact absurd hstate h3
      | _ => rfl
    exact hrec.recvSynchronized hsyn hgood (hfin hsyn) hgot' hs

/-! ## Steps of a subflow -/

variable {u : MpFullTcpAgent} {o : SubflowAction}

/-- What a subflow has sent to the subflow `u`, and will send. -/
structure Sender (t u : MpFullTcpAgent) : Prop where
  iss : t.iss_ = 0
  dsn : ∀ m ∈ t.mptcp_dsnmap_, m.dseqnum ≠ 0
  sent : ∀ p ∈ t.sent, Good u p

/-- A step of the subflow `t` with the other side `u`. -/
structure Advances (t t' u : MpFullTcpAgent) : Prop where
  receiver : Receiver t'
  got : ∀ e, t.Got e → t'.Got e
  sender : Sender t' u

theorem Good.mono {u' : MpFullTcpAgent} (h : Good u p) (hgot : ∀ e, u.Got e → u'.Got e) : Good u' p :=
  ⟨h.syn, h.nonneg, fun hpos => (h.data hpos).imp_right (hgot _)⟩

/-- A packet with neither data nor `SYN`. -/
theorem good_of_nodata (hlen : p.datalen = 0) (hsyn : p.has thSyn = false) : Good u p := by
  refine ⟨fun h => ?_, hlen.ge, fun hpos => absurd hlen hpos.ne'⟩
  rw [hsyn] at h
  cases h

/-- Input that touches none of the mappings of what is sent. -/
theorem Takes.advances (h : Takes t t') (hs : Sender t u) (hiss : t'.iss_ = t.iss_)
    (hdsn : ∀ m ∈ t'.mptcp_dsnmap_, m.dseqnum ≠ 0) : Advances t t' u := by
  obtain ⟨l, hl, hp⟩ := h.answer
  refine ⟨h.receiver, h.got, hiss.trans hs.iss, hdsn, fun p hmem => ?_⟩
  rw [hl] at hmem
  rcases List.mem_append.mp hmem with hmem | hmem
  · exact hs.sent p hmem
  · exact good_of_nodata (hp p hmem).1 (hp p hmem).2

/-- A `SYN` has no `FIN`. -/
theorem outputFlags_syn (h : t.outputFlags seqno &&& thSyn ≠ 0) : t.outputFlags seqno &&& thFin = 0 := by
  have hall : ∀ (s : TcpState) (b : Bool),
      (if b then s.outflags ||| thPush
        else if s.outflags &&& thFin ≠ 0 then s.outflags - thFin else s.outflags) &&& thSyn ≠ 0 →
      (if b then s.outflags ||| thPush
        else if s.outflags &&& thFin ≠ 0 then s.outflags - thFin else s.outflags) &&& thFin = 0 := by
    intro s b
    cases s <;> cases b <;> decide
  exact hall t.state_ (t.emptiesBuffer seqno) h

/-- In `SYN_SENT` every packet is a `SYN`. -/
theorem outputFlags_synSent (h : t.state_ = .synSent) : t.outputFlags seqno &&& thSyn ≠ 0 := by
  have hall : ∀ b : Bool,
      (if b then TcpState.synSent.outflags ||| thPush
        else if TcpState.synSent.outflags &&& thFin ≠ 0 then TcpState.synSent.outflags - thFin
        else TcpState.synSent.outflags) &&& thSyn ≠ 0 := by
    decide
  unfold outputFlags
  rw [h]
  exact hall (t.emptiesBuffer seqno)

/-- **Output** under the condition. -/
theorem Receiver.foutput (h : Receiver t) (hs : Sender t u) (hok : t.SendsOk u seqno)
    (hout : t.foutput core seqno = some (t', core')) : Advances t t' u := by
  by_cases hnow : t.outputNow seqno = true
  · obtain ⟨-, hsyn, hdata⟩ := hok hnow
    rcases foutput_spec hout with ⟨rfl, -⟩ | ⟨p, ho, hseq, hlen, hflags, -, -, hopt⟩
    · exact ⟨h, fun _ => id, hs⟩
    obtain ⟨hrec, hgot⟩ := h.getack hopt ho.frame.state ho.frame.rq (Or.inr rfl)
    have hgood : Good u p := by
      refine ⟨fun hp => ?_, by rw [hlen]; exact outputLen_nonneg t seqno, fun hpos => ?_⟩
      · have hflag := has_eq_true.mp hp
        rw [hflags] at hflag
        obtain ⟨h1, h2⟩ := hsyn hflag
        refine ⟨by rw [hseq, h1, hs.iss], by rw [hlen, h2], has_eq_false.mpr ?_⟩
        rw [hflags]
        exact outputFlags_syn hflag
      · rw [hseq, hlen]
        rw [hlen] at hpos
        refine (hdata hpos).imp_left ?_
        rintro ⟨m, hm, hstop⟩
        obtain ⟨hsame₁, hsame₂, hsame₃⟩ :=
          ho.mapping m (by rw [hlen]; exact hpos.ne') (by rw [hseq]; exact hm)
        obtain ⟨hstarts, -, A, B, hsplit, -⟩ := attach_eq_some hm
        have hmem : m ∈ t.mptcp_dsnmap_ := by
          rw [hsplit]
          exact List.mem_append_right _ List.mem_cons_self
        refine ⟨fun hzero => hs.dsn m hmem (hsame₂.symm.trans hzero), ?_, ?_⟩
        · rw [hsame₁]
          have := hstarts.1
          omega
        · rw [DsnMapping.stop, hsame₁, hsame₃]
          exact hstop
    have hdsn : ∀ m ∈ t'.mptcp_dsnmap_, m.dseqnum ≠ 0 := by
      intro m hm
      by_cases hzero : p.datalen = 0
      · rw [(ho.nodata hzero).1] at hm
        exact hs.dsn m hm
      · rw [ho.data hzero] at hm
        obtain ⟨m₀, hm₀, hsame, -⟩ := exists_of_mem_attach hm
        rw [hsame.2.1]
        exact hs.dsn m₀ hm₀
    refine ⟨hrec, hgot, ho.frame.iss.trans hs.iss, hdsn, fun p' hp' => ?_⟩
    rw [ho.sent] at hp'
    rcases List.mem_append.mp hp' with hp' | hp'
    · exact hs.sent p' hp'
    · rw [List.mem_singleton.mp hp']
      exact hgood
  · unfold MpFullTcpAgent.foutput at hout
    rw [if_neg hnow] at hout
    obtain ⟨rfl, -⟩ := Prod.mk.inj (Option.some.inj hout)
    exact ⟨h, fun _ => id, hs⟩

theorem Receiver.usrclosed (h : Receiver t) : Takes t t.usrclosed := by
  have hstate : t.usrclosed.state_.haveRcvdSyn = t.state_.haveRcvdSyn ∧ BeforeFin t.usrclosed.state_ := by
    have hclosed : BeforeFin .closed := by decide
    have hfin : BeforeFin .finWait1 := by decide
    unfold MpFullTcpAgent.usrclosed
    dsimp only
    split
    · rename_i hst
      exact ⟨by rw [hst], hclosed⟩
    · rename_i hst
      exact ⟨by rw [hst]; rfl, hclosed⟩
    · rename_i hst
      exact ⟨by rw [hst]; rfl, hclosed⟩
    · rename_i hst
      exact absurd hst h.state.2.2
    · rename_i hst
      exact ⟨by rw [hst]; rfl, hfin⟩
    · rename_i hst
      exact ⟨by rw [hst]; rfl, hfin⟩
    · rename_i hst
      exact absurd hst h.state.1
    · exact ⟨rfl, h.state⟩
  obtain ⟨-, -, hmap, hsent, -⟩ := usrclosed_spec t
  have hrq : t.usrclosed.rq_ = t.rq_ := by
    unfold MpFullTcpAgent.usrclosed
    cases t.state_ <;> rfl
  exact h.takes_of_eq hrq hmap hsent hstate.1 hstate.2

/-- A new connection. -/
theorem Receiver.connect {q : ReassemblyQueue} (h : Receiver t) (hidle : t.state_.haveRcvdSyn = false)
    (hclear : t.rq_.clear = some q) (hrq : t'.rq_ = { q with rcv_nxt_ := -1 })
    (hmap : t'.mptcp_recv_dsnmap_ = t.mptcp_recv_dsnmap_) (hsent : t'.sent = t.sent)
    (hstate : t'.state_ = .synSent) : Takes t t' := by
  have hnxt : t'.rcv_nxt_ = -1 := congrArg ReassemblyQueue.rcv_nxt_ hrq
  have hold := h.idle hidle
  obtain ⟨xs, h1, -⟩ := h.queue
  obtain ⟨q', hq', hholds, -⟩ := ReassemblyQueue.clear_spec h1
  obtain rfl := Option.some.inj (hclear.symm.trans hq')
  refine Takes.of_sent (.of_empty (by rw [hstate]; decide) ?_ ?_ (fun _ => hnxt) fun hsyn => ?_) ?_ hsent
  · rw [hrq]
    exact ⟨hholds.links, hholds.blocks, hholds.count⟩
  · have hclean := ReassemblyQueue.clear_without h.nofin hclear
    rw [hrq]
    exact hclean
  · rw [hstate] at hsyn
    cases hsyn
  · rintro e (hle | hmapping)
    · exact Or.inl (by omega)
    · refine Or.inr ?_
      rw [hmap]
      exact hmapping

theorem Receiver.advance {n : ℤ} (h : Receiver t) (hs : t.advance n = some t') : Takes t t' := by
  have hkeep : ∀ n : ℤ, Takes t { t with curseq_ := n } := fun n =>
    h.takes_of_eq rfl rfl rfl rfl h.state
  have hconnect : t.state_.haveRcvdSyn = false →
      (t.reset.map fun r => { r with curseq_ := r.iss_ + n, state_ := .synSent }) = some t' →
      Takes t t' := by
    intro hidle hmap
    obtain ⟨r, hr, rfl⟩ := Option.map_eq_some_iff.mp hmap
    obtain ⟨q, hq, rfl⟩ := Option.map_eq_some_iff.mp hr
    exact h.connect hidle hq rfl rfl rfl rfl
  unfold MpFullTcpAgent.advance at hs
  split at hs
  · rename_i hstate
    exact hconnect (by rw [hstate]; rfl) hs
  · rename_i hstate
    exact hconnect (by rw [hstate]; rfl) hs
  · obtain rfl := Option.some.inj hs
    exact hkeep _
  · obtain rfl := Option.some.inj hs
    exact hkeep _
  · obtain rfl := Option.some.inj hs
    exact hkeep _
  · obtain rfl := Option.some.inj hs
    exact h.takes_of_eq rfl rfl rfl rfl h.state

theorem recvOptions_dsnmap (t : MpFullTcpAgent) (p : Packet) :
    (MptcpAgent.recvOptions t p).mptcp_dsnmap_ ⊆ t.mptcp_dsnmap_ ∧
      (MptcpAgent.recvOptions t p).iss_ = t.iss_ := by
  unfold MptcpAgent.recvOptions
  dsimp only
  split_ifs
  · exact ⟨List.eraseP_subset, rfl⟩
  · exact ⟨List.Subset.refl _, rfl⟩
  · exact ⟨List.eraseP_subset, rfl⟩
  · exact ⟨List.Subset.refl _, rfl⟩

/-- **A step of a subflow.** -/
theorem Receiver.act (h : Receiver t) (hs : Sender t u)
    (hout : ∀ seqno, o = .foutput seqno → t.SendsOk u seqno)
    (hrecv : ∀ p cong dupack, o = .recv p cong dupack →
      Good t p ∧ (t.state_.haveRcvdSyn = true → p.has thFin = false))
    (hlisten : o = .listen → t.state_ = .closed) (hact : t.act o core = some (t', core')) :
    Advances t t' u := by
  cases o with
  | foutput seqno => exact h.foutput hs (hout seqno rfl) hact
  | recv p cong dupack =>
    obtain ⟨hgood, hfin⟩ := hrecv p cong dupack rfl
    obtain ⟨htakes, hstate, hgot⟩ := h.recvOptions hgood
    obtain ⟨hsub, hiss⟩ := recvOptions_dsnmap t p
    have hall := htakes.trans (htakes.receiver.recv (hgood.mono htakes.got)
      (by rw [hstate]; exact hfin) hgot hact)
    have hreceives := recv_receives hact
    refine hall.advances hs ((congrArg Config.iss_ hreceives.config).trans hiss) fun m hm => ?_
    rw [hreceives.dsnmap] at hm
    exact hs.dsn m (hsub hm)
  | timer cong acknow =>
    obtain ⟨rfl, -⟩ := Prod.mk.inj (Option.some.inj hact)
    exact Takes.advances (h.takes_of_eq rfl rfl rfl rfl h.state) hs rfl hs.dsn
  | usrclosed =>
    obtain ⟨rfl, -⟩ := Prod.mk.inj (Option.some.inj hact)
    obtain ⟨hconfig, hmap, -⟩ := usrclosed_spec t
    refine h.usrclosed.advances hs (congrArg Config.iss_ hconfig) ?_
    rw [hmap]
    exact hs.dsn
  | listen =>
    obtain ⟨rfl, -⟩ := Prod.mk.inj (Option.some.inj hact)
    have hsyn : TcpState.listen.haveRcvdSyn = t.state_.haveRcvdSyn := by
      rw [hlisten rfl]
      rfl
    exact Takes.advances (h.takes_of_eq rfl rfl rfl hsyn (by decide : BeforeFin .listen)) hs rfl hs.dsn

end MpFullTcpAgent

/-! ## The connection -/

namespace Connection

open MpFullTcpAgent

variable {c c' : Connection} {e : Event} {side : Bool} {id : ℕ}

/-- The invariant: every subflow receives, and sends to the one on the other side. -/
structure Sound (c : Connection) : Prop where
  mcurseq : ∀ side, 1 ≤ (c.agent side).mcurseq_
  receiver : ∀ side id, Receiver (c.subflow side id)
  sender : ∀ side id, Sender (c.subflow side id) (c.subflow (!side) id)

theorem sound_new {sub_num_ : Bool → ℕ} {configs : Bool → ℕ → Config}
    (hiss : ∀ side id, (configs side id).iss_ = 0) : Sound (new sub_num_ configs) where
  mcurseq _ := le_rfl
  receiver side id :=
    .of_empty (by decide : BeforeFin .closed) (ReassemblyQueue.holds_new _) (ReassemblyQueue.without_new _)
      (fun _ => rfl) fun h => by cases h
  sender side id := ⟨hiss side id, fun m hm => (List.not_mem_nil hm).elim, fun p hp =>
    (List.not_mem_nil hp).elim⟩

/-- A step of one subflow. -/
theorem Sound.update {s' : MptcpAgent} {t' : MpFullTcpAgent} (h : Sound c) (id : ℕ)
    (hsub : s'.subflows_ = Function.update (c.agent side).subflows_ id t') (hcur : 1 ≤ s'.mcurseq_)
    (ha : Advances (c.subflow side id) t' (c.subflow (!side) id)) :
    Sound (c.put side s') := by
  have hthis : ∀ i, (c.put side s').subflow side i =
      Function.update (c.agent side).subflows_ id t' i := by
    intro i
    rw [subflow, put_agent, hsub]
  have hother : ∀ b, b ≠ side → ∀ i, (c.put side s').subflow b i = c.subflow b i := by
    intro b hb i
    rw [subflow, put_agent_of_ne c hb]
    rfl
  refine ⟨fun b => ?_, fun b i => ?_, fun b i => ?_⟩
  · by_cases hb : b = side
    · subst hb
      rw [put_agent]
      exact hcur
    · rw [put_agent_of_ne c hb]
      exact h.mcurseq b
  · by_cases hb : b = side
    · subst hb
      rw [hthis]
      by_cases hi : i = id
      · rw [hi, Function.update_self]
        exact ha.receiver
      · rw [Function.update_of_ne hi]
        exact h.receiver b i
    · rw [hother b hb]
      exact h.receiver b i
  · by_cases hb : b = side
    · subst hb
      rw [hthis, hother _ (Bool.not_ne_self _)]
      by_cases hi : i = id
      · rw [hi, Function.update_self]
        exact ha.sender
      · rw [Function.update_of_ne hi]
        exact h.sender b i
    · have hside : (!b) = side := Bool.not_eq.mpr hb
      have hold := h.sender b i
      rw [hside] at hold
      rw [hother b hb, hside, hthis]
      by_cases hi : i = id
      · subst hi
        rw [Function.update_self]
        exact ⟨hold.iss, hold.dsn, fun p hp => (hold.sent p hp).mono ha.got⟩
      · rw [Function.update_of_ne hi]
        exact hold

/-- A step that leaves the subflows alone. -/
theorem Sound.same {s' : MptcpAgent} (h : Sound c) (hsub : s'.subflows_ = (c.agent side).subflows_)
    (hcur : 1 ≤ s'.mcurseq_) : Sound (c.put side s') := by
  refine h.update 0 ?_ hcur ⟨h.receiver side 0, fun _ => id, h.sender side 0⟩
  rw [hsub]
  exact (Function.update_eq_self _ _).symm

/-- A turn of `send_control`. -/
theorem Sound.assign {s' : MptcpAgent} (h : Sound c) (hpos : 0 ≤ (c.agent side).total_bytes_)
    (hs : (c.agent side).assign id = some s') : Sound (c.put side s') := by
  rcases MptcpAgent.assign_spec hpos hs with rfl | ⟨n, t', hn, -, hadv, rfl⟩
  · exact h.same rfl (h.mcurseq side)
  · have hcur := h.mcurseq side
    have hold := h.sender side id
    have hadd : Receiver ((c.subflow side id).mptcpAddMapping (c.agent side).mcurseq_ n) :=
      (h.receiver side id).withState rfl rfl rfl (h.receiver side id).state
    obtain ⟨-, hconfig, hdsn, -, hsent⟩ := advance_spec hadv
    have htakes := hadd.advance hadv
    have hsender : Sender ((c.subflow side id).mptcpAddMapping (c.agent side).mcurseq_ n)
        (c.subflow (!side) id) := by
      refine ⟨hold.iss, fun m hm => ?_, hold.sent⟩
      rcases List.mem_append.mp hm with hm | hm
      · exact hold.dsn m hm
      · rw [List.mem_singleton.mp hm]
        exact (show (0 : ℤ) < (c.agent side).mcurseq_ by omega).ne'
    have hall := htakes.advances hsender (congrArg Config.iss_ hconfig) (by rw [hdsn]; exact hsender.dsn)
    refine h.update id rfl ?_ ⟨hall.receiver, hall.got, hall.sender⟩
    show 1 ≤ (c.agent side).mcurseq_ + n
    omega

/-- **A step under the condition keeps the invariant.** -/
theorem Sound.step (h : Sound c) (hlegal : c.ActionLegal e.side e.action) (hok : c.ActionOk e.side e.action)
    (hs : c.step e = some c') : Sound c' := by
  obtain ⟨side, action⟩ := e
  obtain ⟨s', hs', rfl⟩ := Option.map_eq_some_iff.mp hs
  dsimp only at hlegal hok hs' ⊢
  cases action with
  | sendmsg nbytes =>
    obtain rfl := Option.some.inj hs'
    refine h.same ?_ ?_
    · unfold MptcpAgent.request
      split <;> rfl
    · unfold MptcpAgent.request
      split <;> exact h.mcurseq side
  | sendControl id =>
    unfold MptcpAgent.step at hs'
    dsimp only at hs'
    split at hs'
    · rename_i hturn
      exact h.assign hturn.2 hs'
    · obtain rfl := Option.some.inj hs'
      exact h.same rfl (h.mcurseq side)
  | subflow id o =>
    obtain ⟨⟨t', core'⟩, hact, rfl⟩ := Option.map_eq_some_iff.mp hs'
    refine h.update id rfl (h.mcurseq side) ?_
    refine (h.receiver side id).act (h.sender side id) ?_ ?_ ?_ hact
    · rintro seqno rfl
      exact hok
    · rintro p cong dupack rfl
      have hpeer := (h.sender (!side) id).sent p hlegal
      rw [Bool.not_not] at hpeer
      exact ⟨hpeer, hok⟩
    · rintro rfl
      exact hlegal

/-- **There is a mapping**, in a step under the condition. -/
theorem Sound.found (h : Sound c) (hlegal : c.ActionLegal e.side e.action) (hok : c.ActionOk e.side e.action) :
    Found (some c) e := by
  intro c' hc' id o ho ackno hackno
  obtain rfl : c = c' := Option.some.inj hc'
  rw [ho] at hlegal hok
  cases o with
  | foutput seqno =>
    unfold ackCall at hackno
    dsimp only at hackno
    split_ifs at hackno with hcall
    · obtain rfl := Option.some.inj hackno
      obtain ⟨hstate, -⟩ := hok hcall.1
      have hsyn : (c.subflow e.side id).state_.haveRcvdSyn = true := by
        cases hst : (c.subflow e.side id).state_ with
        | closed => exact absurd hst hstate.1
        | listen => exact absurd hst hstate.2
        | synSent => exact absurd hcall.2 (outputFlags_synSent hst)
        | _ => rfl
      exact ((h.receiver e.side id).point hsyn).2
    · cases hackno
  | recv p cong dupack =>
    unfold ackCall at hackno
    dsimp only at hackno
    split_ifs at hackno with hcall
    · obtain rfl := Option.some.inj hackno
      have hpeer := (h.sender (!e.side) id).sent p hlegal
      obtain ⟨hseq, hlen, -⟩ := hpeer.syn hcall.2.1
      left
      rw [hseq, hlen]
      rfl
    · cases hackno
  | timer cong acknow => cases hackno
  | usrclosed => cases hackno
  | listen => cases hackno

/-- **`mptcp_recv_getack` finds a mapping** in every run of two connected agents whose initial sequence
numbers are zero, if data ends where its mapping ends or before, or where the other side has a mapping, if
a `SYN` is the first packet, and if no `FIN` arrives. -/
theorem getack_finds (sub_num_ : Bool → ℕ) (configs : Bool → ℕ → Config)
    (hiss : ∀ side id, (configs side id).iss_ = 0) (l : List Event)
    (hlegal : Run.AllSteps exec Legal (some (new sub_num_ configs)) l)
    (hok : Run.AllSteps exec StepOk (some (new sub_num_ configs)) l) :
    Run.AllSteps exec Found (some (new sub_num_ configs)) l := by
  refine Run.allSteps_imp (I := fun c? => ∀ c ∈ c?, Sound c) (fun c? e hc he c hmem => ?_)
    (fun c? e hc he c' hc' => ?_) l _ (fun c hc => ?_) ((Run.allSteps_and _ l).mpr ⟨hlegal, hok⟩)
  · exact (hc c hmem).found (he.1 c hmem) (he.2 c hmem) c rfl
  · obtain ⟨c, hmem, hstep⟩ := Option.bind_eq_some_iff.mp hc'
    exact (hc c hmem).step (he.1 c hmem) (he.2 c hmem) hstep
  · obtain rfl := Option.some.inj hc
    exact sound_new hiss

/-- Congestion control in the runs below. -/
def slowStart : Congestion := ⟨2, 20, 0, 1, false, false, 1⟩

/-- A connection is made, and a segment is sent and acknowledged. -/
def segmentRun : List Event :=
  [⟨true, .subflow 0 .listen⟩, ⟨false, .sendmsg 536⟩, ⟨false, .sendControl 0⟩,
    ⟨false, .subflow 0 (.foutput 0)⟩,
    ⟨true, .subflow 0 (.recv ⟨0, -1, thSyn ||| thPush, 0, 0, 0, 0, 0⟩ slowStart false)⟩,
    ⟨true, .subflow 0 (.foutput 0)⟩,
    ⟨false, .subflow 0 (.recv ⟨0, 1, thSyn ||| thAck ||| thPush, 0, 0, 0, 0, 0⟩ slowStart false)⟩,
    ⟨true, .subflow 0 (.recv ⟨1, 1, thAck, 0, 0, 0, 0, 0⟩ slowStart false)⟩,
    ⟨false, .subflow 0 (.foutput 1)⟩,
    ⟨true, .subflow 0 (.recv ⟨1, 1, thAck ||| thPush, 536, 0, 1, 1, 536⟩ slowStart false)⟩,
    ⟨true, .subflow 0 (.foutput 1)⟩]

theorem getack_finds_segment :
    Run.AllSteps exec Found (some (new (fun _ => 1) fun _ _ => Config.default)) segmentRun :=
  getack_finds (fun _ => 1) (fun _ _ => Config.default) (fun _ _ => rfl) segmentRun (by decide +kernel)
    (by decide +kernel)

/-- The sender closes, and its `FIN` arrives. -/
def closeRun : List Event :=
  segmentRun ++
    [⟨false, .subflow 0 (.recv ⟨1, 537, thAck ||| thPush, 0, 537, 0, 0, 0⟩ slowStart false)⟩,
      ⟨false, .subflow 0 .usrclosed⟩, ⟨false, .subflow 0 (.foutput 537)⟩,
      ⟨true, .subflow 0 (.recv ⟨537, 1, thFin ||| thAck ||| thPush, 0, 0, 0, 0, 0⟩ slowStart false)⟩]

/-- **After a `FIN` there is no mapping.**  `rcv_nxt_` is then one more than the end of the data. -/
theorem getack_aborts :
    ¬ ∀ (sub_num_ : Bool → ℕ) (configs : Bool → ℕ → Config) (l : List Event),
      Run.AllSteps exec Legal (some (new sub_num_ configs)) l →
        Run.AllSteps exec Found (some (new sub_num_ configs)) l := by
  intro h
  have hfound := h (fun _ => 1) (fun _ _ => Config.default) (closeRun ++ [⟨true, .subflow 0 (.foutput 1)⟩])
    (by decide +kernel)
  have hlast := ((Run.allSteps_append _ _ _).mp hfound).2.1
  have hstate : (closeRun.foldl exec (some (new (fun _ => 1) fun _ _ => Config.default))).map
      (fun c => ((c.subflow true 0).ackCall (.foutput 1), (c.subflow true 0).mptcp_recv_dsnmap_)) =
      some (some 538, [⟨1, 1, 536, 0⟩]) := by
    decide +kernel
  obtain ⟨c, hc, heq⟩ := Option.map_eq_some_iff.mp hstate
  obtain ⟨hcall, hmap⟩ := Prod.mk.inj heq
  rcases hlast c hc 0 _ rfl 538 hcall with hone | ⟨m, hm, hmeets⟩
  · exact absurd hone (by decide)
  · have hm : m ∈ (c.subflow true 0).mptcp_recv_dsnmap_ := hm
    rw [hmap, List.mem_singleton] at hm
    subst hm
    exact absurd hmeets (by decide)

end Connection

end Ns2.Mptcp
