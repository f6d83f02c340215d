import Ns2.Tcp.SackHole

/-!
# Runs of a SACK sender

The queue of what the peer has reported is in order in every state of a run, so that
`nxtTseq_spec` says of every call of `nxt_tseq` when it avoids what was reported.  (The states
between two turns of `send_much` are those of a run with fewer turns.)

* `SackSender` — the invariant.
* `sackSender_step`, `sackSender_run` — it is kept.
* `nxtTseq_iff` — every state that is reached.
* `nxtTseq_reported` — a run that retransmits what was reported.
-/

namespace Ns2.Tcp

open Intervals ReassemblyQueue

/-- SACK blocks that are not checked, those of a `FIN`, are not empty. -/
def AckSegment.Legal (p : AckSegment) : Prop := p.fin = true → ∀ b ∈ p.sack, b.1 < b.2

/-- The segment that arrives, if one does, is legal. -/
def FullSenderEvent.Legal : FullSenderEvent → Prop
  | .synAck p _ _ => p.Legal
  | .handshakeAck p _ _ _ => p.Legal
  | .ack p _ => p.Legal
  | _ => True

namespace FullTcpSender

variable {a a' : FullTcpSender} {xs : List Ptr}

/-- The fields that the invariant is about. -/
def core (a : FullTcpSender) : FullTcpKind × ℤ × ReassemblyQueue := (a.kind, a.maxseg_, a.sq_)

/-- A SACK sender whose queue is in order. -/
structure SackSender (a : FullTcpSender) : Prop where
  /-- The class. -/
  kind : a.kind = .sack
  /-- Segments are not empty. -/
  maxseg_pos : 0 < a.maxseg_
  /-- The queue is in order. -/
  holds : ∃ xs, a.sq_.Holds xs

theorem SackSender.congr (h : a.SackSender) (hcore : a'.core = a.core) : a'.SackSender := by
  have hkind : a'.kind = a.kind := congrArg Prod.fst hcore
  have hseg : a'.maxseg_ = a.maxseg_ := congrArg (fun c => c.2.1) hcore
  have hsq : a'.sq_ = a.sq_ := congrArg (fun c => c.2.2) hcore
  exact ⟨hkind.trans h.kind, hseg ▸ h.maxseg_pos, hsq ▸ h.holds⟩

/-! ## What leaves the queue alone -/

theorem core_foutput (a : FullTcpSender) (seqno : ℤ) (o : Output) :
    (a.foutput seqno o).core = a.core := by
  unfold foutput
  simp only
  split <;> rfl

theorem core_fastRetransmit (a : FullTcpSender) (o? : Option Output) :
    (a.fastRetransmit o?).core = a.core := by
  unfold fastRetransmit
  cases o? with
  | none => rfl
  | some o => exact core_foutput _ _ o

theorem core_newack (a : FullTcpSender) (p : AckSegment) (rtt : Option ℤ) :
    (a.newack p rtt).core = a.core := by
  unfold newack
  simp only
  split
  · rfl
  · split <;> cases rtt <;> rfl

theorem core_recvOld (a : FullTcpSender) (p : AckSegment) (w : AckContext) :
    (a.recvOld p w).1.core = a.core := by
  unfold recvOld
  split
  · split
    · rfl
    · simp only
      split
      · rfl
      · split <;> rfl
  · split <;> rfl

theorem core_opencwnd (h : a.opencwnd = some a') : a'.core = a.core := by
  obtain ⟨b, -, rfl⟩ := Option.map_eq_some_iff.mp h
  rfl

/-! ## Output -/

namespace SackSender

theorem nxtTseq (h : a.SackSender) {r : FullTcpSender × ℤ} (hr : a.nxtTseq = some r) :
    r.1.SackSender := by
  obtain ⟨xs, hq⟩ := h.holds
  have hhint : ({ a.sq_ with hint_ := a.sq_.head_ } : ReassemblyQueue).Holds xs :=
    ⟨hq.links.imp fun fs hs => ⟨hs.fifo, hs.lifo, hs.free, hs.apart, hs.old⟩, hq.blocks, hq.count⟩
  unfold FullTcpSender.nxtTseq at hr
  split at hr
  · obtain ⟨o, -, rfl⟩ := Option.map_eq_some_iff.mp hr
    cases o with
    | none => exact ⟨h.kind, h.maxseg_pos, xs, hhint⟩
    | some s => exact ⟨h.kind, h.maxseg_pos, xs, hhint⟩
  · cases hr
    exact h

theorem sendMuch {turns : List (Option Output)} (h : a.SackSender)
    (hs : a.sendMuch turns = some a') : a'.SackSender := by
  induction turns generalizing a with
  | nil =>
    cases hs
    exact h
  | cons o? turns ih =>
    obtain ⟨r, hr, hs⟩ := Option.bind_eq_some_iff.mp hs
    have hnxt := h.nxtTseq hr
    cases o? with
    | none =>
      cases hs
      exact hnxt
    | some o =>
      have hout := hnxt.congr (core_foutput r.1 r.2 o)
      simp only at hs
      split at hs
      · cases hs
        exact hout
      · refine ih ?_ hs
        exact hout.congr rfl

theorem fastRetransmit (h : a.SackSender) (o? : Option Output) : (a.fastRetransmit o?).SackSender :=
  h.congr (core_fastRetransmit a o?)

/-! ## ACKs -/

theorem clearSacked (h : a.SackSender) (hs : a.clearSacked = some a') : a'.SackSender := by
  obtain ⟨xs, hq⟩ := h.holds
  unfold FullTcpSender.clearSacked at hs
  split at hs
  · obtain ⟨r, hr, rfl⟩ := Option.map_eq_some_iff.mp hs
    obtain ⟨q', flag, xs', hclear, hq', -⟩ :=
      clearto_spec (q := { a.sq_ with rcv_nxt_ := a.highest_ack_ }) a.highest_ack_
        ⟨hq.links, hq.blocks, hq.count⟩
    have hsame : r = (q', flag) := Option.some_inj.mp (hr.symm.trans hclear)
    refine ⟨h.kind, h.maxseg_pos, xs', ?_⟩
    rw [hsame]
    exact hq'
  · cases hs
    exact h

theorem packAction (h : a.SackSender) {rtx : Option Output} (hs : a.packAction rtx = some a') :
    a'.SackSender := by
  unfold FullTcpSender.packAction at hs
  rw [h.kind] at hs
  obtain ⟨b, hb, rfl⟩ := Option.map_eq_some_iff.mp hs
  exact (h.clearSacked hb).congr rfl

theorem ackAction (h : a.SackSender) (hs : a.ackAction = some a') : a'.SackSender := by
  have hsack : a.ackAction =
      ({ a with fastrecov_ := false, pipectrl_ := false } : FullTcpSender).clearSacked.map fun a₁ =>
        { a₁ with dupacks_ := 0 : FullTcpSender }.raiseHole := by
    unfold FullTcpSender.ackAction
    rw [h.kind]
  rw [hsack] at hs
  obtain ⟨b, hb, rfl⟩ := Option.map_eq_some_iff.mp hs
  have hfields : ({ a with fastrecov_ := false, pipectrl_ := false } : FullTcpSender).SackSender :=
    ⟨h.kind, h.maxseg_pos, h.holds⟩
  have hclear := hfields.clearSacked hb
  exact hclear.congr rfl

theorem dupackAction (h : a.SackSender) {rtx : Option Output} {turns : List (Option Output)}
    (hs : a.dupackAction rtx turns = some a') : a'.SackSender := by
  unfold FullTcpSender.dupackAction at hs
  rw [h.kind] at hs
  have hsack : a.sackDupackAction rtx turns = some a' := hs
  unfold sackDupackAction at hsack
  simp only at hsack
  split at hsack
  · refine sendMuch (h.congr ?_) hsack
    exact core_fastRetransmit _ rtx
  · split at hsack
    · refine sendMuch (h.congr ?_) hsack
      refine (core_fastRetransmit _ rtx).trans ?_
      split <;> rfl
    · split at hsack
      · cases hsack
        exact h.congr rfl
      · refine sendMuch (h.congr ?_) hsack
        exact core_fastRetransmit _ rtx

theorem processSack (h : a.SackSender) {p : AckSegment} (hp : p.Legal)
    (hs : a.processSack p = some a') : a'.SackSender := by
  unfold FullTcpSender.processSack at hs
  split at hs
  · cases hs
    exact h
  · obtain ⟨q, hq, rfl⟩ := Option.map_eq_some_iff.mp hs
    refine ⟨h.kind, h.maxseg_pos, ?_⟩
    have hlegal : ∀ b ∈ p.sack, ¬ (¬ p.fin ∧ b.1 ≥ b.2) → b.1 < b.2 := fun b hb hnot => by
      by_cases hfin : p.fin = true
      · exact hp hfin b hb
      · by_contra hle
        exact hnot ⟨hfin, not_lt.mp hle⟩
    obtain ⟨xs, hxs⟩ := h.holds
    show ∃ xs, q.Holds xs
    generalize a.sq_ = q₀ at hq hxs
    generalize p.sack = blocks at hq hlegal
    clear hp
    induction blocks generalizing q₀ xs with
    | nil =>
      cases hq
      exact ⟨xs, hxs⟩
    | cons b blocks ih =>
      obtain ⟨q₁, hq₁, hq⟩ := Option.bind_eq_some_iff.mp hq
      have hrest : ∀ b ∈ blocks, ¬ (¬ p.fin ∧ b.1 ≥ b.2) → b.1 < b.2 := fun c hc =>
        hlegal c (List.mem_cons_of_mem b hc)
      simp only at hq₁
      split at hq₁
      · cases hq₁
        exact ih xs q₀ hxs hq hrest
      · rename_i hnot
        obtain ⟨q', flag, xs', hadd, hadded⟩ :=
          add_spec (g := 0) (f := 0) hxs (hlegal b List.mem_cons_self hnot)
        rw [hadd] at hq₁
        cases hq₁
        exact ih xs' q' hadded.holds hq hrest

theorem recvNew (h : a.SackSender) {p : AckSegment} {w : AckContext} {r : FullTcpSender × AckCall}
    (hs : a.recvNew p w = some r) : r.1.SackSender := by
  obtain ⟨b, hb, rfl⟩ := Option.map_eq_some_iff.mp hs
  have hnew := h.congr (core_newack a p w.rtt)
  have hb' : b.SackSender := by
    split at hb
    · exact hnew.packAction hb
    · exact hnew.ackAction hb
  refine hb'.congr ?_
  simp only
  split <;> rfl

theorem recvAck (h : a.SackSender) {p : AckSegment} {w : AckContext} {r : FullTcpSender × AckCall}
    (hp : p.Legal) (hs : a.recvAck p w = some r) : r.1.SackSender := by
  obtain ⟨b, hb, hbs⟩ : ∃ b : FullTcpSender, b = (if a.dctcp_ then
      { a with toDctcpSender := a.toDctcpSender.updateDctcpAlpha p.ackno p.ecnecho } else a) ∧
        b.SackSender := by
    refine ⟨_, rfl, h.congr ?_⟩
    split <;> rfl
  unfold FullTcpSender.recvAck at hs
  simp only [← hb] at hs
  split at hs
  · cases hs
    exact hbs.congr (core_newack b p w.rtt)
  · obtain ⟨c, hc, hs⟩ := Option.bind_eq_some_iff.mp hs
    have hcs := hbs.processSack hp hc
    obtain ⟨d, hd, hds⟩ : ∃ d : FullTcpSender,
        d = (if c.fastrecov_ ∧ (p.datalen = 0 ∨ p.ackno > c.highest_ack_) then
          { c with pipe_ := c.pipe_ - c.maxseg_ } else c) ∧ d.SackSender := by
      refine ⟨_, rfl, hcs.congr ?_⟩
      split <;> rfl
    simp only [← hd] at hs
    split at hs
    · cases hs
      exact hds.congr (core_recvOld d p w)
    · split at hs
      · cases hs
        exact hds
      · exact hds.recvNew hs

theorem afterAck {w : AckContext} {r : FullTcpSender × AckCall} (h : r.1.SackSender)
    (hs : FullTcpSender.afterAck w r = some a') : a'.SackSender := by
  obtain ⟨b, c⟩ := r
  cases c with
  | none => exact sendMuch h hs
  | dupack => exact dupackAction h hs
  | opencwnd =>
    obtain ⟨c, hc, hsend⟩ := Option.bind_eq_some_iff.mp hs
    exact sendMuch (h.congr (core_opencwnd hc)) hsend

/-! ## Events -/

theorem timeout {turns : List (Option Output)} (h : a.SackSender) (hs : a.timeout turns = some a') :
    a'.SackSender := by
  obtain ⟨b, hb, hsend⟩ := Option.bind_eq_some_iff.mp hs
  refine sendMuch ?_ hsend
  have hreno : a.renoTimeoutAction.SackSender := by
    refine h.congr ?_
    unfold renoTimeoutAction
    simp only
    split <;> rfl
  unfold timeoutAction at hb
  split at hb
  · obtain ⟨q, hq, rfl⟩ := Option.map_eq_some_iff.mp hb
    obtain ⟨xs, hxs⟩ := hreno.holds
    obtain ⟨q', hclear, hq', -⟩ := clear_spec (q := { a.renoTimeoutAction.sq_ with
      rcv_nxt_ := a.renoTimeoutAction.highest_ack_ }) ⟨hxs.links, hxs.blocks, hxs.count⟩
    have hsame : q = q' := Option.some_inj.mp (hq.symm.trans hclear)
    exact ⟨hreno.kind, hreno.maxseg_pos, [], hsame ▸ hq'⟩
  · cases hb
    exact hreno

/-- Every event keeps the invariant. -/
theorem step (h : a.SackSender) {e : FullSenderEvent} (he : e.Legal) (hs : a.step e = some a') :
    a'.SackSender := by
  cases e with
  | syn ect turns =>
    refine sendMuch ?_ hs
    exact h.congr rfl
  | synAck p ect w =>
    obtain ⟨r, hr, hs⟩ := Option.bind_eq_some_iff.mp hs
    refine afterAck ?_ hs
    unfold recvSynAck at hr
    simp only at hr
    split at hr
    · cases hr
      exact h.congr rfl
    · refine recvNew ?_ hr
      exact h.congr rfl
  | handshakeAck p marked wait w =>
    obtain ⟨r, hr, hs⟩ := Option.bind_eq_some_iff.mp hs
    refine afterAck (recvAck ?_ he hr) hs
    exact h.congr rfl
  | ack p w =>
    obtain ⟨r, hr, hs⟩ := Option.bind_eq_some_iff.mp hs
    exact (h.recvAck he hr).afterAck hs
  | timeout turns => exact h.timeout hs
  | send turns => exact h.sendMuch hs

/-- Every run keeps the invariant. -/
theorem run (h : a.SackSender) {events : List FullSenderEvent} (he : ∀ e ∈ events, e.Legal)
    (hs : events.foldlM FullTcpSender.step a = some a') : a'.SackSender :=
  Run.foldlM_invariant (fun e hmem _ _ h hstep => h.step (he e hmem) hstep) h hs

theorem start (hkind : a.kind = .sack) (hseg : 0 < a.maxseg_) : a.start.SackSender :=
  ⟨hkind, hseg, [], holds_new (-1)⟩

end SackSender

/-- **When `nxt_tseq` avoids what was reported.**  In every state that a SACK sender reaches and
that is in recovery, `nxt_tseq` returns; and what it returns lies in no block of the queue, if
and only if the first hole from `h_seqno_` on is to be filled or `t_seqno_` lies in no block. -/
theorem nxtTseq_iff (hkind : a.kind = .sack) (hseg : 0 < a.maxseg_)
    {events : List FullSenderEvent} (he : ∀ e ∈ events, e.Legal)
    (hrun : events.foldlM FullTcpSender.step a.start = some a') (hrec : a'.highest_ack_ < a'.recover_) :
    ∃ b n, a'.nxtTseq = some (b, n) ∧
      (¬ a'.sq_.Reported n ↔ a'.ToFill a'.h_seqno_ ∨ ¬ a'.sq_.Reported a'.t_seqno_) := by
  have hinv := (SackSender.start hkind hseg).run he hrun
  obtain ⟨xs, hq⟩ := hinv.holds
  exact nxtTseq_spec hq hinv.maxseg_pos hinv.kind hrec

/-- A context in which the sender sends in these turns, and nothing else happens. -/
def quietly (turns : List (Option Output)) : AckContext :=
  ⟨false, true, false, none, true, none, [], turns⟩

/-- The start of a run: the handshake, a window of two segments, and a timeout, at which the
first one is sent again. -/
def timedOut : List FullSenderEvent :=
  [.send [some ⟨1, false, false⟩],
    .synAck ⟨1, 0, false, true, false, false, []⟩ false
      (quietly [some ⟨536, false, false⟩, some ⟨536, false, false⟩]),
    .timeout [some ⟨536, false, false⟩]]

/-- A late ACK, with a SACK block for the second segment. -/
def lateAck : FullSenderEvent :=
  .ack ⟨1, 0, false, false, false, false, [(537, 1073)]⟩ (quietly [])

theorem nxtTseq_iff_timedOut :
    ∃ a', timedOut.foldlM FullTcpSender.step (default .sack).start = some a' ∧
      ∃ b n, a'.nxtTseq = some (b, n) ∧
        (¬ a'.sq_.Reported n ↔ a'.ToFill a'.h_seqno_ ∨ ¬ a'.sq_.Reported a'.t_seqno_) := by
  have hsome : (timedOut.foldlM FullTcpSender.step (default .sack).start).isSome = true := by
    decide +kernel
  obtain ⟨a', hrun⟩ := Option.isSome_iff_exists.mp hsome
  have hrec : ((timedOut.foldlM FullTcpSender.step (default .sack).start).map fun a =>
      decide (a.highest_ack_ < a.recover_)) = some true := by decide +kernel
  rw [hrun] at hrec
  refine ⟨a', hrun, nxtTseq_iff rfl (by decide) ?_ hrun (of_decide_eq_true (Option.some_inj.mp hrec))⟩
  intro e he
  fin_cases he
  · trivial
  · exact fun hfin => absurd hfin (by decide)
  · trivial

/-- The late ACK makes the sender send what it reports: there is no hole above the block, and
`t_seqno_` is its first number. -/
theorem nxtTseq_reported :
    ¬ ∀ a', (timedOut ++ [lateAck]).foldlM FullTcpSender.step (default .sack).start = some a' →
      a'.highest_ack_ < a'.recover_ → ∀ b n, a'.nxtTseq = some (b, n) → ¬ a'.sq_.Reported n := by
  intro hclaim
  have hrun : ((timedOut ++ [lateAck]).foldlM FullTcpSender.step (default .sack).start).map
      (fun a => decide (a.highest_ack_ < a.recover_) &&
        a.nxtTseq.any fun r => decide (a.sq_.Reported r.2)) = some true := by decide +kernel
  obtain ⟨a', hrun, htest⟩ := Option.map_eq_some_iff.mp hrun
  obtain ⟨hrec, hany⟩ := (Bool.and_eq_true _ _).mp htest
  obtain ⟨⟨b, n⟩, hnxt, hrep⟩ := (Option.any_eq_true _ _).mp hany
  exact hclaim a' hrun (of_decide_eq_true hrec) b n hnxt (of_decide_eq_true hrep)

end FullTcpSender

end Ns2.Tcp
