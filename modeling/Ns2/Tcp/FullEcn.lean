import Ns2.Lib.Run
import Ns2.Tcp.EcnGuard
import Ns2.Tcp.FullSender

/-!
# Reactions to marks of a two-way sender

Every sender of `tcp/tcp-full.cc` reacts to marks at most once in a window.

* `later_sendMuch`, `later_packAction`, `later_ackAction`, `later_dupackAction` — these only
  raise `recover_`, to `maxseq_`.
* `ok_step` — every event keeps the invariant.
* `oncePerWindow_run` — every run.
-/

namespace Ns2.Tcp

namespace FullTcpSender

open Guard

variable {a a' : FullTcpSender}

/-- What decides whether the sender reacts to a mark. -/
def guard (a : FullTcpSender) : Guard := a.toTcpSender.guard

/-! ## Output -/

@[simp] theorem guard_slowdown (a : FullTcpSender) (how : ℕ) : (a.slowdown how).guard = a.guard :=
  TcpSender.guard_slowdown a.toTcpSender how

theorem later_foutput (a : FullTcpSender) (seqno : ℤ) (o : Output) :
    Later a.guard (a.foutput seqno o).guard := by
  obtain ⟨b, hb, hguard⟩ : ∃ b, b = (if o.restart then a.slowdown closeCwndInit else a) ∧
      b.guard = a.guard := by
    refine ⟨_, rfl, ?_⟩
    split
    · exact guard_slowdown a _
    · rfl
  unfold foutput
  rw [← hb, ← hguard]
  refine ⟨rfl, ?_, Or.inl le_rfl, id⟩
  show b.maxseq_ ≤ if seqno + o.reliable > b.maxseq_ then seqno + o.reliable else b.maxseq_
  split <;> omega

theorem guard_nxtTseq {r : FullTcpSender × ℤ} (h : a.nxtTseq = some r) : r.1.guard = a.guard := by
  unfold nxtTseq at h
  split at h
  · obtain ⟨o, -, rfl⟩ := Option.map_eq_some_iff.mp h
    cases o <;> rfl
  · cases h
    rfl

/-- `send_much` raises `maxseq_` at most. -/
theorem later_sendMuch (turns : List (Option Output)) (h : a.sendMuch turns = some a') :
    Later a.guard a'.guard := by
  induction turns generalizing a with
  | nil =>
    cases h
    exact Later.refl _
  | cons o? turns ih =>
    obtain ⟨r, hr, h⟩ := Option.bind_eq_some_iff.mp h
    have hnxt := guard_nxtTseq hr
    cases o? with
    | none =>
      cases h
      exact later_of_eq hnxt
    | some o =>
      have hout := later_foutput r.1 r.2 o
      rw [hnxt] at hout
      simp only at h
      split at h
      · cases h
        exact hout
      · have hrest := ih h
        exact hout.trans hrest

theorem later_fastRetransmit (a : FullTcpSender) (o? : Option Output) :
    Later a.guard (a.fastRetransmit o?).guard := by
  have hmark : Later a.guard
      ({ a with recover_ := a.maxseq_, last_cwnd_action_ := .dupack } : FullTcpSender).guard :=
    ⟨rfl, le_rfl, Or.inr (Or.inl le_rfl), fun h => by simp [guard, TcpSender.guard] at h⟩
  cases o? with
  | none => exact hmark
  | some o => exact hmark.trans (later_foutput _ _ o)

/-! ## ACKs -/

theorem guard_newack (a : FullTcpSender) (p : AckSegment) (rtt : Option ℤ) :
    (a.newack p rtt).guard = a.guard := by
  unfold newack
  simp only
  split
  · rfl
  · have hrtt : (rtt.elim { a with toDctcpSender := a.toDctcpSender.newack p.ackno }
        ({ a with toDctcpSender := a.toDctcpSender.newack p.ackno } : FullTcpSender).rttUpdate).guard
          = a.guard := by
      cases rtt with
      | none => rfl
      | some ticks => exact TcpSender.guard_rttUpdate _ _
    split
    · exact hrtt
    · exact hrtt

theorem guard_clearSacked (h : a.clearSacked = some a') : a'.guard = a.guard := by
  unfold clearSacked at h
  split at h
  · obtain ⟨q, -, rfl⟩ := Option.map_eq_some_iff.mp h
    rfl
  · cases h
    rfl

/-- `pack_action` of every class. -/
theorem later_packAction {rtx : Option Output} (h : a.packAction rtx = some a') :
    Later a.guard a'.guard := by
  unfold packAction at h
  split at h
  · cases h
    exact Later.refl _
  · cases h
    exact Later.refl _
  · cases h
    exact later_fastRetransmit a rtx
  · obtain ⟨b, hb, rfl⟩ := Option.map_eq_some_iff.mp h
    have hsame := guard_clearSacked hb
    exact later_of_eq hsame

/-- `ack_action` of every class. -/
theorem later_ackAction (h : a.ackAction = some a') : Later a.guard a'.guard := by
  unfold ackAction at h
  split at h
  · cases h
    exact Later.refl _
  · cases h
    exact Later.refl _
  · cases h
    exact Later.refl _
  · obtain ⟨b, hb, rfl⟩ := Option.map_eq_some_iff.mp h
    have hsame := guard_clearSacked hb
    exact later_of_eq hsame

theorem later_slowdown {b : FullTcpSender} (h : Later a.guard b.guard) (how : ℕ) :
    Later a.guard (b.slowdown how).guard :=
  (guard_slowdown b how).symm ▸ h

theorem later_slowdown_dctcp {b : FullTcpSender} (h : Later a.guard b.guard) (how : ℕ) :
    Later a.guard (if b.dctcp_ then b.slowdown how else b).guard := by
  split
  · exact later_slowdown h how
  · exact h

/-- Fields that do not matter are set, and the window is cut. -/
theorem later_fastRetransmit_of_eq {b : FullTcpSender} (rtx : Option Output) (h : b.guard = a.guard) :
    Later a.guard (b.fastRetransmit rtx).guard :=
  h ▸ later_fastRetransmit b rtx

/-- `recover_` is set to `maxseq_`, and the last action to that of a duplicate ACK. -/
theorem later_marked {b : FullTcpSender} (hrec : b.recover_ = a.maxseq_)
    (hmax : b.maxseq_ = a.maxseq_) (hact : b.last_cwnd_action_ ≠ .timeout ∨
      b.last_cwnd_action_ = a.last_cwnd_action_) (hcuts : b.cuts = a.cuts) :
    Later a.guard b.guard := by
  refine ⟨hcuts, hmax.symm.le, Or.inr (Or.inl hrec.symm.le), fun h => ?_⟩
  have hb : b.last_cwnd_action_ = .timeout := by simpa [guard, TcpSender.guard] using h
  have ha : a.last_cwnd_action_ = .timeout := (hact.resolve_left fun hne => hne hb).symm.trans hb
  simp [guard, TcpSender.guard, ha]

theorem later_renoDupackAction (a : FullTcpSender) (rtx : Option Output) :
    Later a.guard (a.renoDupackAction rtx).guard := by
  obtain ⟨b, hb, hguard⟩ : ∃ b : FullTcpSender, b = { a with fastrecov_ := true, rtxbytes_ := 0 } ∧
      b.guard = a.guard := ⟨_, rfl, rfl⟩
  unfold renoDupackAction
  simp only [← hb]
  have hfull : Later a.guard ({ b.slowdown (closeSsthreshHalf ||| closeCwndHalf) with
      recover_ := (b.slowdown (closeSsthreshHalf ||| closeCwndHalf)).maxseq_ } :
        FullTcpSender).guard := by
    have hcut : (b.slowdown (closeSsthreshHalf ||| closeCwndHalf)).guard = a.guard :=
      (guard_slowdown b _).trans hguard
    rw [← hcut]
    exact later_marked rfl rfl (Or.inr rfl) rfl
  split
  · exact hfull.trans (later_fastRetransmit _ rtx)
  · split
    · exact later_fastRetransmit_of_eq rtx ((guard_slowdown b _).trans hguard)
    · split
      · exact later_of_eq hguard
      · exact hfull.trans (later_fastRetransmit _ rtx)

theorem later_tahoeDupackAction {turns : List (Option Output)}
    (h : a.tahoeDupackAction turns = some a') : Later a.guard a'.guard := by
  unfold tahoeDupackAction at h
  have hmark : Later a.guard
      ({ a with
        fastrecov_ := true
        rtxbytes_ := 0
        recover_ := a.maxseq_
        last_cwnd_action_ := .dupack } : FullTcpSender).guard :=
    later_marked rfl rfl (Or.inl (by simp)) rfl
  have hfull := later_slowdown hmark (closeSsthreshHalf ||| closeCwndOne)
  simp only at h
  split at h
  · have hsend := later_sendMuch turns h
    exact hfull.trans hsend
  · split at h
    · cases h
      have hact : Later a.guard
          ({ a with fastrecov_ := true, rtxbytes_ := 0, last_cwnd_action_ := .dupack } :
            FullTcpSender).guard :=
        ⟨rfl, le_rfl, Or.inl le_rfl, fun hto => by simp [guard, TcpSender.guard] at hto⟩
      have hcut := later_slowdown hact closeCwndOne
      exact hcut
    · split at h
      · cases h
        exact Later.refl _
      · have hsend := later_sendMuch turns h
        exact hfull.trans hsend

theorem later_sackDupackAction {rtx : Option Output} {turns : List (Option Output)}
    (h : a.sackDupackAction rtx turns = some a') : Later a.guard a'.guard := by
  obtain ⟨b, hb, hguard⟩ : ∃ b : FullTcpSender,
      b = { a with
        fastrecov_ := true
        rtxbytes_ := 0
        pipe_ := a.maxseq_ - a.highest_ack_ - a.sq_.total_ } ∧
      b.guard = a.guard := ⟨_, rfl, rfl⟩
  unfold sackDupackAction at h
  simp only [← hb] at h
  have hmark : Later (b.slowdown (closeSsthreshHalf ||| closeCwndHalf)).guard
      ({ b.slowdown (closeSsthreshHalf ||| closeCwndHalf) with
        pipectrl_ := true
        recover_ := (b.slowdown (closeSsthreshHalf ||| closeCwndHalf)).maxseq_ } :
          FullTcpSender).guard := later_marked rfl rfl (Or.inr rfl) rfl
  rw [guard_slowdown, hguard] at hmark
  have hfull := hmark.trans (later_fastRetransmit _ rtx)
  split at h
  · have hsend := later_sendMuch turns h
    exact hfull.trans hsend
  · split at h
    · have hact : Later b.guard ({ b with last_cwnd_action_ := .dupack } : FullTcpSender).guard :=
        ⟨rfl, le_rfl, Or.inl le_rfl, fun hto => by simp [guard, TcpSender.guard] at hto⟩
      rw [hguard] at hact
      have hcut := (later_slowdown_dctcp hact (closeSsthreshHalf ||| closeCwndHalf)).trans
        (later_fastRetransmit _ rtx)
      have hsend := later_sendMuch turns h
      rw [hb] at hcut
      exact hcut.trans hsend
    · split at h
      · cases h
        exact later_of_eq hguard
      · have hsend := later_sendMuch turns h
        exact hfull.trans hsend

/-- `dupack_action` of every class. -/
theorem later_dupackAction {rtx : Option Output} {turns : List (Option Output)}
    (h : a.dupackAction rtx turns = some a') : Later a.guard a'.guard := by
  unfold dupackAction at h
  split at h
  · cases h
    exact later_renoDupackAction a rtx
  · cases h
    exact later_renoDupackAction a rtx
  · exact later_tahoeDupackAction h
  · exact later_sackDupackAction h

/-! ## Events -/

/-- A timeout keeps the invariant. -/
theorem ok_timeout {turns : List (Option Output)} (hok : a.guard.Ok) (h : a.timeout turns = some a') :
    a'.guard.Ok := by
  obtain ⟨b, hb, hsend⟩ := Option.bind_eq_some_iff.mp h
  have hreno : a.renoTimeoutAction.guard.Ok := by
    refine hok.timeout ?_
    unfold renoTimeoutAction
    simp only
    split
    · exact congrArg Guard.cuts (TcpSender.guard_rttBackoff _)
    · rfl
  have hb' : b.guard = a.renoTimeoutAction.guard := by
    unfold timeoutAction at hb
    split at hb
    · obtain ⟨q, -, rfl⟩ := Option.map_eq_some_iff.mp hb
      rfl
    · cases hb
      rfl
  exact (hb'.symm ▸ hreno).later (later_sendMuch turns hsend)

theorem guard_processSack {p : AckSegment} (h : a.processSack p = some a') : a'.guard = a.guard := by
  unfold processSack at h
  split at h
  · cases h
    rfl
  · obtain ⟨q, -, rfl⟩ := Option.map_eq_some_iff.mp h
    rfl

theorem guard_recvOld (a : FullTcpSender) (p : AckSegment) (w : AckContext) :
    (a.recvOld p w).1.guard = a.guard := by
  unfold recvOld
  split
  · split
    · rfl
    · simp only
      split
      · rfl
      · split <;> rfl
  · split <;> rfl

/-- The processing of an ACK of new data keeps the invariant. -/
theorem ok_recvNew {p : AckSegment} {w : AckContext} {r : FullTcpSender × AckCall}
    (hok : a.guard.Ok) (h : a.recvNew p w = some r) : r.1.guard.Ok := by
  unfold recvNew at h
  obtain ⟨b, hb, rfl⟩ := Option.map_eq_some_iff.mp h
  have hb' : b.guard.Ok := by
    have hlater : Later (a.newack p w.rtt).guard b.guard := by
      split at hb
      · exact later_packAction hb
      · exact later_ackAction hb
    rw [guard_newack] at hlater
    exact hok.later hlater
  show (if p.ecnecho ∧ ¬ p.syn then b.ecn b.highest_ack_ else b).guard.Ok
  split
  · exact TcpSender.Ok.guard_ecn hb' b.highest_ack_
  · exact hb'

theorem ok_recvAck {p : AckSegment} {w : AckContext} {r : FullTcpSender × AckCall}
    (hok : a.guard.Ok) (h : a.recvAck p w = some r) : r.1.guard.Ok := by
  obtain ⟨b, hb, hguard⟩ : ∃ b : FullTcpSender, b = (if a.dctcp_ then
      { a with toDctcpSender := a.toDctcpSender.updateDctcpAlpha p.ackno p.ecnecho } else a) ∧
        b.guard = a.guard := by
    refine ⟨_, rfl, ?_⟩
    split
    · unfold DctcpSender.updateDctcpAlpha
      simp only
      split <;> rfl
    · rfl
  unfold recvAck at h
  simp only [← hb] at h
  rw [← hguard] at hok
  split at h
  · cases h
    exact (guard_newack b p w.rtt).symm ▸ hok
  · obtain ⟨c, hc, h⟩ := Option.bind_eq_some_iff.mp h
    obtain ⟨d, hd, hd'⟩ : ∃ d : FullTcpSender,
        d = (if c.fastrecov_ ∧ (p.datalen = 0 ∨ p.ackno > c.highest_ack_) then
          { c with pipe_ := c.pipe_ - c.maxseg_ } else c) ∧ d.guard = c.guard := by
      refine ⟨_, rfl, ?_⟩
      split <;> rfl
    simp only [← hd] at h
    rw [← guard_processSack hc, ← hd'] at hok
    split at h
    · cases h
      exact (guard_recvOld d p w).symm ▸ hok
    · split at h
      · cases h
        exact hok
      · exact ok_recvNew hok h

theorem later_afterAck {w : AckContext} {r : FullTcpSender × AckCall} (h : afterAck w r = some a') :
    Later r.1.guard a'.guard := by
  obtain ⟨b, c⟩ := r
  cases c with
  | none => exact later_sendMuch w.turns h
  | dupack => exact later_dupackAction h
  | opencwnd =>
    obtain ⟨c, hc, hsend⟩ := Option.bind_eq_some_iff.mp h
    obtain ⟨d, hd, rfl⟩ := Option.map_eq_some_iff.mp hc
    have hopen := TcpSender.guard_opencwnd hd
    exact (later_of_eq hopen).trans (later_sendMuch w.turns hsend)

/-- Every event keeps the invariant. -/
theorem ok_step {e : FullSenderEvent} (hok : a.guard.Ok) (h : a.step e = some a') : a'.guard.Ok := by
  cases e with
  | syn ect turns =>
    have hsend := later_sendMuch turns h
    exact hok.later hsend
  | synAck p ect w =>
    obtain ⟨r, hr, h⟩ := Option.bind_eq_some_iff.mp h
    refine Guard.Ok.later ?_ (later_afterAck h)
    unfold recvSynAck at hr
    simp only at hr
    split at hr
    · cases hr
      exact hok
    · refine ok_recvNew ?_ hr
      exact hok
  | handshakeAck p marked wait w =>
    obtain ⟨r, hr, h⟩ := Option.bind_eq_some_iff.mp h
    refine Guard.Ok.later (ok_recvAck ?_ hr) (later_afterAck h)
    exact hok
  | ack p w =>
    obtain ⟨r, hr, h⟩ := Option.bind_eq_some_iff.mp h
    exact (ok_recvAck hok hr).later (later_afterAck h)
  | timeout turns => exact ok_timeout hok h
  | send turns => exact hok.later (later_sendMuch turns h)

/-- Every run keeps the invariant. -/
theorem ok_run {events : List FullSenderEvent} (hok : a.guard.Ok)
    (h : events.foldlM step a = some a') : a'.guard.Ok :=
  Run.foldlM_invariant (I := fun a => a.guard.Ok) (fun _ _ _ _ hok hstep => ok_step hok hstep) hok h

end FullTcpSender

end Ns2.Tcp
