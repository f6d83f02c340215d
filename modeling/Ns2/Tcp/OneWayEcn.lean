import Ns2.Tcp.FullEcn
import Ns2.Tcp.OneWaySender

/-!
# Reactions to marks of a one-way sender

The sender of `tcp/tcp.cc` reacts to marks at most once in a window, unless F-RTO finds a
timeout to be spurious after a reaction.

* `later_sendMuch`, `later_dupackAction`, `later_frtoStep` — what is not a reaction.
* `Reverts` — the ACK that makes a timeout spurious, after a reaction.
* `ok_step` — every other event keeps the invariant.
* `oncePerWindow_run` — every run of both kinds of senders.
* `not_oncePerWindow` — a run with two reactions in a window.
-/

namespace Ns2.Tcp

namespace OneWaySender

open Guard

variable {a a' b : OneWaySender}

/-- What decides whether the sender reacts to a mark. -/
def guard (a : OneWaySender) : Guard := a.toTcpSender.guard

/-! ## The window -/

@[simp] theorem guard_slowdown (a : OneWaySender) (how : ℕ) : (a.slowdown how).guard = a.guard :=
  TcpSender.guard_slowdown a.toTcpSender how

@[simp] theorem guard_rttUpdate (a : OneWaySender) (ticks : ℤ) : (a.rttUpdate ticks).guard = a.guard :=
  TcpSender.guard_rttUpdate a.toTcpSender ticks

@[simp] theorem guard_resetRtxTimer (a : OneWaySender) (mild backoff : Bool) :
    (a.resetRtxTimer mild backoff).guard = a.guard := by
  have hback : (if backoff then a.rttBackoff else a).guard = a.guard := by
    split
    · exact TcpSender.guard_rttBackoff a.toTcpSender
    · rfl
  unfold resetRtxTimer
  simp only
  split
  · exact hback
  · exact hback

theorem guard_opencwnd (h : a.opencwnd = some a') : a'.guard = a.guard := by
  obtain ⟨c, hc, rfl⟩ := Option.map_eq_some_iff.mp h
  exact TcpSender.guard_opencwnd hc

/-! ## Sending -/

/-- `output` raises `maxseq_` at most. -/
theorem later_output (a : OneWaySender) (seqno : ℤ) (t : OneWayTurn) :
    Later a.guard (a.output seqno t).guard := by
  obtain ⟨b, hb, hbg⟩ : ∃ b : OneWaySender,
      b = (if a.cong_action_ ∧ (¬ seqno < a.maxseq_ ∨ a.SetCWRonRetransmit_) then
        { a with cong_action_ := false } else a) ∧ b.guard = a.guard := by
    refine ⟨_, rfl, ?_⟩
    split <;> rfl
  obtain ⟨c, hc, hcg⟩ : ∃ c : OneWaySender,
      c = (if seqno = 0 ∧ b.syn_ then
        { b with
          curseq_ := if b.maxseq_ = -1 then b.curseq_ + 1 else b.curseq_
          syn_connects_ := b.syn_connects_ + 1 } else b) ∧ c.guard = a.guard := by
    refine ⟨_, rfl, ?_⟩
    split
    · exact hbg
    · exact hbg
  unfold output
  simp only [← hb, ← hc]
  rw [← hcg]
  split
  · exact Later.refl _
  · refine ⟨rfl, ?_, Or.inl le_rfl, id⟩
    show c.maxseq_ ≤ if seqno > c.maxseq_ then seqno else c.maxseq_
    split <;> omega

@[simp] theorem guard_halve (a : OneWaySender) (n : ℕ) : (a.halve n).guard = a.guard := by
  induction n generalizing a with
  | zero => rfl
  | succ n ih => exact (ih _).trans (guard_slowdown a _)

theorem guard_idleCut (a : OneWaySender) (t : OneWayTurn) : (a.idleCut t).guard = a.guard := by
  unfold idleCut
  split
  · exact (guard_halve _ _).trans (guard_slowdown a _)
  · rfl

theorem guard_countUsed (a : OneWaySender) : a.countUsed.guard = a.guard := by
  unfold countUsed
  simp only
  split <;> rfl

theorem guard_limitedCut (a : OneWaySender) (t : OneWayTurn) : (a.limitedCut t).guard = a.guard := by
  unfold limitedCut
  split
  · exact (guard_slowdown _ (closeCwndHalfWay ||| tcpIdle)).trans (guard_slowdown a _)
  · rfl

theorem guard_processQoptionAfterSend (a : OneWaySender) (t : OneWayTurn) :
    (a.processQoptionAfterSend t).guard = a.guard := by
  have hidle := guard_idleCut a t
  unfold processQoptionAfterSend
  simp only
  split
  · exact hidle
  · split
    · exact ((guard_limitedCut _ t).trans (guard_countUsed _)).trans hidle
    · exact hidle

theorem later_sendNext (a : OneWaySender) (t : OneWayTurn) :
    Later a.guard (a.sendNext t).guard := by
  have hout := later_output a a.t_seqno_ t
  unfold sendNext
  simp only
  split
  · exact hout.trans (later_of_eq (guard_processQoptionAfterSend _ t))
  · exact hout

/-- `send_much` raises `maxseq_` at most. -/
theorem later_sendMuch (a : OneWaySender) (turns : List OneWayTurn) :
    Later a.guard (a.sendMuch turns).guard := by
  induction turns generalizing a with
  | nil => exact Later.refl _
  | cons t turns ih =>
    unfold sendMuch
    split
    · simp only
      split
      · exact later_sendNext a t
      · exact (later_sendNext a t).trans (ih _)
    · exact Later.refl _

theorem later_sendOne (a : OneWaySender) (t : OneWayTurn) : Later a.guard (a.sendOne t).guard := by
  unfold sendOne
  split
  · exact later_sendNext a t
  · exact Later.refl _

/-! ## ACKs -/

theorem guard_recvStart {p : OneWayAck} {w : OneWayContext} (h : a.recvStart p w = some a') :
    a'.guard = a.guard := by
  obtain ⟨b, hb, h⟩ := Option.bind_eq_some_iff.mp h
  have hbg : b.guard = a.guard := by
    split at hb
    · unfold endQuickStart at hb
      simp only at hb
      split at hb
      · obtain ⟨c, -, rfl⟩ := Option.map_eq_some_iff.mp hb
        rfl
      · cases hb
        rfl
    · cases hb
      rfl
  rw [← hbg]
  split at h
  · unfold processQuickStart at h
    simp only at h
    split at h
    · cases h
      rfl
    · obtain ⟨c, -, rfl⟩ := Option.map_eq_some_iff.mp h
      split <;> rfl
  · cases h
    rfl

@[simp] theorem guard_endBackoff (a : OneWaySender) (p : OneWayAck) :
    (a.endBackoff p).guard = a.guard := by
  unfold endBackoff
  split <;> rfl

theorem guard_newackRtt (a : OneWaySender) (p : OneWayAck) (w : OneWayContext) :
    (a.newackRtt p w).guard = a.guard := by
  obtain ⟨b, hb, hbg⟩ : ∃ b : OneWaySender,
      b = (if a.ts_option_ then
        if (a.rttUpdate w.ts_rtt).ts_resetRTO_ then (a.rttUpdate w.ts_rtt).endBackoff p
        else a.rttUpdate w.ts_rtt else a) ∧ b.guard = a.guard := by
    refine ⟨_, rfl, ?_⟩
    split
    · split <;> simp
    · rfl
  unfold newackRtt
  simp only [← hb]
  split
  · rfl
  · split
    · exact hbg
    · split <;> simp [hbg]

theorem guard_newack (a : OneWaySender) (p : OneWayAck) (w : OneWayContext) :
    (a.newack p w).guard = a.guard := guard_newackRtt _ p w

theorem guard_burstStep (a : OneWaySender) (p : OneWayAck) : (a.burstStep p).guard = a.guard := by
  unfold burstStep
  split <;> rfl

theorem guard_ectStep (a : OneWaySender) (p : OneWayAck) : (a.ectStep p).guard = a.guard := by
  unfold ectStep
  split <;> rfl

theorem guard_closeStep (a : OneWaySender) : a.closeStep.guard = a.guard := by
  unfold closeStep
  split <;> rfl

/-- The end of `recv_newack_helper`; a spurious timeout takes `recover_` back. -/
theorem later_frtoStep (h : a.guard.frto = 2 → a.guard.timedOut = true) :
    Later a.guard a.frtoStep.guard := by
  unfold frtoStep
  split
  · split
    · exact ⟨rfl, le_rfl, Or.inl le_rfl, id⟩
    · split
      · exact ⟨rfl, le_rfl, Or.inl le_rfl, id⟩
      · exact ⟨rfl, le_rfl, Or.inl le_rfl, id⟩
  · split
    · rename_i htwo
      exact ⟨rfl, le_rfl, Or.inr (Or.inr (h htwo)), id⟩
    · exact Later.refl _

/-- `recv_newack_helper`. -/
theorem later_recvNewackHelper {p : OneWayAck} {w : OneWayContext}
    (hfrto : a.guard.frto = 2 → a.guard.timedOut = true) (h : a.recvNewackHelper p w = some a') :
    Later a.guard a'.guard := by
  unfold recvNewackHelper at h
  obtain ⟨c, hc, hcg⟩ : ∃ c : OneWaySender,
      c = (if (a.newack p w).qs_window_ ≠ 0 ∧ (a.newack p w).highest_ack_ ≥ (a.newack p w).qs_window_
        then { a.newack p w with qs_window_ := 0 } else a.newack p w) ∧ c.guard = a.guard := by
    refine ⟨_, rfl, ?_⟩
    split
    · exact guard_newack a p w
    · exact guard_newack a p w
  simp only [← hc] at h
  obtain ⟨b, hb, rfl⟩ := Option.map_eq_some_iff.mp h
  have hbg : b.guard = a.guard := by
    split at hb
    · exact (guard_opencwnd hb).trans hcg
    · cases hb
      exact hcg
  have hsteps : ((b.burstStep p).ectStep p).closeStep.guard = a.guard :=
    (((guard_closeStep _).trans (guard_ectStep _ p)).trans (guard_burstStep b p)).trans hbg
  have hlater := later_frtoStep (a := ((b.burstStep p).ectStep p).closeStep) (hsteps ▸ hfrto)
  rwa [hsteps] at hlater

theorem later_recvFrtoHelper (a : OneWaySender) (p : OneWayAck) :
    Later a.guard (a.recvFrtoHelper p).guard := by
  unfold recvFrtoHelper
  split
  · exact ⟨rfl, le_rfl, Or.inl le_rfl, id⟩
  · exact Later.refl _

/-- The last action becomes that of a duplicate ACK, and the window is cut. -/
theorem later_dupackCut (a : OneWaySender) (how : ℕ) : Later a.guard
    (({ a with last_cwnd_action_ := .dupack } : OneWaySender).slowdown how).guard := by
  rw [guard_slowdown]
  exact ⟨rfl, le_rfl, Or.inl le_rfl, fun hto => by simp [guard, TcpSender.guard] at hto⟩

theorem later_lossQuickStart (a : OneWaySender) (t : OneWayTurn) :
    Later a.guard (a.lossQuickStart t).1.guard := by
  unfold lossQuickStart
  split
  · have hcut := guard_slowdown a closeCwndInit
    have hout := later_output ({ a.slowdown closeCwndInit with qs_window_ := 0 } : OneWaySender)
      (a.last_ack_ + 1) t
    exact (later_of_eq hcut).trans hout
  · exact Later.refl _

theorem later_tahoeAction (a : OneWaySender) (t : OneWayTurn) :
    Later a.guard (a.tahoeAction t).guard := by
  have hmark : Later a.guard ({ a with recover_ := a.maxseq_ } : OneWaySender).guard :=
    ⟨rfl, le_rfl, Or.inr (Or.inl le_rfl), id⟩
  have hloss := hmark.trans (later_lossQuickStart _ t)
  unfold tahoeAction
  simp only
  rw [guard_resetRtxTimer]
  split
  · exact hloss
  · exact hloss.trans (later_dupackCut _ _)

/-- `dupack_action`. -/
theorem later_dupackAction (a : OneWaySender) (t : OneWayTurn) :
    Later a.guard (a.dupackAction t).guard := by
  unfold dupackAction
  simp only
  split
  · exact later_tahoeAction a t
  · split
    · rw [guard_resetRtxTimer]
      exact later_dupackCut a closeCwndOne
    · split
      · exact Later.refl _
      · exact later_tahoeAction a t

theorem later_tcpEln (a : OneWaySender) (p : OneWayAck) (w : OneWayContext) :
    Later a.guard (a.tcpEln p w).guard := by
  have hout := later_output ({ a with dupacks_ := a.dupacks_ + 1 } : OneWaySender) (a.last_ack_ + 1)
    w.one
  have hsend := later_sendMuch ({ a with dupacks_ := a.dupacks_ + 1 } : OneWaySender) w.turns
  unfold tcpEln
  simp only
  split
  · exact hout
  · exact hsend

theorem later_recvDup (a : OneWaySender) (p : OneWayAck) (w : OneWayContext) :
    Later a.guard (a.recvDup p w).guard := by
  have hdup := later_dupackAction ({ a with dupacks_ := a.dupacks_ + 1 } : OneWaySender) w.one
  have hone := later_sendOne ({ a with dupacks_ := a.dupacks_ + 1 } : OneWaySender) w.one
  unfold recvDup
  simp only
  split
  · exact later_tcpEln a p w
  · refine Later.trans ?_ (later_sendMuch _ w.turns)
    split
    · exact hdup
    · split
      · exact hone
      · exact Later.refl _

/-! ## Events -/

/-- An ACK of new data makes a timeout spurious after a reaction to a mark. -/
def Reverts (a : OneWaySender) (p : OneWayAck) : Prop :=
  p.seqno > a.last_ack_ ∧ a.frto_ = 2 ∧
    (a.last_cwnd_action_ ≠ .timeout ∨ (p.ecnecho = true ∧ a.ecn_ = true))

/-- The event is not such an ACK. -/
def Keeps (a : OneWaySender) : OneWayEvent → Prop
  | .recv p w => w.stale = false → ¬ a.Reverts p
  | _ => True

@[simp] theorem recvFrtoHelper_last_ack_ (a : OneWaySender) (p : OneWayAck) :
    (a.recvFrtoHelper p).last_ack_ = a.last_ack_ := by
  unfold recvFrtoHelper
  split <;> rfl

/-- `ecn` does not touch F-RTO. -/
theorem guard_frto_ecn (a : OneWaySender) (seqno : ℤ) :
    (a.ecn seqno).guard.frto = a.guard.frto := by
  show (a.toTcpSender.ecn seqno).guard.frto = a.toTcpSender.guard.frto
  rw [TcpSender.guard_ecn]
  split <;> rfl

theorem recvStart_fields {p : OneWayAck} {w : OneWayContext} (h : a.recvStart p w = some a') :
    a'.last_ack_ = a.last_ack_ ∧ a'.ecn_ = a.ecn_ := by
  obtain ⟨b, hb, h⟩ := Option.bind_eq_some_iff.mp h
  have hbf : b.last_ack_ = a.last_ack_ ∧ b.ecn_ = a.ecn_ := by
    split at hb
    · unfold endQuickStart at hb
      simp only at hb
      split at hb
      · obtain ⟨c, -, rfl⟩ := Option.map_eq_some_iff.mp hb
        exact ⟨rfl, rfl⟩
      · cases hb
        exact ⟨rfl, rfl⟩
    · cases hb
      exact ⟨rfl, rfl⟩
  rw [← hbf.1, ← hbf.2]
  split at h
  · unfold processQuickStart at h
    simp only at h
    split at h
    · cases h
      exact ⟨rfl, rfl⟩
    · obtain ⟨c, -, rfl⟩ := Option.map_eq_some_iff.mp h
      split <;> exact ⟨rfl, rfl⟩
  · cases h
    exact ⟨rfl, rfl⟩

/-- `recv` for an ACK of new data. -/
theorem later_recvNew {p : OneWayAck} {w : OneWayContext}
    (hfrto : a.guard.frto = 2 → a.guard.timedOut = true) (h : a.recvNew p w = some a') :
    Later a.guard a'.guard := by
  obtain ⟨b, hb, h⟩ := Option.bind_eq_some_iff.mp h
  obtain ⟨c, hc, rfl⟩ := Option.map_eq_some_iff.mp h
  have hcg : c.guard = b.guard := by
    split at hc
    · obtain ⟨v, -, rfl⟩ := Option.map_eq_some_iff.mp hc
      rfl
    · cases hc
      rfl
  exact ((later_recvNewackHelper hfrto hb).trans (later_of_eq hcg)).trans (later_sendMuch c w.turns)

/-- An ACK that does not revert a timeout keeps the invariant. -/
theorem ok_recv {p : OneWayAck} {w : OneWayContext} (hok : a.guard.Ok)
    (hkeep : w.stale = false → ¬ a.Reverts p) (h : a.recv p w = some a') : a'.guard.Ok := by
  obtain ⟨b, hb, h⟩ := Option.bind_eq_some_iff.mp h
  have hbg := guard_recvStart hb
  obtain ⟨hlast, hecn⟩ := recvStart_fields hb
  rw [← hbg] at hok
  split at h
  · cases h
    exact hok
  · rename_i hstale
    have hstale : w.stale = false := by simpa using hstale
    obtain ⟨c, hc, hcok, hclast, hcguard⟩ : ∃ c : OneWaySender,
        c = (if p.ecnecho ∧ b.ecn_ then b.ecn p.seqno else b) ∧ c.guard.Ok ∧
          c.last_ack_ = a.last_ack_ ∧ (¬ (p.ecnecho = true ∧ a.ecn_ = true) → c.guard = a.guard) := by
      refine ⟨_, rfl, ?_⟩
      split
      · rename_i hmark
        rw [hecn] at hmark
        exact ⟨TcpSender.Ok.guard_ecn hok p.seqno, hlast, fun hnot => absurd hmark hnot⟩
      · exact ⟨hok, hlast, fun _ => hbg⟩
    have hcfrto : c.guard.frto = a.frto_ := by
      rw [hc]
      split
      · exact (guard_frto_ecn b p.seqno).trans (congrArg Guard.frto hbg)
      · exact congrArg Guard.frto hbg
    simp only [← hc] at h
    have hhelper := later_recvFrtoHelper c p
    split at h
    · -- new data
      rename_i hnew
      rw [recvFrtoHelper_last_ack_, hclast] at hnew
      have hsame : c.recvFrtoHelper p = c := by
        unfold recvFrtoHelper
        rw [if_neg fun hdup => by
          have := hdup.1
          omega]
      rw [hsame] at h
      refine hcok.later (later_recvNew (fun htwo => ?_) h)
      rw [hcfrto] at htwo
      have hnot : ¬ (a.last_cwnd_action_ ≠ .timeout ∨ (p.ecnecho = true ∧ a.ecn_ = true)) :=
        fun hor => hkeep hstale ⟨hnew, htwo, hor⟩
      push Not at hnot
      rw [hcguard fun hmark => absurd hmark.2 (by simpa using hnot.2 hmark.1)]
      exact decide_eq_true hnot.1
    · split at h
      · cases h
        exact hcok.later (hhelper.trans (later_recvDup _ p w))
      · cases h
        refine hcok.later (hhelper.trans ?_)
        split
        · exact later_sendMuch _ w.turns
        · exact Later.refl _

theorem cuts_firstLost (a : OneWaySender) : a.firstLost.cuts = a.cuts := by
  unfold firstLost
  split
  · rfl
  · split <;> rfl

theorem cuts_beginFrto (a : OneWaySender) : a.beginFrto.cuts = a.cuts := by
  unfold beginFrto
  split <;> rfl

theorem cuts_timeoutCut (a : OneWaySender) : a.timeoutCut.cuts = a.cuts := by
  have hlost := cuts_firstLost ({ a with recover_ := a.maxseq_ } : OneWaySender)
  unfold timeoutCut
  simp only
  split
  · exact hlost
  · split
    · exact (cuts_beginFrto _).trans hlost
    · exact (cuts_beginFrto _).trans hlost

/-- A timeout keeps the invariant. -/
theorem ok_timeout (hok : a.guard.Ok) (turns : List OneWayTurn) : (a.timeout turns).guard.Ok := by
  unfold timeout
  simp only
  refine Guard.Ok.later ?_ (later_sendMuch _ turns)
  refine hok.timeout ?_
  have hcuts : (if a.timeoutStart.highest_ack_ = a.timeoutStart.maxseq_ ∧
      ¬ a.timeoutStart.slow_start_restart_ then a.timeoutStart else a.timeoutStart.timeoutCut).cuts
        = a.cuts := by
    split
    · rfl
    · exact cuts_timeoutCut a.timeoutStart
  have hreset := fun b : OneWaySender => congrArg Guard.cuts (guard_resetRtxTimer b false
    (¬ (b.highest_ack_ = b.maxseq_ ∧ b.restart_bugfix_)))
  exact congrArg (· ++ [.timeout]) ((hreset _).trans hcuts)

/-- Every event but a spurious timeout after a reaction keeps the invariant. -/
theorem ok_step {e : OneWayEvent} (hok : a.guard.Ok) (hkeep : a.Keeps e) (h : a.step e = some a') :
    a'.guard.Ok := by
  cases e with
  | recv p w => exact ok_recv hok hkeep h
  | timeout turns =>
    cases h
    exact ok_timeout hok turns
  | timeoutNonrtx turns =>
    cases h
    exact hok.later (later_sendMuch a turns)
  | advanceby delta turns =>
    cases h
    have hsend := later_sendMuch ({ a with
      curseq_ := a.curseq_ + delta, closed_ := if delta > 0 then false else a.closed_ } :
        OneWaySender) turns
    exact hok.later hsend
  | sendmsg nbytes turns =>
    cases h
    refine Guard.Ok.later ?_ (later_sendMuch _ turns)
    exact hok
  | persist other =>
    cases h
    exact hok

/-- None of the events is a spurious timeout after a reaction. -/
def AllKeep (a : OneWaySender) : List OneWayEvent → Prop
  | [] => True
  | e :: events => a.Keeps e ∧ (a.step e).elim True fun a' => a'.AllKeep events

instance (a : OneWaySender) (p : OneWayAck) : Decidable (a.Reverts p) :=
  inferInstanceAs (Decidable (_ ∧ _))

instance (a : OneWaySender) : (e : OneWayEvent) → Decidable (a.Keeps e)
  | .recv p w => inferInstanceAs (Decidable (w.stale = false → ¬ a.Reverts p))
  | .timeout _ => isTrue trivial
  | .timeoutNonrtx _ => isTrue trivial
  | .advanceby _ _ => isTrue trivial
  | .sendmsg _ _ => isTrue trivial
  | .persist _ => isTrue trivial

instance decidableAllKeep (a : OneWaySender) : (events : List OneWayEvent) →
    Decidable (a.AllKeep events)
  | [] => isTrue trivial
  | e :: events =>
    have : Decidable ((a.step e).elim True fun a' => a'.AllKeep events) :=
      match a.step e with
      | none => isTrue trivial
      | some a' => decidableAllKeep a' events
    inferInstanceAs (Decidable (_ ∧ _))

/-- A run of such events keeps the invariant. -/
theorem ok_run {events : List OneWayEvent} (hok : a.guard.Ok) (hkeep : a.AllKeep events)
    (h : events.foldlM step a = some a') : a'.guard.Ok := by
  induction events generalizing a with
  | nil =>
    cases h
    exact hok
  | cons e events ih =>
    rw [List.foldlM_cons] at h
    obtain ⟨b, hb, h⟩ := Option.bind_eq_some_iff.mp h
    have hrest := hkeep.2
    rw [hb] at hrest
    exact ih (ok_step hok hkeep.1 hb) hrest h

/-- A turn of `send_much` in which the clock decides nothing. -/
def turn : OneWayTurn := ⟨false, none, false⟩

/-- The ACK of packet `seqno`; up to eight packets are sent. -/
def ackEvent (seqno : ℤ) (ecnecho : Bool) : OneWayEvent :=
  .recv ⟨seqno, ecnecho, false, false, false⟩
    ⟨false, none, 0, some 5, turn, List.replicate 8 turn⟩

/-- Packets 0 to 2 are acknowledged; then the timer goes off. -/
def untilTimeout : List OneWayEvent :=
  [.advanceby 100 [turn], ackEvent 0 false, ackEvent 1 false, ackEvent 2 false,
    .timeout (List.replicate 8 turn)]

end OneWaySender

/-! ## Runs -/

/-- **At most one reaction to marks in a window.**  In every run of a two-way sender of any
class, and in every run of a one-way sender in which no ACK of new data makes a timeout
spurious after a reaction to a mark: between two reactions with no timeout between them, the
acknowledgment has passed the value that `maxseq_` had at the first. -/
theorem oncePerWindow_run (t t' : FullTcpSender) (sends : List FullSenderEvent)
    (a b a' : OneWaySender) (events : List OneWayEvent) :
    (sends.foldlM FullTcpSender.step t.start = some t' → OncePerWindow t'.cuts) ∧
    (a.start = some b → b.AllKeep events → events.foldlM OneWaySender.step b = some a' →
      OncePerWindow a'.cuts) := by
  constructor
  · intro h
    exact (FullTcpSender.ok_run (Guard.ok_of_nil rfl) h).once
  · intro hb hkeep h
    have hcuts : b.cuts = [] := by
      obtain ⟨cwnd, -, rfl⟩ := Option.map_eq_some_iff.mp hb
      rfl
    exact (OneWaySender.ok_run (Guard.ok_of_nil hcuts) hkeep h).once

/-- A SACK sender that sends its `SYN`, and a one-way sender with a timeout and a marked ACK
after it. -/
theorem oncePerWindow_run_marked :
    (∃ a', [FullSenderEvent.send [some ⟨1, false, false⟩]].foldlM FullTcpSender.step
        (FullTcpSender.default .sack).start = some a' ∧ OncePerWindow a'.cuts) ∧
      ∃ b a', OneWaySender.default.start = some b ∧
        (OneWaySender.untilTimeout ++ [OneWaySender.ackEvent 3 true]).foldlM OneWaySender.step b
          = some a' ∧ a'.cuts = [.timeout, .ecn 3 6] ∧ OncePerWindow a'.cuts := by
  obtain ⟨t', ht'⟩ := Option.isSome_iff_exists.mp
    (show ([FullSenderEvent.send [some ⟨1, false, false⟩]].foldlM FullTcpSender.step
      (FullTcpSender.default .sack).start).isSome by decide +kernel)
  obtain ⟨b, hb⟩ := Option.isSome_iff_exists.mp
    (show OneWaySender.default.start.isSome by decide +kernel)
  have hkeep : (OneWaySender.default.start).all fun b =>
      b.AllKeep (OneWaySender.untilTimeout ++ [OneWaySender.ackEvent 3 true]) := by decide +kernel
  have hcuts : (OneWaySender.default.start.bind
      ((OneWaySender.untilTimeout ++ [OneWaySender.ackEvent 3 true]).foldlM OneWaySender.step)).map
        (fun a => a.cuts) = some [.timeout, .ecn 3 6] := by decide +kernel
  rw [hb, Option.bind_some] at hcuts
  obtain ⟨a', ha', hcuts⟩ := Option.map_eq_some_iff.mp hcuts
  rw [hb, Option.all_some, decide_eq_true_eq] at hkeep
  obtain ⟨honce, honce'⟩ := oncePerWindow_run _ t' _ _ b a' _
  exact ⟨⟨t', ht', honce ht'⟩, b, a', hb, ha', hcuts, honce' hb hkeep ha'⟩

/-- A one-way sender with F-RTO: after the timeout the ACKs of packets 3, 4 and 5, the first and
the last of them marked.  Both marks are reacted to, and packet 6 had been sent at the first. -/
theorem not_oncePerWindow :
    ¬ ∀ (a b a' : OneWaySender) (events : List OneWayEvent), a.start = some b →
      events.foldlM OneWaySender.step b = some a' → OncePerWindow a'.cuts := by
  intro hclaim
  have hcuts : (OneWaySender.default.start.bind ((OneWaySender.untilTimeout ++
      [OneWaySender.ackEvent 3 true, OneWaySender.ackEvent 4 false,
        OneWaySender.ackEvent 5 true]).foldlM OneWaySender.step)).map (fun a => a.cuts)
      = some [.timeout, .ecn 3 6, .ecn 5 10] := by decide +kernel
  obtain ⟨a', hrun, hcuts⟩ := Option.map_eq_some_iff.mp hcuts
  obtain ⟨b, hb, hrun⟩ := Option.bind_eq_some_iff.mp hrun
  have honce := hclaim _ b a' _ hb hrun
  rw [hcuts] at honce
  exact absurd (honce [.timeout] [] [] 3 6 5 10 rfl (by simp)) (by decide)

end Ns2.Tcp
