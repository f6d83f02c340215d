import Ns2.Mptcp.Report

/-!
# Two connected agents

The subflows of two agents are connected one by one: what is sent on a subflow may arrive at the
subflow with the same number on the other side, in any order, more than once, or not at all.

* `Connection`, `Event` — the two agents, and a step of one of them.
* `Legal` — the packets that arrive have been sent.
* `ackCall`, `Found` — the calls of `mptcp_recv_getack` for `rcv_nxt_`, and that there is a mapping.
* `Got`, `SendsOk`, `StepOk` — the condition under which there always is one.
-/

namespace Ns2.Mptcp

open Ns2.Tcp

/-! ## Runs -/

/-- Two agents, one on each side. -/
structure Connection where
  agent : Bool → MptcpAgent

/-- A step of the agent on one side. -/
structure Event where
  side : Bool
  action : Action

namespace Connection

def new (sub_num_ : Bool → ℕ) (configs : Bool → ℕ → Config) : Connection :=
  ⟨fun side => MptcpAgent.new (sub_num_ side) (configs side)⟩

/-- A subflow of the agent on one side. -/
def subflow (c : Connection) (side : Bool) (id : ℕ) : MpFullTcpAgent := (c.agent side).subflows_ id

/-- Replace the agent on one side. -/
def put (c : Connection) (side : Bool) (s : MptcpAgent) : Connection := ⟨Function.update c.agent side s⟩

@[simp] theorem put_agent (c : Connection) (side : Bool) (s : MptcpAgent) : (c.put side s).agent side = s :=
  Function.update_self _ _ _

theorem put_agent_of_ne (c : Connection) {side b : Bool} (hb : b ≠ side) (s : MptcpAgent) :
    (c.put side s).agent b = c.agent b :=
  Function.update_of_ne hb _ _

def step (c : Connection) (e : Event) : Option Connection :=
  ((c.agent e.side).step e.action).map (c.put e.side)

/-- A step of a run; nothing happens after a call of `abort()`. -/
def exec (c? : Option Connection) (e : Event) : Option Connection := c?.bind (step · e)

/-- A packet that arrives was sent by the other side, and a subflow that is told to listen is not in
use. -/
def ActionLegal (c : Connection) (side : Bool) : Action → Prop
  | .subflow id (.recv p _ _) => p ∈ (c.subflow (!side) id).sent
  | .subflow id .listen => (c.subflow side id).state_ = .closed
  | _ => True

instance (c : Connection) (side : Bool) : ∀ a, Decidable (c.ActionLegal side a)
  | .sendmsg _ => isTrue trivial
  | .sendControl _ => isTrue trivial
  | .subflow id (.recv p _ _) => inferInstanceAs (Decidable (p ∈ (c.subflow (!side) id).sent))
  | .subflow id .listen => inferInstanceAs (Decidable ((c.subflow side id).state_ = .closed))
  | .subflow _ (.foutput _) => isTrue trivial
  | .subflow _ (.timer _ _) => isTrue trivial
  | .subflow _ .usrclosed => isTrue trivial

def Legal (c? : Option Connection) (e : Event) : Prop := ∀ c ∈ c?, c.ActionLegal e.side e.action

instance (c? : Option Connection) (e : Event) : Decidable (Legal c? e) :=
  inferInstanceAs (Decidable (∀ c ∈ c?, _))

end Connection

/-! ## The calls of `mptcp_recv_getack` -/

namespace MpFullTcpAgent

variable (t : MpFullTcpAgent)

/-- The value of `rcv_nxt_` for which a step calls `mptcp_recv_getack`: in `foutput`, unless the packet is
a `SYN`, and for the ACK that ends the handshake. -/
def ackCall : SubflowAction → Option ℤ
  | .foutput seqno =>
    if t.outputNow seqno = true ∧ t.outputFlags seqno &&& thSyn = 0 then some t.rcv_nxt_ else none
  | .recv p _ _ =>
    if t.state_ = .synSent ∧ p.has thSyn = true ∧ p.has thAck = true ∧
        ¬ (p.ackno ≤ t.iss_ ∨ p.ackno > t.maxseq_) then
      some (p.seqno + p.datalen + 1)
    else none
  | _ => none

/-- The sequence number `e` is acknowledged, or a mapping has come for it. -/
def Got (e : ℤ) : Prop := e ≤ t.rcv_nxt_ ∨ ∃ m ∈ t.mptcp_recv_dsnmap_, m.Meets e

instance (e : ℤ) : Decidable (t.Got e) := inferInstanceAs (Decidable (_ ∨ _))

/-- The condition on a call of `foutput` that sends a packet to the subflow `u`: a `SYN` is the first
packet, without data, and data ends where the mapping that goes with it ends, or before, unless the other
side has a mapping for this end. -/
def SendsOk (u : MpFullTcpAgent) (seqno : ℤ) : Prop :=
  t.outputNow seqno = true →
    (t.state_ ≠ .closed ∧ t.state_ ≠ .listen) ∧
    (t.outputFlags seqno &&& thSyn ≠ 0 → seqno = t.iss_ ∧ t.outputLen seqno = 0) ∧
    (0 < t.outputLen seqno →
      (∃ m ∈ (attach seqno t.mptcp_dsnmap_).2, seqno + t.outputLen seqno ≤ m.stop) ∨
        u.Got (seqno + t.outputLen seqno))

instance (u : MpFullTcpAgent) (seqno : ℤ) : Decidable (t.SendsOk u seqno) :=
  inferInstanceAs (Decidable (_ → _ ∧ _ ∧ _))

end MpFullTcpAgent

namespace Connection

/-- A call of `mptcp_recv_getack` for `rcv_nxt_` finds a mapping, unless nothing was received. -/
def Found (c? : Option Connection) (e : Event) : Prop :=
  ∀ c ∈ c?, ∀ id o, e.action = .subflow id o → ∀ ackno ∈ (c.subflow e.side id).ackCall o,
    ackno = 1 ∨ ∃ m ∈ (c.subflow e.side id).records o, m.Meets ackno

/-- The condition on a step: output is as above, and no `FIN` arrives after the `SYN`. -/
def ActionOk (c : Connection) (side : Bool) : Action → Prop
  | .subflow id (.foutput seqno) => (c.subflow side id).SendsOk (c.subflow (!side) id) seqno
  | .subflow id (.recv p _ _) => (c.subflow side id).state_.haveRcvdSyn = true → p.has thFin = false
  | _ => True

instance (c : Connection) (side : Bool) : ∀ a, Decidable (c.ActionOk side a)
  | .sendmsg _ => isTrue trivial
  | .sendControl _ => isTrue trivial
  | .subflow id (.foutput seqno) =>
    inferInstanceAs (Decidable ((c.subflow side id).SendsOk (c.subflow (!side) id) seqno))
  | .subflow id (.recv p _ _) =>
    inferInstanceAs (Decidable ((c.subflow side id).state_.haveRcvdSyn = true → p.has thFin = false))
  | .subflow _ (.timer _ _) => isTrue trivial
  | .subflow _ .usrclosed => isTrue trivial
  | .subflow _ .listen => isTrue trivial

def StepOk (c? : Option Connection) (e : Event) : Prop := ∀ c ∈ c?, c.ActionOk e.side e.action

instance (c? : Option Connection) (e : Event) : Decidable (StepOk c? e) :=
  inferInstanceAs (Decidable (∀ c ∈ c?, _))

end Connection

end Ns2.Mptcp
