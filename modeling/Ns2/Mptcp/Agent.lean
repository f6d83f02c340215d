import Ns2.Lib.Run
import Ns2.Mptcp.Subflow

/-!
# The MPTCP agent

`MptcpAgent` takes bytes from the application and hands them to its subflows.

* `sendmsg`, `sendControl`, `recv` — the functions of the source, each with the output
  of the subflows it calls.
* `Action`, `MptcpAgent.step` — the same code in smaller steps: a request, one turn of
  the loop of `send_control`, and for each subflow one call of `foutput`, one segment, one
  timer.  A run is any sequence of them, so that sends, arrivals and retransmissions mix
  in every order.
* `sendmsg_steps`, `recv_steps` — the functions of the source are such runs.
-/

namespace Ns2.Mptcp

open Ns2.Tcp
open Ns2.Common (toInt)

/-- The agent, with its subflows. -/
structure MptcpAgent where
  /-- Number of subflows. -/
  sub_num_ : ℕ
  /-- The subflows. -/
  subflows_ : ℕ → MpFullTcpAgent
  /-- There is no end to the data. -/
  infinite_send_ : Bool
  /-- Bytes the application has asked for and no subflow has got. -/
  total_bytes_ : ℤ
  /-- The next data sequence number. -/
  mcurseq_ : ℤ
  /-- The data-level acknowledgment. -/
  core : Core
  /-- History: the mappings made, each with its subflow. -/
  recorded : List (ℕ × DsnMapping)
  /-- History: the data sequence number of each byte of a subflow's stream. -/
  stream : ℕ → ℤ → Option ℤ

/-- `TCP_MAXSEQ`. -/
def tcpMaxseq : ℤ := 1073741824

namespace MpFullTcpAgent

/-- The next `advance_bytes` makes a new connection. -/
def reopens (t : MpFullTcpAgent) : Bool := t.state_ = .closed ∨ t.state_ = .listen

/-- The byte of the stream after which the next `advance_bytes` appends. -/
def edge (t : MpFullTcpAgent) : ℤ := if t.reopens then t.iss_ else max t.curseq_ t.iss_

/-- The bytes of the stream that `advance_bytes` has appended, given the subflow before
and after it. -/
def appended (t t' : MpFullTcpAgent) : Set ℤ := Set.Ioc t.edge t'.curseq_

/-- `outstanding` of `send_control`. -/
def outstanding (t : MpFullTcpAgent) : ℤ :=
  let n := t.maxseq_ - t.highest_ack_ - t.cong.dupacks_ * t.maxseg_
  if n ≤ 0 then 0 else n

/-- `sendbytes` of `send_control`, if the loop comes to that. -/
def sendbytes (t : MpFullTcpAgent) (total_bytes_ : ℤ) : Option ℤ :=
  if t.cong.t_backoff_ ≥ 4 then none
  else
    let sendbytes := toInt (t.mptcpGetCwnd * t.maxseg_ - t.outstanding)
    if sendbytes < t.maxseg_ then none
    else
      let sendbytes := if sendbytes > total_bytes_ then total_bytes_ else sendbytes
      some (if sendbytes > t.maxseg_ then t.maxseg_ else sendbytes)

end MpFullTcpAgent

namespace MptcpAgent

/-- The constructor, and `attach-tcp` for every subflow. -/
def new (sub_num_ : ℕ) (configs : ℕ → Config) : MptcpAgent where
  sub_num_ := sub_num_
  subflows_ id := MpFullTcpAgent.new (configs id)
  infinite_send_ := false
  total_bytes_ := 0
  mcurseq_ := 1
  core := ⟨DataAck.init, []⟩
  recorded := []
  stream _ _ := none

/-- Replace a subflow and the data-level acknowledgment. -/
def put (s : MptcpAgent) (id : ℕ) (r : MpFullTcpAgent × Core) : MptcpAgent :=
  { s with subflows_ := Function.update s.subflows_ id r.1, core := r.2 }

/-- Do something to a subflow and the data-level acknowledgment. -/
def onSubflow (s : MptcpAgent) (id : ℕ)
    (f : MpFullTcpAgent → Core → Option (MpFullTcpAgent × Core)) : Option MptcpAgent :=
  (f (s.subflows_ id) s.core).map (s.put id)

/-- `sendmsg`, up to the call of `send_control`. -/
def request (s : MptcpAgent) (nbytes : ℤ) : MptcpAgent :=
  if nbytes = -1 then { s with infinite_send_ := true, total_bytes_ := tcpMaxseq }
  else { s with total_bytes_ := nbytes, infinite_send_ := false }

/-- The assignments of `send_control` after `sendmsg` on subflow `id`, which has taken
`n` bytes; `t` is the subflow before. -/
def assigned (s : MptcpAgent) (id : ℕ) (t : MpFullTcpAgent) (n : ℤ) : MptcpAgent :=
  { s with
    mcurseq_ := s.mcurseq_ + n
    total_bytes_ := if s.infinite_send_ then s.total_bytes_ else s.total_bytes_ - n
    recorded := s.recorded ++ [(id, DsnMapping.new s.mcurseq_ (t.curseq_ + 1) n)]
    stream := fun i k =>
      if i = id then
        if t.edge < k ∧ k ≤ (s.subflows_ id).curseq_ then some (s.mcurseq_ + (k - t.edge - 1))
        else if t.reopens then none
        else s.stream i k
      else s.stream i k }

/-- One turn of the loop of `send_control`; `seqs` are the sequence numbers the
`send_much` in it goes through. -/
def sendControlTurn (s : MptcpAgent) (id : ℕ) (seqs : List ℤ) : Option MptcpAgent :=
  match (s.subflows_ id).sendbytes s.total_bytes_ with
  | none => some s
  | some n =>
    (s.onSubflow id fun t core => (t.mptcpAddMapping s.mcurseq_ n).sendmsg core n seqs).map
      fun s' => s'.assigned id (s.subflows_ id) n

/-- `send_control`. -/
def sendControl (s : MptcpAgent) (seqs : ℕ → List ℤ) : Option MptcpAgent :=
  if s.total_bytes_ > 0 then
    (List.range s.sub_num_).foldlM (fun s id => s.sendControlTurn id (seqs id)) s
  else some s

/-- `sendmsg`. -/
def sendmsg (s : MptcpAgent) (nbytes : ℤ) (seqs : ℕ → List ℤ) : Option MptcpAgent :=
  (s.request nbytes).sendControl seqs

/-- The options of a packet, in `recv`. -/
def recvOptions (t : MpFullTcpAgent) (p : Packet) : MpFullTcpAgent :=
  let t := if p.mp_ack ≠ 0 then t.mptcpRemoveMapping p.mp_ack else t
  if p.mp_dsn ≠ 0 then t.mptcpRecvAddMapping p.mp_dsn p.mp_subseq p.mp_dsnlen else t

/-- `recv`, up to the output of the subflow. -/
def recvSegment (s : MptcpAgent) (id : ℕ) (p : Packet) (cong : Congestion) (dupack : Bool) :
    Option MptcpAgent :=
  s.onSubflow id fun t core => (recvOptions t p).recv core p cong dupack

/-- `recv`, for a packet to subflow `id`; `out` are the sequence numbers the `send_much`
of that subflow goes through, `seqs` those of `send_control`. -/
def recv (s : MptcpAgent) (id : ℕ) (p : Packet) (cong : Congestion) (dupack : Bool)
    (out : List ℤ) (seqs : ℕ → List ℤ) : Option MptcpAgent :=
  ((s.recvSegment id p cong dupack).bind fun s =>
    s.onSubflow id fun t core => t.sendMuch core out).bind fun s => s.sendControl seqs

end MptcpAgent

/-! ## Steps -/

/-- A step of one subflow. -/
inductive SubflowAction where
  /-- `foutput(seqno)` is called, by `send_much`, a timer or fast retransmit. -/
  | foutput (seqno : ℤ)
  /-- A packet arrives. -/
  | recv (p : Packet) (cong : Congestion) (dupack : Bool)
  /-- A timer goes off: congestion control changes its mind, or an ACK is owed. -/
  | timer (cong : Congestion) (acknow : Bool)
  /-- The subflow is told to close. -/
  | usrclosed
  /-- The subflow is told to listen. -/
  | listen

/-- A step of the agent. -/
inductive Action where
  /-- The application asks for `nbytes` to be sent. -/
  | sendmsg (nbytes : ℤ)
  /-- `send_control` looks at a subflow. -/
  | sendControl (id : ℕ)
  /-- A subflow takes a step of its own. -/
  | subflow (id : ℕ) (o : SubflowAction)

/-- One step of a subflow. -/
def MpFullTcpAgent.act (o : SubflowAction) (t : MpFullTcpAgent) (core : Core) :
    Option (MpFullTcpAgent × Core) :=
  match o with
  | .foutput seqno => t.foutput core seqno
  | .recv p cong dupack => (MptcpAgent.recvOptions t p).recv core p cong dupack
  | .timer cong acknow => some ({ t with cong := cong, acknow := t.acknow || acknow }, core)
  | .usrclosed => some (t.usrclosed, core)
  | .listen => some (t.listen, core)

namespace MptcpAgent

/-- One turn of the loop of `send_control`, without the output. -/
def assign (s : MptcpAgent) (id : ℕ) : Option MptcpAgent :=
  match (s.subflows_ id).sendbytes s.total_bytes_ with
  | none => some s
  | some n =>
    (s.onSubflow id fun t core => ((t.mptcpAddMapping s.mcurseq_ n).advance n).map (·, core)).map
      fun s' => s'.assigned id (s.subflows_ id) n

/-- One step.  `send_control` does not start its loop with a negative `total_bytes_`. -/
def step (s : MptcpAgent) : Action → Option MptcpAgent
  | .sendmsg nbytes => some (s.request nbytes)
  | .sendControl id => if id < s.sub_num_ ∧ 0 ≤ s.total_bytes_ then s.assign id else some s
  | .subflow id o => s.onSubflow id (MpFullTcpAgent.act o)

/-- A step of a run; nothing happens after a call of `abort()`. -/
def exec (s? : Option MptcpAgent) (a : Action) : Option MptcpAgent := s?.bind (step · a)

end MptcpAgent

end Ns2.Mptcp
