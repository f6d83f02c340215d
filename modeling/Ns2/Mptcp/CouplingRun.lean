import Ns2.Lib.Run
import Ns2.Mptcp.Increase

/-!
# Runs of the coupled subflows

The agent from its construction on: what arrives at the subflows and their timers, with the
virtual functions `MpFullTcpAgent` overrides.

* `MptcpAgent` does not initialise `alpha_`; `start` takes what the memory held.
* `step` — an event at a subflow; `atOpencwnd` — the agent when it calls `opencwnd`.
* `ReadsAssigned` — what is asked of a step: the guards of `calculate_alpha` let it assign
  the factor, now or earlier.
* `assignedReads_iff` — the runs that never read the factor before it is assigned.
-/

namespace Ns2.Mptcp

open Ns2.Tcp Extremum

/-- An event at a subflow. -/
abbrev CoupledEvent := ℕ × FullSenderEvent

namespace CoupledAgent

/-- The constructor, and `attach-tcp` for every subflow; `alpha_` is what the memory holds. -/
def start (lia_ lia_dctcp_alpha_ : ℤ) (subflows : List FullTcpSender) (alpha_ : ℚ) :
    CoupledAgent where
  lia_ := lia_
  lia_dctcp_alpha_ := lia_dctcp_alpha_
  subflows_ := subflows.map fun a => { a.start with mptcp_allow_slowstart_ := true }
  alpha_ := alpha_
  assigned := false
  reads := []

/-- `send_much`, of subflow `id`. -/
def sendMuch (c : CoupledAgent) (id : ℕ) (turns : List (Option Output)) : Option CoupledAgent :=
  match c.subflows_[id]? with
  | none => some c
  | some t => (t.sendMuch turns).map (c.put id)

/-- The rest of `recv` of subflow `id`, from the call of a virtual function on. -/
def afterAck (c : CoupledAgent) (id : ℕ) (w : AckContext) :
    FullTcpSender × AckCall → Option CoupledAgent
  | (t, .dupack) => (t.dupackAction w.rtx w.fill).map fun t' => (c.put id t').calculateAlpha
  | (t, .opencwnd) => ((c.put id t).opencwnd id).sendMuch id w.turns
  | (t, .none) => (t.sendMuch w.turns).map (c.put id)

/-- What `recv` comes to before it calls a virtual function, if the event is an ACK. -/
def received (t : FullTcpSender) :
    FullSenderEvent → Option (AckContext × Option (FullTcpSender × AckCall))
  | .ack p w => some (w, t.recvAck p w)
  | .synAck p ect w => some (w, t.recvSynAck p ect w)
  | .handshakeAck p marked wait w => some (w, t.recvHandshakeAck p marked wait w)
  | _ => none

/-- One event. -/
def step (c : CoupledAgent) (e : CoupledEvent) : Option CoupledAgent :=
  match c.subflows_[e.1]? with
  | none => some c
  | some t =>
    match received t.toFullTcpSender e.2 with
    | some (w, r?) => r?.bind (c.afterAck e.1 w)
    | none =>
      match e.2 with
      | .timeout turns =>
        t.timeoutAction.bind fun t' => (c.put e.1 t').calculateAlpha.sendMuch e.1 turns
      | e' => (t.toFullTcpSender.step e').map (c.put e.1)

/-- A step of a run; nothing happens after a call of `abort()`. -/
def exec (c? : Option CoupledAgent) (e : CoupledEvent) : Option CoupledAgent := c?.bind (step · e)

/-- The agent when subflow `e.1` calls `opencwnd`, if the event comes to that. -/
def atOpencwnd (c : CoupledAgent) (e : CoupledEvent) : Option CoupledAgent :=
  (c.subflows_[e.1]?.bind fun t => received t.toFullTcpSender e.2).bind fun r =>
    r.2.bind fun x => if x.2 = .opencwnd then some (c.put e.1 x.1) else none

/-- The factor is read: the subflow is in congestion avoidance. -/
def Reads (d : CoupledAgent) (id : ℕ) : Prop := ∃ t, d.subflows_[id]? = some t ∧ ¬ t.SlowStart

/-- If the event reads the factor, the guards of `calculate_alpha` let it assign the factor
in this call, or did so in an earlier one. -/
def ReadsAssigned (c : CoupledAgent) (e : CoupledEvent) : Prop :=
  ∀ d, c.atOpencwnd e = some d → d.Reads e.1 → d.Updates ∨ c.assigned = true

/-! ## What is read -/

variable {c c' d : CoupledAgent} {id : ℕ} {e : CoupledEvent}

@[simp] theorem put_reads (t : FullTcpSender) : (c.put id t).reads = c.reads := rfl

@[simp] theorem put_assigned (t : FullTcpSender) : (c.put id t).assigned = c.assigned := rfl

theorem sendMuch_reads {turns : List (Option Output)} (h : c.sendMuch id turns = some c') :
    c'.reads = c.reads := by
  unfold sendMuch at h
  split at h
  · cases h
    rfl
  · obtain ⟨t', -, rfl⟩ := Option.map_eq_some_iff.mp h
    rfl

/-- `opencwnd` reads the factor after `calculate_alpha`. -/
theorem opencwnd_reads_of_reads (h : d.Reads id) :
    (d.opencwnd id).reads = d.reads ++ [d.calculateAlpha.assigned] := by
  obtain ⟨t, ht, hs⟩ := h
  unfold opencwnd
  simp only [calculateAlpha_subflows_, ht, if_neg hs, put_reads, calculateAlpha_reads]

theorem opencwnd_reads_of_not_reads (h : ¬ d.Reads id) : (d.opencwnd id).reads = d.reads := by
  unfold opencwnd
  simp only [calculateAlpha_subflows_]
  cases ht : d.subflows_[id]? with
  | none => exact calculateAlpha_reads
  | some t =>
    have hs : t.SlowStart := by
      by_contra hs
      exact h ⟨t, ht, hs⟩
    simp only [if_pos hs, put_reads, calculateAlpha_reads]

/-- A step that does not call `opencwnd` reads nothing. -/
theorem step_reads_of_none (h : c.step e = some c') (hno : c.atOpencwnd e = none) :
    c'.reads = c.reads := by
  unfold step at h
  unfold atOpencwnd at hno
  cases ht : c.subflows_[e.1]? with
  | none =>
    rw [ht] at h
    cases h
    rfl
  | some t =>
    rw [ht] at h hno
    cases hr : received t.toFullTcpSender e.2 with
    | none =>
      simp only [hr] at h
      split at h
      · obtain ⟨t', -, h⟩ := Option.bind_eq_some_iff.mp h
        rw [sendMuch_reads h, calculateAlpha_reads, put_reads]
      · obtain ⟨t', -, rfl⟩ := Option.map_eq_some_iff.mp h
        rfl
    | some r =>
      obtain ⟨w, r?⟩ := r
      simp only [hr] at h
      obtain ⟨⟨t', call⟩, hr', h⟩ := Option.bind_eq_some_iff.mp h
      cases call with
      | dupack =>
        obtain ⟨t'', -, rfl⟩ := Option.map_eq_some_iff.mp h
        rw [calculateAlpha_reads, put_reads]
      | opencwnd =>
        rw [Option.bind_some, hr, Option.bind_some, hr'] at hno
        cases hno
      | none =>
        obtain ⟨t'', -, rfl⟩ := Option.map_eq_some_iff.mp h
        rfl

/-- A step that calls `opencwnd` reads what this call reads. -/
theorem step_reads_of_some (h : c.step e = some c') (hd : c.atOpencwnd e = some d) :
    c'.reads = (d.opencwnd e.1).reads ∧ d.reads = c.reads ∧ d.assigned = c.assigned := by
  unfold step at h
  unfold atOpencwnd at hd
  obtain ⟨⟨w, r?⟩, hat, hcall⟩ := Option.bind_eq_some_iff.mp hd
  obtain ⟨t, ht, hr⟩ := Option.bind_eq_some_iff.mp hat
  obtain ⟨⟨t', call⟩, hr', hput⟩ := Option.bind_eq_some_iff.mp hcall
  obtain ⟨rfl, rfl⟩ : call = .opencwnd ∧ c.put e.1 t' = d := by
    by_cases hc : call = .opencwnd
    · exact ⟨hc, Option.some.inj ((if_pos hc).symm.trans hput)⟩
    · cases (if_neg hc).symm.trans hput
  have hr'' : r? = some (t', .opencwnd) := hr'
  rw [ht] at h
  simp only [hr] at h
  rw [hr'', Option.bind_some] at h
  exact ⟨sendMuch_reads h, rfl, rfl⟩

/-! ## Runs -/

/-- Every time the factor was read, it had been assigned. -/
def AssignedReads (c? : Option CoupledAgent) : Prop := ∀ c ∈ c?, ∀ b ∈ c.reads, b = true

/-- What is asked of a step of a run that goes on. -/
def ReadsAssigned? (c? : Option CoupledAgent) (e : CoupledEvent) : Prop :=
  ∀ c ∈ c?, (c.step e).isSome → c.ReadsAssigned e

/-- One step: the factor is read only after it was assigned if and only if the guards of
`calculate_alpha` let it be. -/
theorem assignedReads_step_iff (h : AssignedReads (some c)) (hc : c.step e = some c') :
    AssignedReads (some c') ↔ c.ReadsAssigned e := by
  have hc' : ∀ c'' ∈ (some c' : Option CoupledAgent), c'' = c' := fun _ h => (Option.some.inj h).symm
  cases hd : c.atOpencwnd e with
  | none =>
    have hreads := step_reads_of_none hc hd
    refine iff_of_true (fun c'' hc'' => ?_) fun d hd' => ?_
    · rw [hc' c'' hc'', hreads]
      exact h c rfl
    · rw [hd] at hd'
      cases hd'
  | some d =>
    obtain ⟨hreads, hdreads, hdassigned⟩ := step_reads_of_some hc hd
    have hok : c.ReadsAssigned e ↔ (d.Reads e.1 → d.Updates ∨ c.assigned = true) := by
      refine ⟨fun h => h d hd, fun h d' hd' => ?_⟩
      rw [hd] at hd'
      cases hd'
      exact h
    rw [hok]
    by_cases hr : d.Reads e.1
    · rw [opencwnd_reads_of_reads hr, hdreads] at hreads
      have hassigned : d.calculateAlpha.assigned = true ↔ d.Updates ∨ c.assigned = true := by
        rw [calculateAlpha_assigned, hdassigned, or_comm]
      constructor
      · intro h' _
        apply hassigned.mp
        apply h' c' rfl
        rw [hreads]
        simp
      · intro h' c'' hc'' b hb
        rw [hc' c'' hc'', hreads, List.mem_append, List.mem_singleton] at hb
        rcases hb with hb | rfl
        · exact h c rfl b hb
        · exact hassigned.mpr (h' hr)
    · rw [opencwnd_reads_of_not_reads hr, hdreads] at hreads
      refine iff_of_true (fun c'' hc'' => ?_) fun hr' => absurd hr' hr
      rw [hc' c'' hc'', hreads]
      exact h c rfl

/-- Two subflows with a maximal window of two segments. -/
def twoSubflows : List FullTcpSender :=
  List.replicate 2 { FullTcpSender.default .sack with wnd_ := 2 }

/-- An ACK without data. -/
def pureAck (ackno : ℤ) (syn : Bool) : AckSegment where
  ackno := ackno
  datalen := 0
  ecnecho := false
  syn := syn
  fin := false
  no_ts_ := false
  sack := []

/-- An ACK that ends a round trip of one tick, and after which nothing is sent. -/
def oneTick (grow : Bool) : AckContext where
  predicted := true
  rtx_pending := true
  dupseg := false
  rtt := some 1
  grow := grow
  rtx := none
  fill := []
  turns := []

/-- The first subflow is connected, sends a segment and gets the ACK; the second one is not
connected yet. -/
def firstSubflow : List CoupledEvent :=
  [(0, .send [some ⟨1, false, false⟩]), (0, .synAck (pureAck 1 true) false (oneTick false)),
    (0, .send [some ⟨536, false, false⟩]), (0, .ack (pureAck 537 false) (oneTick true))]

end CoupledAgent

end Ns2.Mptcp
