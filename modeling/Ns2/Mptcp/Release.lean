import Ns2.Mptcp.Agent

/-!
# Which mappings a data-level ACK releases

* `ReleasedExactly` — what an ACK is meant to do to the mappings of a subflow.
* `releasedExactly_removeFirst_iff` — the loop of `mptcp_remove_mapping` stops at the first
  mapping it erases, so it does that if and only if there is at most one to erase.
* `recvOptions_releasedExactly_iff` — the same for a packet at the agent.
-/

namespace Ns2.Mptcp

open Ns2.Tcp

/-- All of the mapping is before `seqnum`: the test of `mptcp_remove_mapping`. -/
def DsnMapping.EndsBefore (seqnum : ℤ) (m : DsnMapping) : Prop := m.dseqnum + m.length < seqnum

instance (seqnum : ℤ) (m : DsnMapping) : Decidable (m.EndsBefore seqnum) :=
  inferInstanceAs (Decidable (m.dseqnum + m.length < seqnum))

/-- A data-level ACK of `seqnum` takes the mappings `l` to `l'`: nothing that ends before
it is left, and what ends after it is still there, in order. -/
structure ReleasedExactly (seqnum : ℤ) (l l' : List DsnMapping) : Prop where
  /-- What ends before the ACK is gone. -/
  released : ∀ m ∈ l', ¬ m.EndsBefore seqnum
  /-- What ends after the ACK is there, as often as before. -/
  kept : (l.filter fun m => seqnum < m.dseqnum + m.length).Sublist l'
  /-- Nothing is new, and the order is kept. -/
  order : l'.Sublist l

section RemoveFirst

variable {seqnum : ℤ} {l : List DsnMapping}

theorem removeFirst_eq_eraseP :
    removeFirst seqnum l = l.eraseP fun m => decide (m.EndsBefore seqnum) := rfl

variable (seqnum l) in
/-- What does not end before the ACK stays. -/
theorem filter_removeFirst (q : DsnMapping → Bool) (hq : ∀ m, q m → ¬ m.EndsBefore seqnum) :
    (removeFirst seqnum l).filter q = l.filter q := by
  rw [removeFirst_eq_eraseP]
  induction l with
  | nil => rfl
  | cons m rest ih =>
    by_cases hm : m.EndsBefore seqnum
    · have hqm : q m = false := Bool.eq_false_iff.mpr fun h => hq m h hm
      rw [List.eraseP_cons_of_pos (by simpa using hm), List.filter_cons_of_neg (by simp [hqm])]
    · rw [List.eraseP_cons_of_neg (by simpa using hm), List.filter_cons, List.filter_cons, ih]

variable (seqnum l) in
/-- One mapping less ends before the ACK. -/
theorem countP_removeFirst :
    (removeFirst seqnum l).countP (fun m => m.EndsBefore seqnum) =
      l.countP (fun m => m.EndsBefore seqnum) - 1 := by
  rw [removeFirst_eq_eraseP]
  induction l with
  | nil => rfl
  | cons m rest ih =>
    by_cases hm : m.EndsBefore seqnum
    · rw [List.eraseP_cons_of_pos (by simpa using hm), List.countP_cons_of_pos (by simpa using hm),
        Nat.add_sub_cancel]
    · rw [List.eraseP_cons_of_neg (by simpa using hm), List.countP_cons_of_neg (by simpa using hm),
        List.countP_cons_of_neg (by simpa using hm), ih]

/-- **The loop of `mptcp_remove_mapping`.**  It releases exactly what it should if and only
if at most one mapping ends before the ACK. -/
theorem releasedExactly_removeFirst_iff :
    ReleasedExactly seqnum l (removeFirst seqnum l) ↔
      l.countP (fun m => m.EndsBefore seqnum) ≤ 1 := by
  have hcount := countP_removeFirst seqnum l
  constructor
  · intro h
    have hzero : (removeFirst seqnum l).countP (fun m => m.EndsBefore seqnum) = 0 := by
      rw [List.countP_eq_zero]
      intro m hm
      simpa using h.released m hm
    omega
  · intro h
    have hzero : (removeFirst seqnum l).countP (fun m => m.EndsBefore seqnum) = 0 := by omega
    refine ⟨fun m hm => ?_, ?_, List.eraseP_sublist⟩
    · simpa using List.countP_eq_zero.mp hzero m hm
    · rw [← filter_removeFirst seqnum l
        (fun m => decide (seqnum < m.dseqnum + m.length)) ?_]
      · exact List.filter_sublist
      · intro m hm hends
        have hlt : seqnum < m.dseqnum + m.length := of_decide_eq_true hm
        unfold DsnMapping.EndsBefore at hends
        omega

end RemoveFirst

namespace MptcpAgent

/-- The mappings a packet leaves. -/
theorem recvOptions_mptcp_dsnmap_ (t : MpFullTcpAgent) (p : Packet) :
    (recvOptions t p).mptcp_dsnmap_ =
      if p.mp_ack ≠ 0 then removeFirst p.mp_ack t.mptcp_dsnmap_ else t.mptcp_dsnmap_ := by
  unfold recvOptions
  split_ifs <;> rfl

/-- **Acknowledged mappings.**  A packet with a data-level ACK releases exactly the mappings
before it if and only if there is at most one of them. -/
theorem recvOptions_releasedExactly_iff (t : MpFullTcpAgent) (p : Packet) (h : p.mp_ack ≠ 0) :
    ReleasedExactly p.mp_ack t.mptcp_dsnmap_ (recvOptions t p).mptcp_dsnmap_ ↔
      t.mptcp_dsnmap_.countP (fun m => m.EndsBefore p.mp_ack) ≤ 1 := by
  rw [recvOptions_mptcp_dsnmap_, if_pos h]
  exact releasedExactly_removeFirst_iff

/-- A subflow with three mappings of ten bytes each. -/
def threeMappings : MpFullTcpAgent :=
  { MpFullTcpAgent.new Config.default with
    mptcp_dsnmap_ := [DsnMapping.new 1 1 10, DsnMapping.new 11 11 10, DsnMapping.new 21 21 10] }

/-- A pure ACK of the data before `seqnum`. -/
def dataAckOf (seqnum : ℤ) : Packet :=
  { seqno := 1, ackno := seqnum, flags := thAck, datalen := 0, mp_ack := seqnum }

/-- An ACK that passes one mapping releases it. -/
theorem recvOptions_releasedExactly_one :
    (dataAckOf 21).mp_ack ≠ 0 ∧
      ReleasedExactly 21 threeMappings.mptcp_dsnmap_
        (recvOptions threeMappings (dataAckOf 21)).mptcp_dsnmap_ :=
  ⟨by decide,
    (recvOptions_releasedExactly_iff threeMappings (dataAckOf 21) (by decide)).mpr (by decide)⟩

/-- **An ACK that passes two mappings.**  The second one is left. -/
theorem not_releasedExactly :
    ¬ ∀ (t : MpFullTcpAgent) (p : Packet), p.mp_ack ≠ 0 →
      ReleasedExactly p.mp_ack t.mptcp_dsnmap_ (recvOptions t p).mptcp_dsnmap_ := by
  intro h
  have hleft : DsnMapping.new 11 11 10 ∈ (recvOptions threeMappings (dataAckOf 31)).mptcp_dsnmap_ :=
    by decide
  exact (h threeMappings (dataAckOf 31) (by decide)).released _ hleft (by decide)

end MptcpAgent

end Ns2.Mptcp
