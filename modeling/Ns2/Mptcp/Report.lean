import Ns2.Mptcp.Input

/-!
# What the receiver reports

`mptcp_recv_getack` reports the part of one mapping to the agent: of the first in
`mptcp_recv_dsnmap_` that the ACK number is in or at the end of.  Mappings that end
before the ACK number are erased on the way, reported or not.

* `Remembered` — the invariant: every mapping received is still in the vector, or all of
  it was reported.
* `NothingForgotten` — the mappings that end at or below an ACK number were reported when
  the ACK is sent.
* `ReportsInTurn` — the condition: of the mappings in the vector that end at or below the
  ACK number, those not reported before are the one the loop finds, and it ends there.
* `nothingForgotten_of` — runs of such steps forget nothing; and if the mappings are about
  different data, no others do.
-/

namespace Ns2.Mptcp

open Ns2.Tcp

/-- The bytes of the data stream that were reported. -/
def Core.reportedBytes (c : Core) : Set ℤ := DataAck.blockBytes c.reported

theorem Core.setDataack_reportedBytes (c : Core) (ackno length : ℤ) :
    (c.setDataack ackno length).reportedBytes =
      c.reportedBytes ∪ Set.Ico ackno (ackno + length) := by
  show DataAck.blockBytes (c.reported ++ [⟨ackno, length⟩]) = _
  rw [DataAck.blockBytes_append, DataAck.blockBytes_cons, DataAck.blockBytes_nil, Set.union_empty]
  rfl

/-! ## One subflow -/

/-- Every mapping received is in the vector, or all of it was reported. -/
def Remembered (R : Set DsnMapping) (l : List DsnMapping) (c : Core) : Prop :=
  ∀ m ∈ R, m ∈ l ∨ m.dataBytes ⊆ c.reportedBytes

/-- The mappings that end at or below an ACK number were reported. -/
def ReportedTo (R : Set DsnMapping) (ackno : ℤ) (c : Core) : Prop :=
  ∀ m ∈ R, m.stop ≤ ackno → m.dataBytes ⊆ c.reportedBytes

/-- The condition on a call of `mptcp_recv_getack`. -/
def InTurn (l : List DsnMapping) (c : Core) (ackno : ℤ) : Prop :=
  ∀ m ∈ l, m.stop ≤ ackno → m.dataBytes ⊆ c.reportedBytes ∨
    ackno ≠ 1 ∧ m.stop = ackno ∧ l.find? (fun x => x.Meets ackno) = some m

section Getack

variable {t t' : MpFullTcpAgent} {core core' : Core} {ackno : ℤ} {pflags : TcpFlag}
  {R : Set DsnMapping}

/-- What was reported stays so. -/
theorem MpFullTcpAgent.AckOption.mono (h : MpFullTcpAgent.AckOption t t' core core' ackno pflags) :
    core.reportedBytes ⊆ core'.reportedBytes := by
  rcases h with ⟨-, rfl, -⟩ | ⟨-, -, rfl, -⟩ | ⟨-, -, m, -, rfl⟩
  · exact subset_rfl
  · exact subset_rfl
  · rw [Core.setDataack_reportedBytes]
    exact Set.subset_union_left

/-- Nothing is added to the vector. -/
theorem MpFullTcpAgent.AckOption.subset (h : MpFullTcpAgent.AckOption t t' core core' ackno pflags) :
    t'.mptcp_recv_dsnmap_ ⊆ t.mptcp_recv_dsnmap_ := by
  rcases h with ⟨-, -, hmap⟩ | ⟨-, -, -, hmap⟩ | ⟨-, -, m, hscan, -⟩
  · rw [hmap]
    exact List.Subset.refl _
  · rw [hmap]
    exact List.Subset.refl _
  · exact (scan_eq_some hscan).2.1.subset

/-- A mapping that ends at the ACK number and is found is reported as a whole. -/
theorem dataBytes_eq {m : DsnMapping} (h : m.stop = ackno) :
    m.dataBytes = Set.Ico m.dseqnum (m.dseqnum + (ackno - m.sseqnum)) := by
  unfold DsnMapping.dataBytes
  rw [← h, DsnMapping.stop, add_sub_cancel_left]

/-- After a call in turn, everything up to the ACK number was reported. -/
theorem InTurn.reportedTo (hok : InTurn t.mptcp_recv_dsnmap_ core ackno)
    (hrem : Remembered R t.mptcp_recv_dsnmap_ core)
    (h : MpFullTcpAgent.AckOption t t' core core' ackno pflags) (hsyn : pflags &&& thSyn = 0) :
    ReportedTo R ackno core' := by
  intro m hm hstop
  rcases hrem m hm with hmem | hold
  · rcases hok m hmem hstop with hold | ⟨hone, hend, hfind⟩
    · exact hold.trans (h.mono)
    · rcases h with ⟨hne, -⟩ | ⟨-, heq, -⟩ | ⟨-, -, m', hscan, rfl⟩
      · exact absurd hsyn hne
      · exact absurd heq hone
      · -- the mapping found is this one
        obtain ⟨hfound, -⟩ := scan_eq_some hscan
        rw [hfind] at hfound
        cases hfound
        rw [Core.setDataack_reportedBytes, dataBytes_eq hend]
        exact Set.subset_union_right
  · exact hold.trans (h.mono)

/-- The call keeps the invariant, if everything up to the ACK number was reported. -/
theorem Remembered.getack (hrem : Remembered R t.mptcp_recv_dsnmap_ core)
    (h : MpFullTcpAgent.AckOption t t' core core' ackno pflags)
    (hrep : pflags &&& thSyn = 0 → ReportedTo R ackno core') :
    Remembered R t'.mptcp_recv_dsnmap_ core' := by
  have hmono := h.mono
  intro m hm
  rcases hrem m hm with hmem | hold
  · rcases h with ⟨-, rfl, hmap⟩ | ⟨-, -, rfl, hmap⟩ | ⟨hsyn, -, m', hscan, -⟩
    · rw [hmap]
      exact Or.inl hmem
    · rw [hmap]
      exact Or.inl hmem
    · obtain ⟨-, -, hkept⟩ := scan_eq_some hscan
      rcases hkept m hmem with hl | hlt
      · exact Or.inl hl
      · exact Or.inr (hrep hsyn m hm hlt.le)
  · exact Or.inr (hold.trans hmono)

/-- If everything up to the ACK number was reported, the call was in turn, as long as
different mappings are about different data. -/
theorem ReportedTo.inTurn
    (hdata : ∀ m ∈ R, ∀ m' ∈ R, m = m' ∨ Disjoint m.dataBytes m'.dataBytes)
    (hsub : ∀ m ∈ t.mptcp_recv_dsnmap_, m ∈ R)
    (h : MpFullTcpAgent.AckOption t t' core core' ackno pflags) (hsyn : pflags &&& thSyn = 0)
    (hrep : ReportedTo R ackno core') : InTurn t.mptcp_recv_dsnmap_ core ackno := by
  intro m hm hstop
  have hall := hrep m (hsub m hm) hstop
  rcases h with ⟨hne, -⟩ | ⟨-, -, rfl, -⟩ | ⟨-, hone, m', hscan, rfl⟩
  · exact absurd hsyn hne
  · exact Or.inl hall
  · obtain ⟨hfound, -⟩ := scan_eq_some hscan
    have hmeets : m'.Meets ackno := by simpa using List.find?_some hfound
    rcases hdata m (hsub m hm) m' (hsub m' (List.mem_of_find?_eq_some hfound)) with rfl | hdis
    · exact Or.inr ⟨hone, le_antisymm hstop hmeets.2, hfound⟩
    · refine Or.inl fun k hk => ?_
      have hk' := hall hk
      rw [Core.setDataack_reportedBytes] at hk'
      refine hk'.resolve_right fun hnew => Set.disjoint_left.mp hdis hk ?_
      -- what is reported is part of the mapping found
      refine ⟨hnew.1, hnew.2.trans_le ?_⟩
      have := hmeets.2
      unfold DsnMapping.stop at this
      omega

end Getack

/-! ## The agent -/

namespace MpFullTcpAgent

/-- The mappings `mptcp_recv_getack` finds when it is called in a step of the subflow. -/
def records (t : MpFullTcpAgent) : SubflowAction → List DsnMapping
  | .recv p _ _ => (MptcpAgent.recvOptions t p).mptcp_recv_dsnmap_
  | _ => t.mptcp_recv_dsnmap_

variable {t t' : MpFullTcpAgent} {core core' : Core} {o : SubflowAction}

/-- A step of a subflow sends one packet at most, and calls `mptcp_recv_getack` for it. -/
theorem act_answer (h : t.act o core = some (t', core')) :
    t'.sent = t.sent ∧ t'.mptcp_recv_dsnmap_ = t.records o ∧ core' = core ∨
      ∃ p t₁, t'.sent = t.sent ++ [p] ∧ t₁.mptcp_recv_dsnmap_ = t.records o ∧
        AckOption t₁ t' core core' p.ackno p.flags := by
  cases o with
  | foutput seqno =>
    rcases foutput_spec h with ⟨rfl, rfl⟩ | ⟨p, hout, -, -, hflags, hack, -, hopt⟩
    · exact Or.inl ⟨rfl, rfl, rfl⟩
    · refine Or.inr ⟨p, t, hout.sent, rfl, ?_⟩
      rw [hflags, hack]
      exact hopt
  | recv p cong dupack =>
    have hrecv := recv_receives h
    have hsent : (MptcpAgent.recvOptions t p).sent = t.sent := by
      unfold MptcpAgent.recvOptions
      simp only
      split_ifs <;> rfl
    rcases hrecv.answer with ⟨h1, h2, h3⟩ | ⟨q, h1, -, h3⟩
    · exact Or.inl ⟨h1.trans hsent, h2, h3⟩
    · exact Or.inr ⟨q, _, by rw [h1, hsent], rfl, h3⟩
  | timer cong acknow =>
    cases h
    exact Or.inl ⟨rfl, rfl, rfl⟩
  | usrclosed =>
    cases h
    obtain ⟨-, -, hmap, hsent, -⟩ := usrclosed_spec t
    exact Or.inl ⟨hsent, hmap, rfl⟩
  | listen =>
    cases h
    exact Or.inl ⟨rfl, rfl, rfl⟩

end MpFullTcpAgent

namespace MptcpAgent

variable {s s' : MptcpAgent} {id : ℕ}

/-- The mappings that came with the packets to a subflow. -/
def receivedOn (h : List Action) (id : ℕ) : Set DsnMapping :=
  {m | ∃ p cong dupack, Action.subflow id (.recv p cong dupack) ∈ h ∧ p.mp_dsn ≠ 0 ∧ p.mapping = m}

/-- When a step sends an ACK, all mappings received on the subflow that end at or below
the ACK number were reported. -/
def NothingForgotten (x : List Action × Option MptcpAgent) (a : Action) : Prop :=
  ∀ s ∈ x.2, ∀ s' ∈ s.step a, ∀ id p, (s'.subflows_ id).sent = (s.subflows_ id).sent ++ [p] →
    p.has thSyn = false → ReportedTo (receivedOn (x.1 ++ [a]) id) p.ackno s'.core

/-- When a step sends an ACK, the call of `mptcp_recv_getack` is in turn. -/
def ReportsInTurn (s? : Option MptcpAgent) (a : Action) : Prop :=
  ∀ s ∈ s?, ∀ s' ∈ s.step a, ∀ id o, a = .subflow id o →
    ∀ p, (s'.subflows_ id).sent = (s.subflows_ id).sent ++ [p] → p.has thSyn = false →
      InTurn ((s.subflows_ id).records o) s.core p.ackno

/-- Different mappings received on a subflow are about different data. -/
def DistinctData (h : List Action) : Prop :=
  ∀ id, ∀ m ∈ receivedOn h id, ∀ m' ∈ receivedOn h id, m = m' ∨ Disjoint m.dataBytes m'.dataBytes

/-- The invariant: every mapping received is kept or was reported, and no others are kept. -/
def Accounts (h : List Action) (s : MptcpAgent) : Prop :=
  ∀ id, Remembered (receivedOn h id) (s.subflows_ id).mptcp_recv_dsnmap_ s.core ∧
    ∀ m ∈ (s.subflows_ id).mptcp_recv_dsnmap_, m ∈ receivedOn h id

theorem receivedOn_mono {h h' : List Action} (hsub : h ⊆ h') :
    receivedOn h id ⊆ receivedOn h' id := by
  rintro m ⟨p, cong, dupack, hmem, h2⟩
  exact ⟨p, cong, dupack, hsub hmem, h2⟩

theorem receivedOn_concat_of_ne {h : List Action} {a : Action} (hne : ∀ o, a ≠ .subflow id o) :
    receivedOn (h ++ [a]) id = receivedOn h id := by
  refine Set.Subset.antisymm ?_ (receivedOn_mono (List.subset_append_left _ _))
  rintro m ⟨p, cong, dupack, hmem, h2⟩
  rcases List.mem_append.mp hmem with hmem | hmem
  · exact ⟨p, cong, dupack, hmem, h2⟩
  · exact absurd (List.mem_singleton.mp hmem).symm (hne _)

/-- What a packet brings is added to the vector before anything else. -/
theorem recvOptions_recvmap (t : MpFullTcpAgent) (p : Packet) :
    (recvOptions t p).mptcp_recv_dsnmap_ =
      t.mptcp_recv_dsnmap_ ++ if p.mp_dsn ≠ 0 then [p.mapping] else [] := by
  unfold recvOptions
  simp only
  by_cases hdsn : p.mp_dsn ≠ 0
  · rw [if_pos hdsn, if_pos hdsn]
    split_ifs <;> rfl
  · rw [if_neg hdsn, if_neg hdsn, List.append_nil]
    split_ifs <;> rfl

/-- The invariant, for the mappings `mptcp_recv_getack` finds. -/
theorem Accounts.records {h : List Action} (hs : s.Accounts h) (o : SubflowAction) :
    Remembered (receivedOn (h ++ [.subflow id o]) id) ((s.subflows_ id).records o) s.core ∧
      ∀ m ∈ (s.subflows_ id).records o, m ∈ receivedOn (h ++ [.subflow id o]) id := by
  obtain ⟨hrem, hsub⟩ := hs id
  have hmono : receivedOn h id ⊆ receivedOn (h ++ [.subflow id o]) id :=
    receivedOn_mono (List.subset_append_left _ _)
  have hother : (∀ p cong dupack, o ≠ .recv p cong dupack) →
      receivedOn (h ++ [.subflow id o]) id = receivedOn h id := by
    intro hne
    refine Set.Subset.antisymm ?_ hmono
    rintro m ⟨p, cong, dupack, hmem, h2⟩
    rcases List.mem_append.mp hmem with hmem | hmem
    · exact ⟨p, cong, dupack, hmem, h2⟩
    · have heq := Action.subflow.inj (List.mem_singleton.mp hmem)
      exact absurd heq.2.symm (hne p cong dupack)
  cases o with
  | recv p cong dupack =>
    show Remembered _ (recvOptions _ p).mptcp_recv_dsnmap_ _ ∧
      ∀ m ∈ (recvOptions _ p).mptcp_recv_dsnmap_, _
    rw [recvOptions_recvmap]
    constructor
    · rintro m ⟨q, cong', dupack', hmem, hdsn, rfl⟩
      rcases List.mem_append.mp hmem with hmem | hmem
      · exact (hrem _ ⟨q, cong', dupack', hmem, hdsn, rfl⟩).imp_left
          fun hl => List.mem_append_left _ hl
      · obtain ⟨-, hrecv⟩ := Action.subflow.inj (List.mem_singleton.mp hmem)
        obtain ⟨rfl, -⟩ := SubflowAction.recv.inj hrecv
        rw [if_pos hdsn]
        exact Or.inl (List.mem_append_right _ List.mem_cons_self)
    · intro m hm
      rcases List.mem_append.mp hm with hm | hm
      · exact hmono (hsub m hm)
      · by_cases hdsn : p.mp_dsn ≠ 0
        · rw [if_pos hdsn] at hm
          exact ⟨p, cong, dupack, List.mem_append_right _ List.mem_cons_self, hdsn,
            (List.mem_singleton.mp hm).symm⟩
        · rw [if_neg hdsn] at hm
          cases hm
  | foutput seqno =>
    rw [hother (fun _ _ _ => SubflowAction.noConfusion)]
    exact ⟨hrem, hsub⟩
  | timer cong acknow =>
    rw [hother (fun _ _ _ => SubflowAction.noConfusion)]
    exact ⟨hrem, hsub⟩
  | usrclosed =>
    rw [hother (fun _ _ _ => SubflowAction.noConfusion)]
    exact ⟨hrem, hsub⟩
  | listen =>
    rw [hother (fun _ _ _ => SubflowAction.noConfusion)]
    exact ⟨hrem, hsub⟩

/-- A step that reports in turn keeps the invariant and forgets nothing. -/
theorem Accounts.step {h : List Action} {a : Action} (hs : s.Accounts h)
    (hok : ReportsInTurn (some s) a) (hstep : s.step a = some s') :
    s'.Accounts (h ++ [a]) ∧
      ∀ id p, (s'.subflows_ id).sent = (s.subflows_ id).sent ++ [p] → p.has thSyn = false →
        ReportedTo (receivedOn (h ++ [a]) id) p.ackno s'.core := by
  have hsilent : (∀ id o, a ≠ .subflow id o) → s'.Accounts (h ++ [a]) ∧
      ∀ id p, (s'.subflows_ id).sent = (s.subflows_ id).sent ++ [p] → p.has thSyn = false →
        ReportedTo (receivedOn (h ++ [a]) id) p.ackno s'.core := by
    intro hne
    obtain ⟨hcore, hsame⟩ := step_silent hne hstep
    refine ⟨fun i => ?_, fun i p hsent => ?_⟩
    · rw [receivedOn_concat_of_ne (hne i), (hsame i).2, hcore]
      exact hs i
    · rw [(hsame i).1] at hsent
      simp at hsent
  cases a with
  | sendmsg nbytes => exact hsilent fun _ _ => Action.noConfusion
  | sendControl id => exact hsilent fun _ _ => Action.noConfusion
  | subflow id o =>
    obtain ⟨⟨t', core'⟩, hr, rfl⟩ := Option.map_eq_some_iff.mp hstep
    have hanswer := MpFullTcpAgent.act_answer hr
    obtain ⟨hrem, hsub⟩ := hs.records o
    have hmono : s.core.reportedBytes ⊆ core'.reportedBytes := by
      rcases hanswer with ⟨-, -, rfl⟩ | ⟨p, t₁, -, -, hopt⟩
      · exact subset_rfl
      · exact hopt.mono
    have hother : ∀ i, i ≠ id → (s.put id (t', core')).subflows_ i = s.subflows_ i :=
      fun i hi => Function.update_of_ne hi _ _
    -- what a packet that goes out says about the mappings of the subflow
    have hreported : ∀ p, t'.sent = (s.subflows_ id).sent ++ [p] → p.flags &&& thSyn = 0 →
        ReportedTo (receivedOn (h ++ [.subflow id o]) id) p.ackno core' := by
      intro p hsent hsyn
      have hput : ((s.put id (t', core')).subflows_ id).sent = (s.subflows_ id).sent ++ [p] := by
        rw [put_subflow]
        exact hsent
      have hturn := hok s rfl _ hstep id o rfl p hput (by simpa [Packet.has] using hsyn)
      rcases hanswer with ⟨hnone, -⟩ | ⟨q, t₁, hq, hmap, hopt⟩
      · rw [hnone] at hsent
        simp at hsent
      · rw [hq] at hsent
        obtain rfl : q = p := by simpa using hsent
        have hrem' : Remembered (receivedOn (h ++ [.subflow id o]) id) t₁.mptcp_recv_dsnmap_
            s.core := by
          rw [hmap]
          exact hrem
        rw [← hmap] at hturn
        exact hturn.reportedTo hrem' hopt hsyn
    refine ⟨fun i => ?_, fun i p hsent hsyn => ?_⟩
    · by_cases hi : i = id
      · subst hi
        rw [put_subflow]
        rcases hanswer with ⟨-, hmap, rfl⟩ | ⟨q, t₁, hq, hmap, hopt⟩
        · show Remembered _ t'.mptcp_recv_dsnmap_ _ ∧ ∀ m ∈ t'.mptcp_recv_dsnmap_, _
          rw [hmap]
          exact ⟨hrem, hsub⟩
        · rw [← hmap] at hrem hsub
          refine ⟨hrem.getack hopt fun hsyn => hreported q hq hsyn, fun m hm => ?_⟩
          exact hsub m (hopt.subset hm)
      · rw [hother i hi, receivedOn_concat_of_ne fun o' heq =>
          hi (Action.subflow.inj heq).1.symm]
        exact ⟨fun m hm => ((hs i).1 m hm).imp_right fun hsub => hsub.trans hmono, (hs i).2⟩
    · by_cases hi : i = id
      · subst hi
        rw [put_subflow] at hsent
        exact hreported p hsent (by simpa [Packet.has] using hsyn)
      · rw [hother i hi] at hsent
        simp at hsent

/-- If a step forgets nothing, it reports in turn. -/
theorem Accounts.inTurn {h : List Action} {a : Action} (hs : s.Accounts h)
    (hdata : DistinctData (h ++ [a])) (hgood : NothingForgotten (h, some s) a) :
    ReportsInTurn (some s) a := by
  rintro s₀ ⟨⟩ s' hs' id o rfl p hsent hsyn
  have hreported := hgood s rfl s' hs' id p hsent hsyn
  obtain ⟨⟨t', core'⟩, hr, rfl⟩ := Option.map_eq_some_iff.mp hs'
  rw [put_subflow] at hsent
  obtain ⟨-, hsub⟩ := hs.records o
  rcases MpFullTcpAgent.act_answer hr with ⟨hnone, -⟩ | ⟨q, t₁, hq, hmap, hopt⟩
  · rw [hnone] at hsent
    simp at hsent
  · rw [hq] at hsent
    obtain rfl : q = p := by simpa using hsent
    rw [← hmap] at hsub ⊢
    exact ReportedTo.inTurn (hdata id) hsub hopt (by simpa [Packet.has] using hsyn) hreported

theorem accounts_new (sub_num_ : ℕ) (configs : ℕ → Config) : (new sub_num_ configs).Accounts [] := by
  intro id
  refine ⟨?_, ?_⟩
  · rintro m ⟨p, cong, dupack, hmem, -⟩
    cases hmem
  · intro m hm
    cases hm

/-- **Reports.**  In a run in which every ACK sent reports in turn, all mappings that end
at or below an ACK number were reported when the ACK is sent.  If different mappings
received on a subflow are about different data, these are the only such runs. -/
theorem nothingForgotten_of (sub_num_ : ℕ) (configs : ℕ → Config) (l : List Action) :
    (Run.AllSteps exec ReportsInTurn (some (new sub_num_ configs)) l →
      Run.AllSteps (Run.logged exec) NothingForgotten ([], some (new sub_num_ configs)) l) ∧
    (DistinctData l →
      Run.AllSteps (Run.logged exec) NothingForgotten ([], some (new sub_num_ configs)) l →
        Run.AllSteps exec ReportsInTurn (some (new sub_num_ configs)) l) := by
  have hnew : ∀ s ∈ some (new sub_num_ configs), s.Accounts [] := by
    rintro s ⟨⟩
    exact accounts_new sub_num_ configs
  have hkeep : ∀ h s? a, (∀ s ∈ s?, Accounts h s) → ReportsInTurn s? a →
      ∀ s' ∈ exec s? a, s'.Accounts (h ++ [a]) := by
    intro h s? a hs hok s' hs'
    obtain ⟨s, rfl, hstep⟩ := Option.bind_eq_some_iff.mp hs'
    exact ((hs s rfl).step hok hstep).1
  constructor
  · intro hl
    refine Run.allSteps_imp (I := fun x => ∀ s ∈ x.2, Accounts x.1 s) ?_ ?_ l _ hnew
      ((Run.allSteps_logged l [] _).mpr hl)
    · rintro ⟨h, s?⟩ a hs hok s rfl s' hs'
      exact ((hs s rfl).step hok hs').2
    · rintro ⟨h, s?⟩ a hs hok
      exact hkeep h s? a hs hok
  · -- the history goes along
    have hrun : ∀ (l h : List Action) (s? : Option MptcpAgent), DistinctData (h ++ l) →
        (∀ s ∈ s?, Accounts h s) → Run.AllSteps (Run.logged exec) NothingForgotten (h, s?) l →
          Run.AllSteps exec ReportsInTurn s? l := by
      intro l
      induction l with
      | nil => exact fun h s? _ _ _ => trivial
      | cons a l ih =>
        intro h s? hdata hs hl
        have hsub : h ++ [a] ⊆ h ++ a :: l := by simp
        have hdata' : DistinctData (h ++ [a]) := fun id m hm m' hm' =>
          hdata id m (receivedOn_mono hsub hm) m' (receivedOn_mono hsub hm')
        have hok : ReportsInTurn s? a := by
          rintro s rfl
          exact (hs s rfl).inTurn hdata' hl.1 s rfl
        refine ⟨hok, ih (h ++ [a]) _ ?_ (hkeep h s? a hs hok) hl.2⟩
        rw [List.append_assoc]
        exact hdata
    exact fun hdata hl => hrun l [] _ hdata hnew hl

/-- A connection is taken, and two segments of 500 bytes arrive, each with its mapping.  The
first is not ACKed, since it is less than a segment of the default size. -/
def delayedRun : List Action :=
  [.subflow 0 .listen,
    .subflow 0 (.recv ⟨0, -1, thSyn, 0, 0, 0, 0, 0⟩ ⟨2, 20, 0, 1, false, false, 1⟩ false),
    .subflow 0 (.foutput 0),
    .subflow 0 (.recv ⟨1, 1, thAck, 0, 0, 0, 0, 0⟩ ⟨2, 20, 0, 1, false, false, 1⟩ false),
    .subflow 0 (.recv ⟨1, 1, thAck, 500, 0, 1, 1, 500⟩ ⟨2, 20, 0, 1, false, false, 1⟩ false),
    .subflow 0 (.foutput 1),
    .subflow 0 (.recv ⟨501, 1, thAck, 500, 0, 501, 501, 500⟩ ⟨2, 20, 0, 1, false, false, 1⟩ false)]

/-- The ACK of both segments reports the second mapping only, and erases the first. -/
theorem not_nothingForgotten_delayed : ¬ Run.AllSteps (Run.logged exec) NothingForgotten
    ([], some (new 1 fun _ => Config.default)) (delayedRun ++ [.subflow 0 (.foutput 1)]) := by
  intro h
  have hlast := ((Run.allSteps_append _ _ _).mp h).2.1
  have hlog : delayedRun.foldl (Run.logged exec) ([], some (new 1 fun _ => Config.default)) =
      (delayedRun, delayedRun.foldl exec (some (new 1 fun _ => Config.default))) := rfl
  rw [hlog] at hlast
  have hrun : ((delayedRun.foldl exec (some (new 1 fun _ => Config.default))).bind fun s =>
      (s.step (.subflow 0 (.foutput 1))).map fun s' =>
        ((s.subflows_ 0).sent, (s'.subflows_ 0).sent, s'.core.reported)) =
      some ([⟨0, 1, thSyn ||| thAck ||| thPush, 0, 0, 0, 0, 0⟩],
        [⟨0, 1, thSyn ||| thAck ||| thPush, 0, 0, 0, 0, 0⟩,
          ⟨1, 1001, thAck ||| thPush, 0, 1, 0, 0, 0⟩], [⟨501, 500⟩]) := by
    decide +kernel
  obtain ⟨s, hs, h2⟩ := Option.bind_eq_some_iff.mp hrun
  obtain ⟨s', hs', heq⟩ := Option.map_eq_some_iff.mp h2
  obtain ⟨hold, hrest⟩ := Prod.mk.inj heq
  obtain ⟨hnew, hreported⟩ := Prod.mk.inj hrest
  have hall := hlast s hs s' hs' 0 ⟨1, 1001, thAck ||| thPush, 0, 1, 0, 0, 0⟩
    (by rw [hold, hnew]; rfl) (by decide) ⟨1, 1, 500, 0⟩
    ⟨⟨1, 1, thAck, 500, 0, 1, 1, 500⟩, ⟨2, 20, 0, 1, false, false, 1⟩, false,
      List.mem_append_left _ (by simp [delayedRun]), by decide, rfl⟩ (by decide)
  have hbyte : (1 : ℤ) ∈ s'.core.reportedBytes := hall ⟨by decide, by decide⟩
  obtain ⟨r, hr, hmem⟩ := hbyte
  rw [hreported, List.mem_singleton] at hr
  subst hr
  exact absurd hmem.1 (by decide)

end MptcpAgent

end Ns2.Mptcp
