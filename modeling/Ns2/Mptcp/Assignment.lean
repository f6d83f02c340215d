import Ns2.Mptcp.Output

/-!
# Mappings and the streams of the subflows

`send_control` records a mapping from `curseq_ + 1` on, and calls `sendmsg` afterwards.
What `sendmsg` appends depends on the state of the connection: after the last byte of the
stream, at the start of a new stream, or nothing at all.

* `advance_spec` — what `advance_bytes` appends, in every state.
* `DataExact` — the mappings of all subflows cut the data stream up to `mcurseq_`.
* `Agrees` — the mapping a step records is about the bytes the step appends.
* `Fits` — the state of a subflow in which that is so.
* `assignment_exact` — the data ranges are right in every run; the mappings agree with
  the streams exactly when every subflow fits that is given bytes.
-/

namespace Ns2.Mptcp

open Ns2.Tcp

namespace MpFullTcpAgent

variable {t t' : MpFullTcpAgent} {nb : ℤ}

/-- The states in which `advance_bytes` takes bytes. -/
def accepts (t : MpFullTcpAgent) : Bool :=
  t.reopens ∨ t.state_ = .established ∨ t.state_ = .synSent ∨ t.state_ = .synReceived

/-- The next byte of the stream is the one after `curseq_`, and the connection is not
closing. -/
def Fits (t : MpFullTcpAgent) : Prop := t.accepts = true ∧ t.edge = t.curseq_

instance (t : MpFullTcpAgent) : Decidable t.Fits := inferInstanceAs (Decidable (_ ∧ _))

theorem reopens_iff : t.reopens = true ↔ t.state_ = .closed ∨ t.state_ = .listen := by
  simp [reopens]

theorem accepts_iff : t.accepts = true ↔ t.reopens = true ∨
    t.state_ = .established ∨ t.state_ = .synSent ∨ t.state_ = .synReceived := by
  simp [accepts]

/-- In the states where bytes are appended to a stream there is one. -/
theorem not_reopens (h : t.state_ = .established ∨ t.state_ = .synSent ∨ t.state_ = .synReceived) :
    t.reopens = false := by
  unfold reopens
  rcases h with h | h | h <;> simp [h]

/-- A subflow fits when it has no stream yet and `curseq_` is the initial sequence
number, or its stream goes on from the initial sequence number or later. -/
theorem fits_iff : t.Fits ↔ t.reopens = true ∧ t.curseq_ = t.iss_ ∨
    (t.state_ = .established ∨ t.state_ = .synSent ∨ t.state_ = .synReceived) ∧
      t.iss_ ≤ t.curseq_ := by
  unfold Fits edge
  rw [accepts_iff]
  by_cases hst : t.state_ = .established ∨ t.state_ = .synSent ∨ t.state_ = .synReceived
  · simp [not_reopens hst, hst]
  · by_cases hr : t.reopens = true
    · simp only [hr, hst, if_true, true_and, false_and, or_false]
      exact eq_comm
    · simp [hr, hst]

/-- What does not depend on the state of the connection. -/
theorem reset_spec (h : t.reset = some t') :
    t'.toConfig = t.toConfig ∧ t'.mptcp_dsnmap_ = t.mptcp_dsnmap_ ∧
      t'.mptcp_recv_dsnmap_ = t.mptcp_recv_dsnmap_ ∧ t'.sent = t.sent ∧ t'.curseq_ = 0 ∧
      t'.state_ = t.state_ ∧ t'.highest_ack_ = -1 ∧ t'.maxseq_ = -1 ∧ t'.rcv_nxt_ = -1 := by
  obtain ⟨q, -, rfl⟩ := Option.map_eq_some_iff.mp h
  exact ⟨rfl, rfl, rfl, rfl, rfl, rfl, rfl, rfl, rfl⟩

/-- What `advance_bytes` appends, and what it leaves alone. -/
theorem advance_spec (h : t.advance nb = some t') :
    t'.curseq_ = (if t.accepts then t.edge + nb else t.curseq_) ∧ t'.toConfig = t.toConfig ∧
      t'.mptcp_dsnmap_ = t.mptcp_dsnmap_ ∧ t'.mptcp_recv_dsnmap_ = t.mptcp_recv_dsnmap_ ∧
      t'.sent = t.sent := by
  have happend : (t.state_ = .established ∨ t.state_ = .synSent ∨ t.state_ = .synReceived) →
      (if t.curseq_ < t.iss_ then t.iss_ else t.curseq_) + nb =
        if t.accepts then t.edge + nb else t.curseq_ := by
    intro hst
    rw [if_pos (accepts_iff.mpr (Or.inr hst)), edge, not_reopens hst]
    simp only [Bool.false_eq_true, if_false]
    split <;> omega
  have hreset : (t.state_ = .closed ∨ t.state_ = .listen) →
      (t.reset.map fun r => { r with curseq_ := r.iss_ + nb, state_ := .synSent }) = some t' →
      t'.curseq_ = (if t.accepts then t.edge + nb else t.curseq_) ∧ t'.toConfig = t.toConfig ∧
        t'.mptcp_dsnmap_ = t.mptcp_dsnmap_ ∧ t'.mptcp_recv_dsnmap_ = t.mptcp_recv_dsnmap_ ∧
        t'.sent = t.sent := by
    intro hst h
    have hopen := reopens_iff.mpr hst
    obtain ⟨r, hr, rfl⟩ := Option.map_eq_some_iff.mp h
    obtain ⟨h1, h2, h3, h4, -⟩ := reset_spec hr
    refine ⟨?_, h1, h2, h3, h4⟩
    rw [if_pos (accepts_iff.mpr (Or.inl hopen)), edge, if_pos hopen]
    exact congrArg (· + nb) (congrArg Config.iss_ h1)
  unfold advance at h
  split at h
  · rename_i hst; exact hreset (Or.inl hst) h
  · rename_i hst; exact hreset (Or.inr hst) h
  · rename_i hst; cases h; exact ⟨happend (Or.inl hst), rfl, rfl, rfl, rfl⟩
  · rename_i hst; cases h; exact ⟨happend (Or.inr (Or.inl hst)), rfl, rfl, rfl, rfl⟩
  · rename_i hst; cases h; exact ⟨happend (Or.inr (Or.inr hst)), rfl, rfl, rfl, rfl⟩
  · rename_i h1 h2 h3 h4 h5
    cases h
    refine ⟨(if_neg fun hacc => ?_).symm, rfl, rfl, rfl, rfl⟩
    rw [accepts_iff, reopens_iff] at hacc
    rcases hacc with (h | h) | h | h | h
    · exact h1 h
    · exact h2 h
    · exact h3 h
    · exact h4 h
    · exact h5 h

/-- The bytes that `advance_bytes` appends, if any. -/
theorem appended_eq (h : t.advance nb = some t') :
    t.appended t' = if t.accepts then Set.Ioc t.edge (t.edge + nb) else ∅ := by
  obtain ⟨hcur, -⟩ := advance_spec h
  unfold appended
  rw [hcur]
  split
  · rfl
  · rename_i hacc
    refine Set.Ioc_eq_empty fun hlt => ?_
    have hopen : ¬ t.reopens = true := fun ho => hacc (accepts_iff.mpr (Or.inl ho))
    rw [edge, if_neg hopen] at hlt
    omega

/-- The mapping is about the bytes appended exactly when the subflow fits. -/
theorem bytes_eq_appended_iff (d : ℤ) (hnb : 0 ≤ nb) (h : t.advance nb = some t') :
    (DsnMapping.new d (t.curseq_ + 1) nb).bytes = t.appended t' ↔ (0 < nb → t.Fits) := by
  rw [appended_eq h]
  show Set.Ico (t.curseq_ + 1) (t.curseq_ + 1 + nb) = _ ↔ _
  rcases hnb.eq_or_lt with rfl | hpos
  · refine iff_of_true ?_ (fun h => absurd h (lt_irrefl 0))
    rw [Set.Ico_eq_empty (by omega)]
    split
    · exact (Set.Ioc_eq_empty (by omega)).symm
    · rfl
  · have hmem : t.curseq_ + 1 ∈ Set.Ico (t.curseq_ + 1) (t.curseq_ + 1 + nb) := ⟨le_rfl, by omega⟩
    have hlast : t.curseq_ + nb ∈ Set.Ico (t.curseq_ + 1) (t.curseq_ + 1 + nb) := by
      constructor <;> omega
    constructor
    · intro heq _
      rw [heq] at hmem hlast
      split at hmem
      · rename_i hacc
        rw [if_pos hacc] at hlast
        refine ⟨hacc, ?_⟩
        have h1 := hmem.1
        have h2 := hlast.2
        omega
      · exact absurd hmem (Set.notMem_empty _)
    · intro hfits
      obtain ⟨hacc, hedge⟩ := hfits hpos
      rw [if_pos hacc, hedge]
      ext k
      simp only [Set.mem_Ico, Set.mem_Ioc]
      omega

end MpFullTcpAgent

namespace MptcpAgent

variable {s s' : MptcpAgent} {id : ℕ}

/-! ## The data stream -/

/-- The mappings cut the data stream: their data ranges are pairwise disjoint, and cover
`[1, mcurseq_)`. -/
structure DataExact (s : MptcpAgent) : Prop where
  /-- No byte is in two mappings. -/
  disjoint : s.recorded.Pairwise fun r r' => Disjoint r.2.dataBytes r'.2.dataBytes
  /-- The bytes up to `mcurseq_` are those in a mapping. -/
  cover : ∀ k, (∃ r ∈ s.recorded, k ∈ r.2.dataBytes) ↔ 1 ≤ k ∧ k < s.mcurseq_
  /-- The data stream starts at one. -/
  one_le : 1 ≤ s.mcurseq_

/-- What a turn of `send_control` that hands out bytes does. -/
theorem assign_spec (hpos : 0 ≤ s.total_bytes_) (h : s.assign id = some s') :
    s' = s ∨ ∃ n t', 0 ≤ n ∧ (s.subflows_ id).sendbytes s.total_bytes_ = some n ∧
      ((s.subflows_ id).mptcpAddMapping s.mcurseq_ n).advance n = some t' ∧
      s' = (s.put id (t', s.core)).assigned id (s.subflows_ id) n := by
  unfold assign at h
  cases hn : (s.subflows_ id).sendbytes s.total_bytes_ with
  | none =>
    rw [hn] at h
    cases h
    exact Or.inl rfl
  | some n =>
    rw [hn] at h
    obtain ⟨s₁, h1, h2⟩ := Option.map_eq_some_iff.mp h
    obtain ⟨r, h3, rfl⟩ := Option.map_eq_some_iff.mp h1
    obtain ⟨t', h4, rfl⟩ := Option.map_eq_some_iff.mp h3
    exact Or.inr ⟨n, t', MpFullTcpAgent.sendbytes_nonneg hn hpos, rfl, h4, h2.symm⟩

/-- A mapping from `mcurseq_` on takes the cut further. -/
theorem DataExact.assigned {t : MpFullTcpAgent} {n : ℤ} (hs : s.DataExact) (hn : 0 ≤ n) :
    (s.assigned id t n).DataExact := by
  have hbelow : ∀ r ∈ s.recorded, ∀ k ∈ r.2.dataBytes, k < s.mcurseq_ := fun r hr k hk =>
    ((hs.cover k).mp ⟨r, hr, hk⟩).2
  refine ⟨?_, ?_, ?_⟩
  · refine List.pairwise_append.mpr ⟨hs.disjoint, List.pairwise_singleton _ _, ?_⟩
    intro r hr r' hr'
    rw [List.mem_singleton.mp hr']
    refine Set.disjoint_left.mpr fun k hk hk' => ?_
    exact absurd (hbelow r hr k hk) (not_lt.mpr hk'.1)
  · intro k
    have hsplit : (∃ r ∈ (s.assigned id t n).recorded, k ∈ r.2.dataBytes) ↔
        (∃ r ∈ s.recorded, k ∈ r.2.dataBytes) ∨ s.mcurseq_ ≤ k ∧ k < s.mcurseq_ + n := by
      show (∃ r ∈ s.recorded ++ [_], _) ↔ _
      simp only [List.mem_append, List.mem_singleton, or_and_right, exists_or, exists_eq_left]
      exact Iff.rfl
    rw [hsplit, hs.cover]
    show _ ↔ 1 ≤ k ∧ k < s.mcurseq_ + n
    have := hs.one_le
    omega
  · show 1 ≤ s.mcurseq_ + n
    have := hs.one_le
    omega

/-- Every step keeps the cut. -/
theorem DataExact.step {a : Action} (hs : s.DataExact) (h : s.step a = some s') :
    s'.DataExact := by
  cases a with
  | sendmsg nbytes =>
    cases h
    unfold request
    split
    · exact ⟨hs.disjoint, hs.cover, hs.one_le⟩
    · exact ⟨hs.disjoint, hs.cover, hs.one_le⟩
  | sendControl id =>
    unfold MptcpAgent.step at h
    simp only at h
    split at h
    · rename_i hturn
      rcases assign_spec hturn.2 h with rfl | ⟨n, t', hn, -, -, rfl⟩
      · exact hs
      · have hput : (s.put id (t', s.core)).DataExact := ⟨hs.disjoint, hs.cover, hs.one_le⟩
        exact hput.assigned hn
    · cases h
      exact hs
  | subflow id o =>
    obtain ⟨r, -, rfl⟩ := Option.map_eq_some_iff.mp h
    exact ⟨hs.disjoint, hs.cover, hs.one_le⟩

/-! ## The streams of the subflows -/

/-- A mapping is recorded for a subflow in a step. -/
def Records (s s' : MptcpAgent) (id : ℕ) (m : DsnMapping) : Prop :=
  s'.recorded = s.recorded ++ [(id, m)]

/-- If a step records a mapping, the mapping is about the bytes of the stream that the
step appends. -/
def Agrees (s? : Option MptcpAgent) (a : Action) : Prop :=
  ∀ s ∈ s?, ∀ s' ∈ s.step a, ∀ id m, Records s s' id m →
    m.bytes = (s.subflows_ id).appended (s'.subflows_ id)

/-- If a step records a mapping of some length, the subflow fits. -/
def RecordsFit (s? : Option MptcpAgent) (a : Action) : Prop :=
  ∀ s ∈ s?, ∀ s' ∈ s.step a, ∀ id m, Records s s' id m → 0 < m.length → (s.subflows_ id).Fits

/-- Only turns of `send_control` record mappings. -/
theorem step_records {a : Action} {m : DsnMapping} (h : s.step a = some s')
    (hr : Records s s' id m) :
    ∃ n t', 0 ≤ n ∧ ((s.subflows_ id).mptcpAddMapping s.mcurseq_ n).advance n = some t' ∧
      s' = (s.put id (t', s.core)).assigned id (s.subflows_ id) n ∧
      m = DsnMapping.new s.mcurseq_ ((s.subflows_ id).curseq_ + 1) n := by
  have hsame : s'.recorded = s.recorded → False := by
    intro heq
    rw [Records, heq] at hr
    simpa using congrArg List.length hr
  cases a with
  | sendmsg nbytes =>
    cases h
    refine (hsame ?_).elim
    unfold request
    split <;> rfl
  | sendControl i =>
    unfold MptcpAgent.step at h
    simp only at h
    split at h
    · rename_i hturn
      rcases assign_spec hturn.2 h with rfl | ⟨n, t', hn, -, hadv, rfl⟩
      · exact (hsame rfl).elim
      · have hcons := List.append_cancel_left hr
        obtain ⟨rfl, rfl⟩ := Prod.mk.inj (List.cons.inj hcons).1
        exact ⟨n, t', hn, hadv, rfl, rfl⟩
    · cases h
      exact (hsame rfl).elim
  | subflow i o =>
    obtain ⟨r, -, rfl⟩ := Option.map_eq_some_iff.mp h
    exact (hsame rfl).elim

/-- A step agrees exactly when it records no mapping for a subflow that does not fit. -/
theorem agrees_iff (s? : Option MptcpAgent) (a : Action) : Agrees s? a ↔ RecordsFit s? a := by
  unfold Agrees RecordsFit
  refine forall₂_congr fun s _ => forall₂_congr fun s' hs' => forall₂_congr fun id m => ?_
  refine forall_congr' fun hr => ?_
  obtain ⟨n, t', hn, hadv, rfl, rfl⟩ := step_records hs' hr
  have hsub : ((s.put id (t', s.core)).assigned id (s.subflows_ id) n).subflows_ id = t' :=
    put_subflow s id (t', s.core)
  rw [hsub]
  exact MpFullTcpAgent.bytes_eq_appended_iff (t := (s.subflows_ id).mptcpAddMapping s.mcurseq_ n)
    s.mcurseq_ hn hadv

/-- **Assignments.**  In every run the data ranges of the mappings of all subflows are
pairwise disjoint and cover `[1, mcurseq_)`.  The range of every mapping on its subflow is
what `sendmsg` has appended there if and only if every subflow fits when a mapping of
some length is recorded for it. -/
theorem assignment_exact (sub_num_ : ℕ) (configs : ℕ → Config) (l : List Action) :
    (∀ s ∈ l.foldl exec (some (new sub_num_ configs)), s.DataExact) ∧
      (Run.AllSteps exec Agrees (some (new sub_num_ configs)) l ↔
        Run.AllSteps exec RecordsFit (some (new sub_num_ configs)) l) := by
  constructor
  · refine List.foldlRecOn (motive := fun s? => ∀ s ∈ s?, DataExact s) l exec ?_ ?_
    · intro s hs
      cases hs
      refine ⟨List.Pairwise.nil, fun k => ?_, le_rfl⟩
      show (∃ r ∈ [], _) ↔ 1 ≤ k ∧ k < 1
      simp only [List.not_mem_nil, false_and, exists_false, false_iff]
      omega
    · intro s? hs? a _ s' hs'
      obtain ⟨s, hs, hstep⟩ := Option.bind_eq_some_iff.mp hs'
      exact (hs? s hs).step hstep
  · exact Run.allSteps_congr (I := fun _ => True) (fun s? a _ => agrees_iff s? a)
      (fun _ _ _ _ => trivial) l _ trivial

/-- The first bytes of a connection whose initial sequence number is not zero: the mapping
is about the bytes from 1 on, the stream has them from 101 on. -/
theorem not_agrees_iss : ¬ Run.AllSteps exec Agrees
    (some (new 1 fun _ => { Config.default with iss_ := 100 })) [.sendmsg 1000, .sendControl 0] := by
  intro h
  have hturn := (agrees_iff _ _).mp h.2.1
  have hrec : (((new 1 fun _ => { Config.default with iss_ := 100 }).request 1000).step
      (.sendControl 0)).map recorded = some [(0, ⟨1, 1, 536, 0⟩)] := by
    decide +kernel
  obtain ⟨s', hs', hm⟩ := Option.map_eq_some_iff.mp hrec
  have hfits := hturn _ rfl s' hs' 0 _ hm (by decide)
  exact absurd hfits (by decide)

end MptcpAgent

end Ns2.Mptcp
