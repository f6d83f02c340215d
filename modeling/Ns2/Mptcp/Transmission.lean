import Ns2.Mptcp.Input

/-!
# Every transmitted byte is mapped

`sendpacket` puts at most one mapping on a packet: the first in `mptcp_dsnmap_` that the
first byte of the packet is in, unless that mapping went out on another packet before.  A
packet that runs on into the next mapping leaves that one behind.

* `Sound` — the invariant: on the bytes of the stream the mappings kept are right and do
  not overlap; every byte is in one of them or in a mapping sent before; a mapping with a
  `sentseq` was sent.
* `StepOk` — the condition on a step: no packet starts a mapping anywhere but with its
  first byte, mappings are made for subflows that fit, and only mappings that were sent
  are removed.
* `Mapped` — every byte a step sends is in a mapping on that packet or an earlier one,
  with the data sequence number `send_control` has given it.
* `transmitted_mapped` — runs of such steps send mapped bytes only.
-/

namespace Ns2.Mptcp

open Ns2.Tcp

/-! ## One subflow -/

/-- The bytes of the stream of a subflow. -/
def MpFullTcpAgent.InStream (t : MpFullTcpAgent) (k : ℤ) : Prop := t.iss_ < k ∧ k ≤ t.curseq_

/-- The mappings of a subflow against its stream, the data sequence numbers of which are
`dsn`. -/
structure Sound (t : MpFullTcpAgent) (dsn : ℤ → Option ℤ) : Prop where
  /-- A mapping that is kept is right. -/
  right : ∀ m ∈ t.mptcp_dsnmap_, ∀ k ∈ m.bytes, t.InStream k → dsn k = some (m.dsn k)
  /-- Every byte is in a mapping that is kept or that was sent. -/
  covered : ∀ k, t.InStream k → (∃ m ∈ t.mptcp_dsnmap_, k ∈ m.bytes) ∨
    ∃ p ∈ t.sent, k ∈ p.mapping.bytes ∧ dsn k = some (p.mapping.dsn k)
  /-- No byte is in two mappings that are kept. -/
  disjoint : t.mptcp_dsnmap_.Pairwise fun m m' => ∀ k, t.InStream k → k ∈ m.bytes → k ∉ m'.bytes
  /-- A mapping with a `sentseq` was sent. -/
  marked : ∀ m ∈ t.mptcp_dsnmap_, m.sentseq ≠ 0 → ∃ p ∈ t.sent, p.mapping.Same m

/-- The mapping is about one of the bytes of `[a, b)`. -/
def DsnMapping.Overlaps (m : DsnMapping) (a b : ℤ) : Prop := max m.sseqnum a < min m.stop b

instance (m : DsnMapping) (a b : ℤ) : Decidable (m.Overlaps a b) :=
  inferInstanceAs (Decidable (_ < _))

theorem DsnMapping.overlaps_iff {m : DsnMapping} {a b : ℤ} :
    m.Overlaps a b ↔ ∃ k ∈ Set.Ico a b, k ∈ m.bytes := by
  unfold DsnMapping.Overlaps
  constructor
  · intro h
    exact ⟨max m.sseqnum a, ⟨le_max_right _ _, h.trans_le (min_le_right _ _)⟩, le_max_left _ _,
      h.trans_le (min_le_left _ _)⟩
  · rintro ⟨k, hk, hkm⟩
    exact (max_le hkm.1 hk.1).trans_lt (lt_min hkm.2 hk.2)

/-- The mapping `mptcp_remove_mapping` erases was sent, or is about bytes that are not in
the stream. -/
def Removable (t : MpFullTcpAgent) (seqnum : ℤ) : Prop :=
  ∀ m ∈ t.mptcp_dsnmap_.find? (fun m => seqnum > m.dseqnum + m.length),
    m.sentseq ≠ 0 ∨ t.curseq_ < m.sseqnum

instance (t : MpFullTcpAgent) (seqnum : ℤ) : Decidable (Removable t seqnum) :=
  inferInstanceAs (Decidable (∀ m ∈ List.find? _ _, _))

namespace Sound

variable {t t' : MpFullTcpAgent} {dsn dsn' : ℤ → Option ℤ} {p : Packet}

/-- Nothing is to be said about a subflow without a stream, except about what was sent. -/
theorem of_empty (h : t.curseq_ ≤ t.iss_)
    (hmarked : ∀ m ∈ t.mptcp_dsnmap_, m.sentseq ≠ 0 → ∃ p ∈ t.sent, p.mapping.Same m) :
    Sound t dsn := by
  have hno : ∀ k, ¬ t.InStream k := fun k hk => by
    have h1 := hk.1
    have h2 := hk.2
    omega
  refine ⟨fun m _ k _ hk => (hno k hk).elim, fun k hk => (hno k hk).elim, ?_, hmarked⟩
  exact List.pairwise_of_forall fun m m' k hk => (hno k hk).elim

/-- The mappings do not matter where the stream is shorter, as long as what was sent is
still there. -/
theorem shrink (h : Sound t dsn) (hconfig : t'.toConfig = t.toConfig)
    (hmap : t'.mptcp_dsnmap_ = t.mptcp_dsnmap_) (hcur : t'.curseq_ ≤ t.curseq_)
    (hsent : t.sent ⊆ t'.sent) : Sound t' dsn := by
  have hin : ∀ k, t'.InStream k → t.InStream k := fun k hk => by
    have hiss : t'.iss_ = t.iss_ := congrArg Config.iss_ hconfig
    have h1 := hk.1
    have h2 := hk.2
    exact ⟨by omega, by omega⟩
  refine ⟨?_, ?_, ?_, ?_⟩
  · intro m hm k hk hs
    rw [hmap] at hm
    exact h.right m hm k hk (hin k hs)
  · intro k hk
    rw [hmap]
    exact (h.covered k (hin k hk)).imp_right fun ⟨p, hp, h'⟩ => ⟨p, hsent hp, h'⟩
  · rw [hmap]
    exact h.disjoint.imp fun hd k hk => hd k (hin k hk)
  · intro m hm hne
    rw [hmap] at hm
    obtain ⟨p, hp, hsame⟩ := h.marked m hm hne
    exact ⟨p, hsent hp, hsame⟩

/-- Input keeps the invariant. -/
theorem receives {core core' : Core} (h : Sound t dsn) (hiss : 0 ≤ t.iss_)
    (hr : t.Receives core t' core') : Sound t' dsn := by
  obtain ⟨l, hl, -⟩ := hr.sent
  have hsub : t.sent ⊆ t'.sent := by
    rw [hl]
    exact List.subset_append_left _ _
  rcases hr.curseq with heq | hzero
  · exact h.shrink hr.config hr.dsnmap heq.le hsub
  · refine of_empty ?_ ?_
    · rw [hzero, show t'.iss_ = t.iss_ from congrArg Config.iss_ hr.config]
      exact hiss
    · intro m hm hne
      rw [hr.dsnmap] at hm
      obtain ⟨p, hp, hsame⟩ := h.marked m hm hne
      exact ⟨p, hsub hp, hsame⟩

/-- `mptcp_remove_mapping` keeps the invariant when the mapping was sent. -/
theorem remove (h : Sound t dsn) {seqnum : ℤ} (hrem : Removable t seqnum) :
    Sound (t.mptcpRemoveMapping seqnum) dsn := by
  have hsub : removeFirst seqnum t.mptcp_dsnmap_ ⊆ t.mptcp_dsnmap_ := List.eraseP_subset
  refine ⟨fun m hm => h.right m (hsub hm), ?_, h.disjoint.sublist List.eraseP_sublist,
    fun m hm => h.marked m (hsub hm)⟩
  intro k hk
  rcases h.covered k hk with ⟨m, hm, hkm⟩ | hsent
  · have hgone : m ∈ removeFirst seqnum t.mptcp_dsnmap_ ∨ _ := mem_removeFirst_or_find hm
    rcases hgone with hm' | hfind
    · exact Or.inl ⟨m, hm', hkm⟩
    · rcases hrem m hfind with hne | hlt
      · obtain ⟨p, hp, hsame⟩ := h.marked m hm hne
        refine Or.inr ⟨p, hp, ?_, ?_⟩
        · rw [hsame.bytes]
          exact hkm
        · rw [hsame.dsn]
          exact h.right m hm k hkm hk
      · exact absurd (hlt.trans_le hkm.1) (not_lt.mpr hk.2)
  · exact Or.inr hsent

/-- Output keeps the invariant. -/
theorem output (h : Sound t dsn) (ho : t.Output t' p) : Sound t' dsn := by
  have hin : ∀ k, t'.InStream k ↔ t.InStream k := fun k => by
    unfold MpFullTcpAgent.InStream
    rw [ho.frame.curseq, ho.frame.iss]
  have hsub : t.sent ⊆ t'.sent := by
    rw [ho.sent]
    exact List.subset_append_left _ _
  by_cases hlen : p.datalen = 0
  · exact h.shrink ho.frame.config (ho.nodata hlen).1 ho.frame.curseq.le hsub
  · have hmap := ho.data hlen
    refine ⟨?_, ?_, ?_, ?_⟩
    · intro m hm k hk hs
      rw [hmap] at hm
      obtain ⟨m₀, hm₀, hsame, -⟩ := exists_of_mem_attach hm
      rw [hsame.bytes] at hk
      rw [hsame.dsn]
      exact h.right m₀ hm₀ k hk ((hin k).mp hs)
    · intro k hk
      rcases h.covered k ((hin k).mp hk) with ⟨m, hm, hkm⟩ | ⟨q, hq, h'⟩
      · have hkept : ∃ m' ∈ t'.mptcp_dsnmap_, m'.Same m := by
          rw [hmap]
          exact exists_mem_attach hm
        obtain ⟨m', hm', hsame⟩ := hkept
        refine Or.inl ⟨m', hm', ?_⟩
        rw [hsame.bytes]
        exact hkm
      · exact Or.inr ⟨q, hsub hq, h'⟩
    · have hbytes : (t'.mptcp_dsnmap_.map DsnMapping.bytes).Pairwise
          fun b b' => ∀ k, t.InStream k → k ∈ b → k ∉ b' := by
        rw [hmap, attach_bytes]
        exact List.pairwise_map.mpr h.disjoint
      exact (List.pairwise_map.mp hbytes).imp fun hd k hk => hd k ((hin k).mp hk)
    · intro m hm hne
      rw [hmap] at hm
      obtain ⟨m₀, hm₀, hsame, hseq | hatt⟩ := exists_of_mem_attach hm
      · rw [hseq] at hne
        obtain ⟨q, hq, hsame'⟩ := h.marked m₀ hm₀ hne
        exact ⟨q, hsub hq, hsame'.trans hsame.symm⟩
      · refine ⟨p, ?_, (ho.mapping m₀ hlen hatt).trans hsame.symm⟩
        rw [ho.sent]
        exact List.mem_append_right _ List.mem_cons_self

/-- The bytes a packet carries are in mappings, if it starts every mapping it is the
first to carry bytes of. -/
theorem output_mapped (h : Sound t dsn) (ho : t.Output t' p) (hiss : t.iss_ < p.seqno)
    (hstop : p.seqno + p.datalen ≤ t.curseq_ + 1)
    (hok : ∀ m ∈ t.mptcp_dsnmap_, m.Overlaps p.seqno (p.seqno + p.datalen) →
      m.sentseq ≠ 0 ∨ m.Starts p.seqno) :
    ∀ k ∈ p.payload, ∃ q ∈ t'.sent, k ∈ q.mapping.bytes ∧ dsn k = some (q.mapping.dsn k) := by
  intro k hk
  have hpos : p.datalen ≠ 0 := by
    have h1 := hk.1
    have h2 := hk.2
    omega
  have hks : t.InStream k := by
    have h1 := hk.1
    have h2 := hk.2
    exact ⟨by omega, by omega⟩
  have hfirst : t.InStream p.seqno := by
    have h1 := hk.1
    have h2 := hk.2
    exact ⟨hiss, by omega⟩
  have hold : ∀ q ∈ t.sent, q ∈ t'.sent := fun q hq => by
    rw [ho.sent]
    exact List.mem_append_left _ hq
  rcases h.covered k hks with ⟨m, hm, hkm⟩ | ⟨q, hq, h'⟩
  · have hright := h.right m hm k hkm hks
    by_cases hne : m.sentseq = 0
    · -- the mapping goes out now
      have hstart := (hok m hm (DsnMapping.overlaps_iff.mpr ⟨k, hk, hkm⟩)).resolve_left (not_not.mpr hne)
      cases hatt : (attach p.seqno t.mptcp_dsnmap_).2 with
      | none => exact absurd hne ((attach_eq_none hatt).2 m hm hstart).1
      | some m₀ =>
        obtain ⟨hstart₀, -, A, B, hl, -⟩ := attach_eq_some hatt
        have hm₀ : m₀ ∈ t.mptcp_dsnmap_ := by
          rw [hl]
          exact List.mem_append_right _ List.mem_cons_self
        have hsame : m₀ = m := by
          by_contra hdiff
          have : Std.Symm fun m m' : DsnMapping =>
              ∀ k, t.InStream k → k ∈ m.bytes → k ∉ m'.bytes :=
            ⟨fun a b hab k hk hb ha => hab k hk ha hb⟩
          exact h.disjoint.forall hm₀ hm hdiff p.seqno hfirst hstart₀ hstart
        subst hsame
        have hmap := ho.mapping m₀ hpos hatt
        refine ⟨p, ?_, ?_, ?_⟩
        · rw [ho.sent]
          exact List.mem_append_right _ List.mem_cons_self
        · rw [hmap.bytes]
          exact hkm
        · rw [hmap.dsn]
          exact hright
    · obtain ⟨q, hq, hsame⟩ := h.marked m hm hne
      refine ⟨q, hold q hq, ?_, ?_⟩
      · rw [hsame.bytes]
        exact hkm
      · rw [hsame.dsn]
        exact hright
  · exact ⟨q, hold q hq, h'⟩

/-- A byte of the stream with the new mapping was in the stream before, or the new mapping is about
it. -/
theorem inStream_cases {d n k : ℤ}
    (hcur : t'.curseq_ = if t.accepts then t.edge + n else t.curseq_) (hiss : t'.iss_ = t.iss_)
    (hfits : 0 < n → t.accepts = true → t.Fits)
    (hdsn : dsn' k =
      if t.edge < k ∧ k ≤ t'.curseq_ then some (d + (k - t.edge - 1))
      else if t.reopens then none else dsn k) (hk : t'.InStream k) :
    t.InStream k ∧ dsn' k = dsn k ∨
      0 < n ∧ t.accepts = true ∧ t.curseq_ < k ∧ k ≤ t.curseq_ + n ∧
        dsn' k = some (d + (k - t.curseq_ - 1)) := by
  obtain ⟨hk1, hk2⟩ := hk
  rw [hiss] at hk1
  have hk2' := hk2
  rw [hcur] at hk2'
  rw [hdsn]
  by_cases hopen : t.reopens = true
  · have hacc : t.accepts = true := MpFullTcpAgent.accepts_iff.mpr (Or.inl hopen)
    have hedge : t.edge = t.iss_ := if_pos hopen
    rw [if_pos hacc] at hk2'
    have hpos : 0 < n := by omega
    have hcurseq := (hfits hpos hacc).2
    rw [if_pos ⟨by omega, hk2⟩]
    exact Or.inr ⟨hpos, hacc, by omega, by omega, by rw [hcurseq]⟩
  · have hedge : t.edge = max t.curseq_ t.iss_ := if_neg hopen
    by_cases hnew : t.edge < k
    · have hacc : t.accepts = true := by
        by_contra hacc
        rw [if_neg hacc] at hk2'
        omega
      rw [if_pos hacc] at hk2'
      have hpos : 0 < n := by omega
      have hcurseq := (hfits hpos hacc).2
      rw [if_pos ⟨hnew, hk2⟩]
      exact Or.inr ⟨hpos, hacc, by omega, by omega, by rw [hcurseq]⟩
    · rw [if_neg fun h => hnew h.1, if_neg hopen]
      exact Or.inl ⟨⟨hk1, by omega⟩, rfl⟩

/-- A mapping for the bytes that follow the stream keeps the invariant, if the mappings
kept are not about those bytes. -/
theorem assign {d n : ℤ} (h : Sound t dsn)
    (hadv : (t.mptcpAddMapping d n).advance n = some t')
    (hfits : 0 < n → t.accepts = true →
      t.Fits ∧ ∀ m ∈ t.mptcp_dsnmap_, m.stop ≤ t.curseq_ + 1)
    (hdsn : ∀ k, dsn' k =
      if t.edge < k ∧ k ≤ t'.curseq_ then some (d + (k - t.edge - 1))
      else if t.reopens then none else dsn k) :
    Sound t' dsn' := by
  obtain ⟨hcur, hconfig, hmap, -, hsent⟩ := MpFullTcpAgent.advance_spec hadv
  replace hcur : t'.curseq_ = if t.accepts then t.edge + n else t.curseq_ := hcur
  replace hmap : t'.mptcp_dsnmap_ = t.mptcp_dsnmap_ ++ [DsnMapping.new d (t.curseq_ + 1) n] := hmap
  replace hsent : t'.sent = t.sent := hsent
  have hiss : t'.iss_ = t.iss_ := congrArg Config.iss_ hconfig
  have hsplit : ∀ k, t'.InStream k →
      t.InStream k ∧ dsn' k = dsn k ∨
        0 < n ∧ t.accepts = true ∧ t.curseq_ < k ∧ k ≤ t.curseq_ + n ∧
          dsn' k = some (d + (k - t.curseq_ - 1)) := fun k hk =>
    inStream_cases hcur hiss (fun hpos hacc => (hfits hpos hacc).1) (hdsn k) hk
  have hold : ∀ m ∈ t.mptcp_dsnmap_, ∀ k, t'.InStream k → k ∈ m.bytes →
      t.InStream k ∧ dsn' k = dsn k := by
    intro m hm k hk hkm
    refine (hsplit k hk).resolve_right ?_
    rintro ⟨hpos, hacc, hlt, -⟩
    have hstop := (hfits hpos hacc).2 m hm
    have hlast := hkm.2
    omega
  have hnew : ∀ k, t'.InStream k → k ∈ (DsnMapping.new d (t.curseq_ + 1) n).bytes →
      dsn' k = some (d + (k - t.curseq_ - 1)) := by
    intro k hk hkm
    rcases hsplit k hk with ⟨hin, -⟩ | ⟨-, -, -, -, hd⟩
    · have hfirst : t.curseq_ + 1 ≤ k := hkm.1
      have hlast := hin.2
      omega
    · exact hd
  refine ⟨?_, ?_, ?_, ?_⟩
  · intro m hm k hkm hk
    rw [hmap] at hm
    rcases List.mem_append.mp hm with hm | hm
    · obtain ⟨hin, hd⟩ := hold m hm k hk hkm
      rw [hd]
      exact h.right m hm k hkm hin
    · rw [List.mem_singleton.mp hm] at hkm ⊢
      rw [hnew k hk hkm]
      show some _ = some (d + (k - (t.curseq_ + 1)))
      rw [sub_sub]
  · intro k hk
    rw [hmap, hsent]
    rcases hsplit k hk with ⟨hin, hd⟩ | ⟨-, -, hlt, hle, -⟩
    · rw [hd]
      exact (h.covered k hin).imp_left fun ⟨m, hm, hkm⟩ => ⟨m, List.mem_append_left _ hm, hkm⟩
    · refine Or.inl ⟨_, List.mem_append_right _ List.mem_cons_self, ?_⟩
      show t.curseq_ + 1 ≤ k ∧ k < t.curseq_ + 1 + n
      omega
  · rw [hmap]
    refine List.pairwise_append.mpr ⟨?_, List.pairwise_singleton _ _, ?_⟩
    · refine h.disjoint.imp_of_mem fun {m m'} hm _ hd k hk hkm => ?_
      exact hd k (hold m hm k hk hkm).1 hkm
    · intro m hm m' hm' k hk hkm hkm'
      rw [List.mem_singleton.mp hm'] at hkm'
      have hlast := (hold m hm k hk hkm).1.2
      have hfirst : t.curseq_ + 1 ≤ k := hkm'.1
      omega
  · intro m hm hne
    rw [hmap] at hm
    rw [hsent]
    rcases List.mem_append.mp hm with hm | hm
    · exact h.marked m hm hne
    · rw [List.mem_singleton.mp hm] at hne
      exact absurd rfl hne

end Sound

/-! ## The agent -/

/-- The condition on a call of `foutput` that sends data: the data is in the stream, and
the packet starts the mappings it is the first to carry bytes of. -/
def OutputOk (t : MpFullTcpAgent) (seqno : ℤ) : Prop :=
  t.outputNow seqno = true → 0 < t.outputLen seqno →
    t.iss_ < seqno ∧ ∀ m ∈ t.mptcp_dsnmap_, m.Overlaps seqno (seqno + t.outputLen seqno) →
      m.sentseq ≠ 0 ∨ m.Starts seqno

instance (t : MpFullTcpAgent) (seqno : ℤ) : Decidable (OutputOk t seqno) :=
  inferInstanceAs (Decidable (_ → _ → _ ∧ _))

namespace MptcpAgent

variable {s s' : MptcpAgent} {id : ℕ}

/-- The condition on a turn of `send_control`: a subflow that takes bytes fits, and no
mapping is kept for bytes it does not have yet. -/
def TurnOk (s : MptcpAgent) (id : ℕ) : Prop :=
  ∀ n ∈ (s.subflows_ id).sendbytes s.total_bytes_, 0 < n → (s.subflows_ id).accepts = true →
    (s.subflows_ id).Fits ∧
      ∀ m ∈ (s.subflows_ id).mptcp_dsnmap_, m.stop ≤ (s.subflows_ id).curseq_ + 1

instance (s : MptcpAgent) (id : ℕ) : Decidable (s.TurnOk id) :=
  inferInstanceAs (Decidable (∀ n ∈ (s.subflows_ id).sendbytes s.total_bytes_, _))

/-- The condition on a step, in the state before it. -/
def ActionOk (s : MptcpAgent) : Action → Prop
  | .sendmsg _ => True
  | .sendControl id => s.TurnOk id
  | .subflow id (.foutput seqno) => OutputOk (s.subflows_ id) seqno
  | .subflow id (.recv p _ _) => p.mp_ack ≠ 0 → Removable (s.subflows_ id) p.mp_ack
  | .subflow id .usrclosed => (s.subflows_ id).maxseq_ - 1 ≤ (s.subflows_ id).curseq_
  | .subflow _ _ => True

instance (s : MptcpAgent) : ∀ a, Decidable (s.ActionOk a)
  | .sendmsg _ => isTrue trivial
  | .sendControl id => inferInstanceAs (Decidable (s.TurnOk id))
  | .subflow id (.foutput seqno) => inferInstanceAs (Decidable (OutputOk (s.subflows_ id) seqno))
  | .subflow id (.recv p _ _) =>
    inferInstanceAs (Decidable (p.mp_ack ≠ 0 → Removable (s.subflows_ id) p.mp_ack))
  | .subflow id .usrclosed =>
    inferInstanceAs (Decidable ((s.subflows_ id).maxseq_ - 1 ≤ (s.subflows_ id).curseq_))
  | .subflow _ (.timer _ _) => isTrue trivial
  | .subflow _ .listen => isTrue trivial

/-- The condition on a step of a run. -/
def StepOk (s? : Option MptcpAgent) (a : Action) : Prop := ∀ s ∈ s?, s.ActionOk a

instance (s? : Option MptcpAgent) (a : Action) : Decidable (StepOk s? a) :=
  inferInstanceAs (Decidable (∀ s ∈ s?, _))

/-- Every byte a step sends is in a mapping on that packet or an earlier one of the
subflow, with the data sequence number it was assigned. -/
def Mapped (s? : Option MptcpAgent) (a : Action) : Prop :=
  ∀ s ∈ s?, ∀ s' ∈ s.step a, ∀ id l, (s'.subflows_ id).sent = (s.subflows_ id).sent ++ l →
    ∀ p ∈ l, ∀ k ∈ p.payload,
      ∃ q ∈ (s'.subflows_ id).sent, k ∈ q.mapping.bytes ∧ s'.stream id k = some (q.mapping.dsn k)

/-- The invariant of the agent. -/
def AllSound (s : MptcpAgent) : Prop :=
  ∀ id, Sound (s.subflows_ id) (s.stream id) ∧ 0 ≤ (s.subflows_ id).iss_

theorem allSound_new {sub_num_ : ℕ} {configs : ℕ → Config} (hiss : ∀ id, 0 ≤ (configs id).iss_) :
    (new sub_num_ configs).AllSound := by
  intro id
  refine ⟨Sound.of_empty (hiss id) ?_, hiss id⟩
  intro m hm
  cases hm

/-- A step of one subflow that keeps its invariant keeps that of the agent. -/
theorem AllSound.put (hs : s.AllSound) {t' : MpFullTcpAgent} {core' : Core}
    (hconfig : t'.toConfig = (s.subflows_ id).toConfig) (h : Sound t' (s.stream id)) :
    (s.put id (t', core')).AllSound := by
  intro i
  show Sound (Function.update s.subflows_ id t' i) (s.stream i) ∧
    0 ≤ (Function.update s.subflows_ id t' i).iss_
  by_cases hi : i = id
  · subst hi
    rw [Function.update_self]
    exact ⟨h, (hs i).2.trans_eq (congrArg Config.iss_ hconfig).symm⟩
  · rw [Function.update_of_ne hi]
    exact hs i

/-- A turn of `send_control` keeps the invariant. -/
theorem AllSound.turn (hs : s.AllSound) (hpos : 0 ≤ s.total_bytes_) (hok : s.TurnOk id)
    (h : s.assign id = some s') : s'.AllSound := by
  rcases assign_spec hpos h with rfl | ⟨n, t', hn, hbytes, hadv, rfl⟩
  · exact hs
  · intro i
    show Sound (Function.update s.subflows_ id t' i)
        (((s.put id (t', s.core)).assigned id (s.subflows_ id) n).stream i) ∧
      0 ≤ (Function.update s.subflows_ id t' i).iss_
    by_cases hi : i = id
    · subst hi
      rw [Function.update_self]
      obtain ⟨-, hconfig, -⟩ := MpFullTcpAgent.advance_spec hadv
      refine ⟨(hs i).1.assign hadv (hok n hbytes) ?_,
        (hs i).2.trans_eq (congrArg Config.iss_ hconfig).symm⟩
      intro k
      unfold assigned
      simp
      rfl
    · rw [Function.update_of_ne hi]
      refine ⟨?_, (hs i).2⟩
      have hstream : ((s.put id (t', s.core)).assigned id (s.subflows_ id) n).stream i =
          s.stream i := by
        funext k
        exact if_neg hi
      rw [hstream]
      exact (hs i).1

/-- A packet that arrives keeps the invariant of the subflow, if it removes no mapping
that was not sent. -/
theorem sound_recv {t t' : MpFullTcpAgent} {dsn : ℤ → Option ℤ} {core core' : Core} {p : Packet}
    {cong : Congestion} {dupack : Bool} (hs : Sound t dsn) (hiss : 0 ≤ t.iss_)
    (hok : p.mp_ack ≠ 0 → Removable t p.mp_ack)
    (h : (recvOptions t p).recv core p cong dupack = some (t', core')) : Sound t' dsn := by
  refine Sound.receives ?_ ?_ (MpFullTcpAgent.recv_receives h)
  · have hrem : Sound (if p.mp_ack ≠ 0 then t.mptcpRemoveMapping p.mp_ack else t) dsn := by
      split
      · rename_i hne
        exact hs.remove (hok hne)
      · exact hs
    unfold recvOptions
    simp only
    split
    · exact hrem.shrink rfl rfl le_rfl (List.Subset.refl _)
    · exact hrem
  · unfold recvOptions
    simp only
    split_ifs
    all_goals exact hiss

theorem recvOptions_sent (t : MpFullTcpAgent) (p : Packet) :
    (recvOptions t p).sent = t.sent ∧ (recvOptions t p).toConfig = t.toConfig := by
  unfold recvOptions
  simp only
  split_ifs
  all_goals exact ⟨rfl, rfl⟩

/-- Every step that meets the condition keeps the invariant. -/
theorem AllSound.step {a : Action} (hs : s.AllSound) (hok : StepOk (some s) a)
    (h : s.step a = some s') : s'.AllSound := by
  replace hok := hok s rfl
  cases a with
  | sendmsg nbytes =>
    cases h
    unfold request
    split
    · exact hs
    · exact hs
  | sendControl id =>
    unfold MptcpAgent.step at h
    simp only at h
    split at h
    · rename_i hturn
      exact hs.turn hturn.2 hok h
    · cases h
      exact hs
  | subflow id o =>
    obtain ⟨⟨t', core'⟩, hr, rfl⟩ := Option.map_eq_some_iff.mp h
    obtain ⟨hsound, hiss⟩ := hs id
    cases o with
    | foutput seqno =>
      rcases MpFullTcpAgent.foutput_spec hr with ⟨rfl, -⟩ | ⟨p, hout, -⟩
      · exact hs.put rfl hsound
      · exact hs.put hout.frame.config (hsound.output hout)
    | recv p cong dupack =>
      refine hs.put ?_ (sound_recv hsound hiss hok hr)
      exact (MpFullTcpAgent.recv_receives hr).config.trans (recvOptions_sent _ p).2
    | timer cong acknow =>
      cases hr
      exact hs.put rfl (hsound.shrink rfl rfl le_rfl (List.Subset.refl _))
    | usrclosed =>
      cases hr
      obtain ⟨hconfig, hmap, -, hsent, hcur⟩ := MpFullTcpAgent.usrclosed_spec (s.subflows_ id)
      refine hs.put hconfig (hsound.shrink hconfig hmap (hcur.trans_le hok) ?_)
      rw [hsent]
      exact List.Subset.refl _
    | listen =>
      cases hr
      exact hs.put rfl (hsound.shrink rfl rfl le_rfl (List.Subset.refl _))

/-- What a step of a subflow sends is mapped. -/
theorem mapped_act {o : SubflowAction} {t t' : MpFullTcpAgent} {dsn : ℤ → Option ℤ}
    {core core' : Core} {l : List Packet} (hs : Sound t dsn)
    (hok : ∀ seqno, o = .foutput seqno → OutputOk t seqno)
    (h : t.act o core = some (t', core')) (hl : t'.sent = t.sent ++ l) :
    ∀ p ∈ l, ∀ k ∈ p.payload, ∃ q ∈ t'.sent, k ∈ q.mapping.bytes ∧ dsn k = some (q.mapping.dsn k) := by
  have hnodata : (∀ p ∈ l, p.datalen = 0) → ∀ p ∈ l, ∀ k ∈ p.payload,
      ∃ q ∈ t'.sent, k ∈ q.mapping.bytes ∧ dsn k = some (q.mapping.dsn k) := by
    intro hlen p hp k hk
    have h1 := hk.1
    have h2 := hk.2
    rw [hlen p hp] at h2
    omega
  have hsilent : t'.sent = t.sent → l = [] := fun heq => by
    rw [heq] at hl
    exact List.self_eq_append_right.mp hl
  cases o with
  | foutput seqno =>
    by_cases hnow : t.outputNow seqno = true
    · rcases MpFullTcpAgent.foutput_spec h with ⟨rfl, -⟩ | ⟨p, hout, hseq, hlen, -⟩
      · rw [hsilent rfl]
        simp
      · rw [hout.sent] at hl
        rw [← List.append_cancel_left hl]
        by_cases hpos : 0 < t.outputLen seqno
        · obtain ⟨hiss, hmap⟩ := hok seqno rfl hnow hpos
          intro q hq
          rw [List.mem_singleton.mp hq]
          refine hs.output_mapped hout (hseq.symm ▸ hiss) ?_ ?_
          · rw [hseq, hlen]
            exact MpFullTcpAgent.outputLen_le hpos
          · rw [hseq, hlen]
            exact hmap
        · have hzero : p.datalen = 0 := by
            have := t.outputLen_nonneg seqno
            omega
          intro q hq k hk
          rw [List.mem_singleton.mp hq] at hk
          have h1 := hk.1
          have h2 := hk.2
          omega
    · unfold MpFullTcpAgent.act MpFullTcpAgent.foutput at h
      simp only [if_neg hnow] at h
      cases h
      rw [hsilent rfl]
      simp
  | recv p cong dupack =>
    obtain ⟨l', hl', hlen⟩ := (MpFullTcpAgent.recv_receives h).sent
    rw [(recvOptions_sent t p).1, hl] at hl'
    rw [List.append_cancel_left hl'] at hnodata ⊢
    exact hnodata hlen
  | timer cong acknow =>
    cases h
    rw [hsilent rfl]
    simp
  | usrclosed =>
    cases h
    obtain ⟨-, -, -, hsent, -⟩ := MpFullTcpAgent.usrclosed_spec t
    rw [hsilent hsent]
    simp
  | listen =>
    cases h
    rw [hsilent rfl]
    simp

/-- What a step sends is mapped, from a state of the invariant. -/
theorem AllSound.mapped {a : Action} (hs : s.AllSound) (hok : StepOk (some s) a) :
    Mapped (some s) a := by
  intro s₀ hs₀ s' hs' i l hl
  cases hs₀
  have hsilent : (s'.subflows_ i).sent = (s.subflows_ i).sent → l = [] := fun heq => by
    rw [heq] at hl
    exact List.self_eq_append_right.mp hl
  cases a with
  | sendmsg nbytes =>
    obtain ⟨-, hsent⟩ := step_silent (fun _ _ => Action.noConfusion) hs'
    rw [hsilent (hsent i).1]
    simp
  | sendControl id =>
    obtain ⟨-, hsent⟩ := step_silent (fun _ _ => Action.noConfusion) hs'
    rw [hsilent (hsent i).1]
    simp
  | subflow id o =>
    obtain ⟨⟨t', core'⟩, hr, rfl⟩ := Option.map_eq_some_iff.mp hs'
    by_cases hi : i = id
    · subst hi
      rw [put_subflow] at hl ⊢
      refine mapped_act (hs i).1 ?_ hr hl
      rintro seqno rfl
      exact hok s rfl
    · have hother : (s.put id (t', core')).subflows_ i = s.subflows_ i :=
        Function.update_of_ne hi _ _
      rw [hsilent (by rw [hother])]
      simp

/-- **Transmission.**  In a run of steps that meet the condition, every byte a subflow
sends is in a mapping on that packet or an earlier one, with the data sequence number
`send_control` has given it. -/
theorem transmitted_mapped (sub_num_ : ℕ) (configs : ℕ → Config)
    (hiss : ∀ id, 0 ≤ (configs id).iss_) (l : List Action)
    (hl : Run.AllSteps exec StepOk (some (new sub_num_ configs)) l) :
    Run.AllSteps exec Mapped (some (new sub_num_ configs)) l := by
  refine Run.allSteps_imp (I := fun s? => ∀ s ∈ s?, AllSound s) ?_ ?_ l _ ?_ hl
  · intro s? a hs hok s hmem
    cases hmem
    exact (hs s rfl).mapped hok s rfl
  · intro s? a hs hok s' hs'
    obtain ⟨s, hmem, hstep⟩ := Option.bind_eq_some_iff.mp hs'
    cases hmem
    exact (hs s rfl).step hok hstep
  · intro s hs
    cases hs
    exact allSound_new hiss

/-- A connection is made by a packet with `SYN` and `ACK`. -/
def synAck : SubflowAction :=
  .recv ⟨0, 1, thSyn ||| thAck, 0, 0, 0, 0, 0⟩ ⟨2, 20, 0, 1, false, false, 1⟩ false

/-- A connection is made, and sends the bytes it was given as one packet. -/
theorem transmitted_mapped_segment : Run.AllSteps exec Mapped (some (new 1 fun _ => Config.default))
    [.sendmsg 1000, .sendControl 0, .subflow 0 (.foutput 0), .subflow 0 synAck,
      .subflow 0 (.foutput 1)] :=
  transmitted_mapped 1 (fun _ => Config.default) (fun _ => le_rfl) _ (by decide +kernel)

/-- The 500 bytes that end the first request wait for an ACK.  With the next request there
is enough for a full segment. -/
def boundaryRun : List Action :=
  [.sendmsg 1500, .sendControl 0, .subflow 0 (.foutput 0), .subflow 0 synAck,
    .subflow 0 (.foutput 1), .sendControl 0, .subflow 0 (.foutput 1001), .sendmsg 1000,
    .sendControl 0]

/-- The packets of that run. -/
def boundarySent : List Packet :=
  [⟨0, -1, thSyn ||| thPush, 0, 0, 0, 0, 0⟩, ⟨1, 1, thAck, 0, 0, 0, 0, 0⟩,
    ⟨1, 1, thAck ||| thPush, 1000, 0, 1, 1, 1000⟩]

/-- The second half of the full segment is in a mapping that is not sent. -/
theorem not_mapped_boundary : ¬ Run.AllSteps exec Mapped
    (some (new 1 fun _ => { Config.default with maxseg_ := 1000 }))
    (boundaryRun ++ [.subflow 0 (.foutput 1001)]) := by
  intro h
  have hlast := ((Run.allSteps_append _ _ _).mp h).2.1
  have hrun : ((boundaryRun.foldl exec
      (some (new 1 fun _ => { Config.default with maxseg_ := 1000 }))).bind fun s =>
        (s.step (.subflow 0 (.foutput 1001))).map fun s' =>
          ((s.subflows_ 0).sent, (s'.subflows_ 0).sent)) =
      some (boundarySent, boundarySent ++ [⟨1001, 1, thAck, 1000, 0, 1001, 1001, 500⟩]) := by
    decide +kernel
  obtain ⟨s, hs, h2⟩ := Option.bind_eq_some_iff.mp hrun
  obtain ⟨s', hs', heq⟩ := Option.map_eq_some_iff.mp h2
  obtain ⟨hold, hnew⟩ := Prod.mk.inj heq
  have hpacket := hlast s hs s' hs' 0 [⟨1001, 1, thAck, 1000, 0, 1001, 1001, 500⟩]
    (by rw [hold, hnew]) _ List.mem_cons_self 1501 ⟨by decide, by decide⟩
  obtain ⟨q, hq, ⟨hfirst, hend⟩, -⟩ := hpacket
  rw [hnew] at hq
  have hnone : ∀ q ∈ boundarySent ++ [⟨1001, 1, thAck, 1000, 0, 1001, 1001, 500⟩],
      ¬ (q.mapping.sseqnum ≤ 1501 ∧ 1501 < q.mapping.stop) := by
    decide
  exact hnone q hq ⟨hfirst, hend⟩

end MptcpAgent

end Ns2.Mptcp
