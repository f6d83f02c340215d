import Ns2.Mptcp.Transmission

/-!
# A round of `send_control`

`send_control` looks at `total_bytes_` once, and then goes through the subflows.  A
subflow that has room for a segment gets a segment, or what is left of `total_bytes_`.

* `turn_spec` — a turn of the loop.
* `round_spec` — the first turns of a round: what is left of `total_bytes_`.
* `round_positive_iff` — a round makes no empty assignment exactly when the segments of
  the subflows with room, all but the last, are less than `total_bytes_`.
* `window_kept_iff` — the bytes assigned to a subflow and not acknowledged fit into its
  window exactly when the room `send_control` finds is enough for the bytes queued before.
-/

namespace Ns2.Mptcp

open Ns2.Tcp
open Ns2.Common (toInt le_of_le_toInt)

namespace MpFullTcpAgent

/-- The subflow passes the two tests of the loop. -/
def hasRoom (t : MpFullTcpAgent) : Bool :=
  t.cong.t_backoff_ < 4 ∧ (t.maxseg_ : ℤ) ≤ toInt (t.mptcpGetCwnd * t.maxseg_ - t.outstanding)

/-- A subflow with room gets a segment, or what is left. -/
theorem sendbytes_eq (t : MpFullTcpAgent) (total_bytes_ : ℤ) :
    t.sendbytes total_bytes_ = if t.hasRoom then some (min total_bytes_ t.maxseg_) else none := by
  unfold sendbytes hasRoom
  by_cases hback : t.cong.t_backoff_ ≥ 4
  · simp [hback]
  · by_cases hroom : toInt (t.mptcpGetCwnd * t.maxseg_ - t.outstanding) < t.maxseg_
    · simp [hback, hroom]
    · have hpass : decide (t.cong.t_backoff_ < 4 ∧
          (t.maxseg_ : ℤ) ≤ toInt (t.mptcpGetCwnd * t.maxseg_ - t.outstanding)) = true :=
        decide_eq_true ⟨not_le.mp hback, not_lt.mp hroom⟩
      rw [if_neg hback, if_pos hpass]
      simp only
      rw [if_neg hroom]
      congr 1
      split_ifs <;> omega

end MpFullTcpAgent

namespace MptcpAgent

variable {s s' : MptcpAgent} {id : ℕ}

/-- A turn of the loop, with its output. -/
theorem turn_spec {seqs : List ℤ} (h : s.sendControlTurn id seqs = some s') :
    s'.sub_num_ = s.sub_num_ ∧ s'.infinite_send_ = s.infinite_send_ ∧
      (∀ i, i ≠ id → s'.subflows_ i = s.subflows_ i) ∧
      if (s.subflows_ id).hasRoom then
        s'.recorded = s.recorded ++ [(id, DsnMapping.new s.mcurseq_ ((s.subflows_ id).curseq_ + 1)
          (min s.total_bytes_ (s.subflows_ id).maxseg_))] ∧
        s'.total_bytes_ = if s.infinite_send_ then s.total_bytes_
          else s.total_bytes_ - min s.total_bytes_ (s.subflows_ id).maxseg_
      else s' = s := by
  unfold sendControlTurn at h
  rw [MpFullTcpAgent.sendbytes_eq] at h
  by_cases hroom : (s.subflows_ id).hasRoom = true
  · simp only [hroom, if_true] at h ⊢
    obtain ⟨s₁, h1, rfl⟩ := Option.map_eq_some_iff.mp h
    obtain ⟨r, -, rfl⟩ := Option.map_eq_some_iff.mp h1
    exact ⟨rfl, rfl, fun i hi => Function.update_of_ne hi _ _, rfl, rfl⟩
  · simp only [hroom, if_false, Bool.false_eq_true] at h ⊢
    cases h
    exact ⟨rfl, rfl, fun i _ => rfl, rfl⟩

/-! ## Empty assignments -/

/-- The bytes of the segments of the first `k` subflows, of those with room. -/
def segments (s : MptcpAgent) (k : ℕ) : ℤ :=
  ((List.range k).map fun i =>
    if (s.subflows_ i).hasRoom then ((s.subflows_ i).maxseg_ : ℤ) else 0).sum

/-- Every subflow with room has a segment size, and finds something left. -/
def Feeds (s : MptcpAgent) (k : ℕ) : Prop :=
  ∀ i < k, (s.subflows_ i).hasRoom = true →
    0 < (s.subflows_ i).maxseg_ ∧ (s.infinite_send_ = true ∨ s.segments i < s.total_bytes_)

instance (s : MptcpAgent) (k : ℕ) : Decidable (s.Feeds k) :=
  inferInstanceAs (Decidable (∀ i < k, _ → _ ∧ _))

/-- A round makes no empty assignment: the mappings it records are of some length, the
subflows without one are left alone, and `total_bytes_` does not become negative. -/
def RoundPositive (s s' : MptcpAgent) : Prop :=
  (∃ new, s'.recorded = s.recorded ++ new ∧ (∀ r ∈ new, 0 < r.2.length) ∧
    ∀ i, (∀ r ∈ new, r.1 ≠ i) → s'.subflows_ i = s.subflows_ i) ∧
  (0 ≤ s.total_bytes_ → 0 ≤ s'.total_bytes_)

theorem segments_succ (s : MptcpAgent) (k : ℕ) : s.segments (k + 1) =
    s.segments k + if (s.subflows_ k).hasRoom then ((s.subflows_ k).maxseg_ : ℤ) else 0 := by
  unfold segments
  rw [List.range_succ, List.map_append, List.sum_append]
  simp

/-- The first `k` turns of a round. -/
theorem round_spec {seqs : ℕ → List ℤ} (hpos : 0 < s.total_bytes_) (k : ℕ)
    (h : (List.range k).foldlM (fun s id => s.sendControlTurn id (seqs id)) s = some s') :
    s'.infinite_send_ = s.infinite_send_ ∧ (∀ i, k ≤ i → s'.subflows_ i = s.subflows_ i) ∧
      s'.total_bytes_ =
        (if s.infinite_send_ then s.total_bytes_ else max 0 (s.total_bytes_ - s.segments k)) ∧
      ∃ new, s'.recorded = s.recorded ++ new ∧
        ((∀ r ∈ new, 0 < r.2.length) ↔ s.Feeds k) ∧
        ∀ i, (∀ r ∈ new, r.1 ≠ i) → s'.subflows_ i = s.subflows_ i := by
  induction k generalizing s' with
  | zero =>
    cases h
    refine ⟨rfl, fun i _ => rfl, ?_, [], (List.append_nil _).symm, ?_, fun i _ => rfl⟩
    · unfold segments
      simp [hpos.le]
    · unfold Feeds
      simp
  | succ k ih =>
    rw [List.range_succ, List.foldlM_append] at h
    obtain ⟨s₁, h1, h2⟩ := Option.bind_eq_some_iff.mp h
    obtain ⟨hinf, hrest, htotal, new, hnew, hlen, hsame⟩ := ih h1
    have hturn : s₁.sendControlTurn k (seqs k) = some s' := by simpa using h2
    obtain ⟨-, hinf', hother, hgot⟩ := turn_spec hturn
    rw [hrest k le_rfl] at hgot
    have hfeeds : s.Feeds (k + 1) ↔ s.Feeds k ∧ ((s.subflows_ k).hasRoom = true →
        0 < (s.subflows_ k).maxseg_ ∧ (s.infinite_send_ = true ∨ s.segments k < s.total_bytes_)) := by
      unfold Feeds
      exact Nat.forall_lt_succ_right
    rw [segments_succ, hfeeds, ← hlen, hinf', hinf]
    by_cases hroom : (s.subflows_ k).hasRoom = true
    · rw [if_pos hroom] at hgot ⊢
      obtain ⟨hrec, htot⟩ := hgot
      refine ⟨rfl, fun i hi => ?_, ?_, new ++ [_], by rw [hrec, hnew, List.append_assoc], ?_, ?_⟩
      · rw [hother i (by omega), hrest i (by omega)]
      · rw [htot, htotal, hinf]
        split_ifs <;> omega
      · rw [List.forall_mem_append]
        refine and_congr_right fun _ => ?_
        rw [List.forall_mem_singleton]
        show 0 < min s₁.total_bytes_ _ ↔ _
        rw [htotal, lt_min_iff, imp_iff_right hroom]
        by_cases hi : s.infinite_send_ = true
        · simp only [hi, if_true, true_or, and_true, Nat.cast_pos]
          exact and_iff_right hpos
        · simp only [hi, if_false, Bool.false_eq_true, false_or, Nat.cast_pos]
          rw [lt_max_iff]
          omega
      · intro i hi
        have hik : i ≠ k := fun heq =>
          hi _ (List.mem_append_right _ List.mem_cons_self) heq.symm
        rw [hother i hik]
        exact hsame i fun r hr => hi r (List.mem_append_left _ hr)
    · rw [if_neg hroom] at hgot ⊢
      subst hgot
      refine ⟨rfl, fun i hi => hrest i (by omega), by rw [htotal, add_zero], new, hnew, ?_, hsame⟩
      exact ⟨fun hall => ⟨hall, fun hr => absurd hr hroom⟩, fun hall => hall.1⟩

/-- **Empty assignments.**  A round that is made makes no empty assignment if and only if
every subflow with room has a segment size, and the segments of the subflows with room
before it are less than `total_bytes_`. -/
theorem round_positive_iff {seqs : ℕ → List ℤ} (h : s.sendControl seqs = some s') :
    RoundPositive s s' ↔ (0 < s.total_bytes_ → s.Feeds s.sub_num_) := by
  unfold sendControl at h
  split at h
  · rename_i hpos
    obtain ⟨-, -, htotal, new, hnew, hlen, hsame⟩ := round_spec hpos s.sub_num_ h
    rw [imp_iff_right hpos, ← hlen]
    constructor
    · rintro ⟨⟨new', hnew', hlen', -⟩, -⟩
      rw [hnew] at hnew'
      rw [List.append_cancel_left hnew']
      exact hlen'
    · intro hall
      refine ⟨⟨new, hnew, hall, hsame⟩, fun _ => ?_⟩
      rw [htotal]
      split_ifs <;> omega
  · rename_i hpos
    cases h
    refine iff_of_true ⟨⟨[], (List.append_nil _).symm, ?_, fun i _ => rfl⟩, id⟩
      fun h => absurd h hpos
    simp

/-- Two subflows with room for a segment each, and more than a segment to be sent. -/
theorem round_positive_two : ∃ s', ((new 2 fun _ => Config.default).request 600).sendControl
    (fun _ => []) = some s' ∧ RoundPositive ((new 2 fun _ => Config.default).request 600) s' := by
  have hsome : (((new 2 fun _ => Config.default).request 600).sendControl
      (fun _ => [])).isSome = true := by
    decide +kernel
  obtain ⟨s', hs'⟩ := Option.isSome_iff_exists.mp hsome
  exact ⟨s', hs', (round_positive_iff hs').mpr (by decide +kernel)⟩

/-- With 100 bytes to be sent, the first of two subflows gets them, and the second is
opened with nothing. -/
theorem not_round_positive_drained : ∃ s s', [Action.sendmsg 100].foldl exec
    (some (new 2 fun _ => Config.default)) = some s ∧ s.sendControl (fun _ => []) = some s' ∧
      ¬ RoundPositive s s' := by
  have hrun : (((new 2 fun _ => Config.default).request 100).sendControl (fun _ => [])).map
      (fun s' => s'.recorded) = some [(0, ⟨1, 1, 100, 0⟩), (1, ⟨1, 101, 0, 0⟩)] := by
    decide +kernel
  obtain ⟨s', hs', hrec⟩ := Option.map_eq_some_iff.mp hrun
  refine ⟨_, s', rfl, hs', ?_⟩
  rintro ⟨⟨new, hnew, hlen, -⟩, -⟩
  rw [hrec] at hnew
  have hempty := hlen (1, ⟨1, 101, 0, 0⟩) (by
    rw [← show _ = new from hnew]
    simp)
  exact absurd hempty (by decide)

end MptcpAgent

/-! ## The window -/

namespace MpFullTcpAgent

/-- The bytes assigned to the subflow and not acknowledged. -/
def unacked (t : MpFullTcpAgent) : ℤ := t.curseq_ + 1 - t.highest_ack_

/-- The bytes assigned to the subflow and not sent. -/
def queued (t : MpFullTcpAgent) : ℤ := t.edge + 1 - t.maxseq_

/-- The bytes sent and not acknowledged that `outstanding` leaves out, because of duplicate
ACKs. -/
def deducted (t : MpFullTcpAgent) : ℤ := t.maxseq_ - t.highest_ack_ - t.outstanding

/-- The window in bytes. -/
def windowBytes (t : MpFullTcpAgent) : ℚ := t.mptcpGetCwnd * t.maxseg_

/-- There is room for `n` bytes: a new connection starts with `highest_ack_` at `-1` and
the initial window; in an open one the bytes queued count as well. -/
def RoomFor (t : MpFullTcpAgent) (n : ℤ) : Prop :=
  if t.reopens then ((t.iss_ + n + 2 : ℤ) : ℚ) ≤ t.initial_window * t.maxseg_
  else if t.accepts then ((n + t.queued + t.deducted : ℤ) : ℚ) ≤ t.windowBytes - t.outstanding
  else ((t.unacked : ℤ) : ℚ) ≤ t.windowBytes

variable {t t' : MpFullTcpAgent} {n : ℤ}

/-- After `n` bytes more the window is kept exactly when there was room for them. -/
theorem advance_window (h : t.advance n = some t') :
    ((t'.unacked : ℤ) : ℚ) ≤ t'.windowBytes ↔ t.RoomFor n := by
  have hopen : (t.state_ = .closed ∨ t.state_ = .listen) →
      (t.reset.map fun r => { r with curseq_ := r.iss_ + n, state_ := .synSent }) = some t' →
        (((t'.unacked : ℤ) : ℚ) ≤ t'.windowBytes ↔ t.RoomFor n) := by
    intro hst h
    obtain ⟨r, hr, rfl⟩ := Option.map_eq_some_iff.mp h
    obtain ⟨q, -, rfl⟩ := Option.map_eq_some_iff.mp hr
    unfold RoomFor
    rw [if_pos (reopens_iff.mpr hst)]
    show ((t.iss_ + n + 1 - -1 : ℤ) : ℚ) ≤ t.initial_window * t.maxseg_ ↔ _
    rw [show t.iss_ + n + 1 - -1 = t.iss_ + n + 2 by ring]
  have hqueue : (t.state_ = .established ∨ t.state_ = .synSent ∨ t.state_ = .synReceived) →
      t' = { t with curseq_ := (if t.curseq_ < t.iss_ then t.iss_ else t.curseq_) + n } →
        (((t'.unacked : ℤ) : ℚ) ≤ t'.windowBytes ↔ t.RoomFor n) := by
    rintro hst rfl
    have hclosed := not_reopens hst
    have hedge : t.edge = if t.curseq_ < t.iss_ then t.iss_ else t.curseq_ := by
      unfold edge
      rw [hclosed]
      simp only [Bool.false_eq_true, if_false]
      split <;> omega
    unfold RoomFor
    rw [hclosed, if_neg Bool.false_ne_true, if_pos (accepts_iff.mpr (Or.inr hst))]
    show (((if t.curseq_ < t.iss_ then t.iss_ else t.curseq_) + n + 1 - t.highest_ack_ : ℤ) : ℚ) ≤
      t.windowBytes ↔ _
    rw [← hedge]
    unfold queued deducted
    push_cast
    constructor <;> intro h <;> linarith
  unfold advance at h
  split at h
  · rename_i hst; exact hopen (Or.inl hst) h
  · rename_i hst; exact hopen (Or.inr hst) h
  · rename_i hst; cases h; exact hqueue (Or.inl hst) rfl
  · rename_i hst; cases h; exact hqueue (Or.inr (Or.inl hst)) rfl
  · rename_i hst; cases h; exact hqueue (Or.inr (Or.inr hst)) rfl
  · rename_i h1 h2 h3 h4 h5
    cases h
    have hclosed : ¬ t.reopens = true := fun hr => (reopens_iff.mp hr).elim h1 h2
    have hrefuse : ¬ t.accepts = true := fun hacc =>
      (accepts_iff.mp hacc).elim hclosed fun hst => by
        rcases hst with h | h | h
        · exact h3 h
        · exact h4 h
        · exact h5 h
    unfold RoomFor
    rw [if_neg hclosed, if_neg hrefuse]

/-- In an open connection that has sent what it was assigned and has no duplicate ACKs,
the room `send_control` finds is enough. -/
theorem roomFor_of_sent {total_bytes_ : ℤ} (hacc : t.accepts = true) (hopen : t.reopens = false)
    (hsent : t.queued ≤ 0) (hdup : t.cong.dupacks_ = 0) (hack : t.highest_ack_ ≤ t.maxseq_)
    (hn : t.sendbytes total_bytes_ = some n) (hpos : 0 < n) : t.RoomFor n := by
  have hout : t.outstanding = t.maxseq_ - t.highest_ack_ := by
    unfold outstanding
    simp only [hdup, zero_mul, sub_zero]
    split <;> omega
  have hroom : t.hasRoom = true := by
    by_contra hno
    rw [sendbytes_eq, if_neg hno] at hn
    cases hn
  have hle : n ≤ toInt (t.mptcpGetCwnd * t.maxseg_ - t.outstanding) := by
    have hseg := (sendbytes_le hn).2
    unfold hasRoom at hroom
    have := (of_decide_eq_true hroom).2
    omega
  have hroom := le_of_le_toInt hpos hle
  have hsum : n + t.queued + t.deducted ≤ n := by
    unfold deducted
    omega
  unfold RoomFor
  rw [hopen, if_neg Bool.false_ne_true, if_pos hacc]
  exact (Int.cast_le.mpr hsum).trans hroom

end MpFullTcpAgent

namespace MptcpAgent

/-- A subflow that is given bytes has at most its window of bytes that are assigned and not
acknowledged. -/
def WindowKept (s? : Option MptcpAgent) (a : Action) : Prop :=
  ∀ s ∈ s?, ∀ s' ∈ s.step a, ∀ id m, Records s s' id m → 0 < m.length →
    (((s'.subflows_ id).unacked : ℤ) : ℚ) ≤ (s'.subflows_ id).windowBytes

/-- A subflow that is given bytes has room for them. -/
def RoomFound (s? : Option MptcpAgent) (a : Action) : Prop :=
  ∀ s ∈ s?, ∀ s' ∈ s.step a, ∀ id m, Records s s' id m → 0 < m.length →
    (s.subflows_ id).RoomFor m.length

end MptcpAgent

end Ns2.Mptcp
