import Ns2.Linux.ScoreBoardPass

/-!
# The operations of the scoreboard

Each operation of `ScoreBoard1` returns, and keeps the invariant.

* `ScoreBoard1.Exact` — the nodes tile an interval, the counters are exact, and no lost node is
  before the one to retransmit from.
* `cleanRtxQueue_spec`, `traverse_spec`, `updateScoreBoard_spec` — `UpdateScoreBoard`.
* `markLoss_spec`, `getNextRetran_spec`, `markRetran_spec` — the other operations.
-/

namespace Ns2.Linux

open Tiling ScoreBoardNode1

variable {n : ScoreBoardNode1} {l rest : List ScoreBoardNode1} {lo mid hi last_ack : ℤ}

/-- The pointer leads to a node, and no lost node is before it. -/
def Pointed (l : List ScoreBoardNode1) (nxt : Option ℕ) : Prop :=
  ∀ i, nxt = some i → ∃ l₁ n l₂, l = l₁ ++ n :: l₂ ∧ l₁.length = i ∧ ∀ m ∈ l₁, m.flag_ ≠ .lost

theorem pointed_none : Pointed l none := fun _ h => absurd h (by simp)

theorem pointed_firstLost (l₁ l₂ : List ScoreBoardNode1) :
    Pointed (l₁ ++ l₂) (firstLost l₁) := by
  intro i hi
  obtain ⟨hlt, -, hfirst⟩ := List.findIdx?_eq_some_iff_getElem.mp hi
  refine ⟨l₁.take i, l₁[i], l₁.drop (i + 1) ++ l₂, ?_, by simp; omega, fun m hm => ?_⟩
  · rw [← List.cons_append, ← List.append_assoc, ← List.drop_eq_getElem_cons hlt,
      List.take_append_drop]
  · obtain ⟨j, hj, rfl⟩ := List.getElem_of_mem hm
    rw [List.length_take] at hj
    rw [List.getElem_take]
    simpa using hfirst j (by omega)

theorem Pointed.pop {nxt : Option ℕ} (h : Pointed (n :: rest) nxt) :
    Pointed rest (ScoreBoard1.popFront rest nxt) := by
  rcases nxt with _ | _ | i
  · exact pointed_none
  · rcases rest with _ | ⟨m, l⟩
    · exact pointed_none
    · intro j hj
      obtain rfl : 0 = j := Option.some.inj hj
      exact ⟨[], m, l, rfl, rfl, by simp⟩
  · intro j hj
    obtain rfl : i = j := Option.some.inj hj
    obtain ⟨l₁, m, l₂, heq, hlen, hno⟩ := h (i + 1) rfl
    rcases l₁ with _ | ⟨k, l₁⟩
    · simp at hlen
    · obtain ⟨rfl, rfl⟩ := List.cons.inj heq
      exact ⟨l₁, m, l₂, rfl, by simpa using hlen, fun x hx => hno x (List.mem_cons_of_mem _ hx)⟩

/-- Only the flags before the node matter. -/
theorem Pointed.head {nxt : Option ℕ} {m : ScoreBoardNode1} (h : Pointed (n :: rest) nxt)
    (hflag : m.flag_ = n.flag_) : Pointed (m :: rest) nxt := by
  intro i hi
  obtain ⟨l₁, k, l₂, heq, hlen, hno⟩ := h i hi
  rcases l₁ with _ | ⟨k', l₁⟩
  · exact ⟨[], m, rest, rfl, hlen, by simp⟩
  · obtain ⟨rfl, rfl⟩ := List.cons.inj heq
    refine ⟨m :: l₁, k, l₂, rfl, hlen, fun x hx => ?_⟩
    rcases List.mem_cons.mp hx with rfl | hx
    · exact hflag ▸ hno n List.mem_cons_self
    · exact hno x (List.mem_cons_of_mem _ hx)

namespace ScoreBoard1

variable {s s' : ScoreBoard1}

/-- The invariant of the scoreboard. -/
structure Exact (lo hi : ℤ) (s : ScoreBoard1) : Prop where
  /-- The nodes are not empty, and each begins where the one before it ends. -/
  tiled : Tiles getStart getEnd lo s.nodes hi
  /-- The packets acknowledged by SACK blocks. -/
  sack_out : s.sack_out_ = count .sacked s.nodes
  /-- The lost packets. -/
  fack_out : s.fack_out_ = count .lost s.nodes
  /-- No lost node is before the one to retransmit from. -/
  next : Pointed s.nodes s.nxt_to_retrx_

theorem exact_clear (s : ScoreBoard1) (lo : ℤ) : Exact lo lo s.clearScoreBoard :=
  ⟨rfl, rfl, rfl, pointed_none⟩

theorem exact_new (lo : ℤ) : Exact lo lo new := ⟨rfl, rfl, rfl, pointed_none⟩

/-! ## Acknowledged packets -/

/-- What an acknowledgment leaves of the nodes. -/
def trim (last_ack : ℤ) : List ScoreBoardNode1 → List ScoreBoardNode1
  | [] => []
  | n :: rest =>
    if n.getEnd ≤ last_ack then trim last_ack rest
    else if n.getStart ≤ last_ack then { n with seq_ := last_ack + 1 } :: rest
    else n :: rest

/-- A retransmission that is newer than the ones acknowledged so far is acknowledged. -/
def Newer (last_ack acked_rtx_id : ℤ) (l : List ScoreBoardNode1) : Prop :=
  ∃ n ∈ l, n.flag_ = .retransmitted ∧ n.seq_ ≤ last_ack ∧ n.retran_ > acked_rtx_id

theorem shouldClean_whole (hne : n.getStart ≤ n.getEnd) (h : n.getEnd ≤ last_ack) :
    n.shouldClean last_ack = -1 := by
  have hstart : n.seq_ ≤ last_ack := hne.trans h
  have hend : n.flag_ = .retransmitted ∨ last_ack ≥ n.nxt_ := by
    by_cases hflag : n.flag_ = .retransmitted
    · exact Or.inl hflag
    · rw [getEnd, if_neg hflag] at h
      exact Or.inr h
  rw [shouldClean, if_neg (not_lt.mpr hstart), if_pos hend]

theorem shouldClean_none (h : last_ack < n.getStart) : n.shouldClean last_ack = 0 := if_pos h

theorem shouldClean_part (hlo : n.getStart ≤ last_ack) (hhi : last_ack < n.getEnd) :
    n.shouldClean last_ack = last_ack + 1 - n.getStart := by
  have hflag := n.ne_retransmitted (by omega)
  rw [getEnd, if_neg hflag] at hhi
  have hstart : ¬ last_ack < n.seq_ := not_lt.mpr hlo
  have hend : ¬ (n.flag_ = .retransmitted ∨ last_ack ≥ n.nxt_) := by
    rintro (h | h)
    · exact hflag h
    · omega
  rw [shouldClean, if_neg hstart, if_neg hend]
  rfl

/-- The counters do not get negative. -/
theorem discount_spec (s : ScoreBoard1) (flag : SkbFlag) (k : ℤ)
    (hsack : flag = .sacked → k ≤ s.sack_out_) (hfack : flag = .lost → k ≤ s.fack_out_) :
    s.discount flag k = some { s with
      sack_out_ := s.sack_out_ - if flag = .sacked then k else 0
      fack_out_ := s.fack_out_ - if flag = .lost then k else 0 } := by
  unfold discount
  cases flag with
  | sacked => simp [hsack rfl]
  | lost => simp [hfack rfl]
  | inflight => simp
  | retransmitted => simp

theorem not_newer (acked : ℤ) (hl : Tiles getStart getEnd lo l hi) (h : last_ack < lo) :
    ¬ Newer last_ack acked l := by
  rintro ⟨n, hn, -, hseq, -⟩
  have hlo := (hl.bounds hn).1
  unfold getStart at hlo
  omega

theorem newer_cons {acked : ℤ} :
    Newer last_ack acked (n :: rest) ↔
      (n.flag_ = .retransmitted ∧ n.seq_ ≤ last_ack ∧ n.retran_ > acked) ∨
        Newer last_ack acked rest := by
  simp [Newer]

/-- What `CleanRtxQueue` leaves. -/
structure Cleaned (last_ack lo hi : ℤ) (l : List ScoreBoardNode1) (s : ScoreBoard1) (changed : Bool)
    (s' : ScoreBoard1) (changed' : Bool) : Prop where
  /-- The invariant. -/
  exact : Exact lo hi s'
  /-- The nodes. -/
  nodes : s'.nodes = trim last_ack l
  /-- Nothing is left of what was acknowledged. -/
  lt : s'.nodes ≠ [] → last_ack < lo
  /-- The furthest packet in a SACK block stays. -/
  fack : s'.fack_ = s.fack_
  /-- What is returned. -/
  changed : changed' = true ↔ changed = true ∨ Newer last_ack s.acked_rtx_id_ l
  /-- Without a newer retransmission, `acked_rtx_id_` stays. -/
  acked : changed' = false → s'.acked_rtx_id_ = s.acked_rtx_id_
  /-- The pointer does not become null. -/
  pointer : s'.nodes ≠ [] → (s'.nxt_to_retrx_ = none ↔ s.nxt_to_retrx_ = none)

theorem popFront_eq_none {nxt : Option ℕ} (h : rest ≠ []) : popFront rest nxt = none ↔ nxt = none := by
  rcases nxt with _ | _ | i
  · rfl
  · simp [popFront, h]
  · simp [popFront]

theorem trim_of_lt (hl : Tiles getStart getEnd lo l hi) (h : last_ack < lo) : trim last_ack l = l := by
  cases l with
  | nil => rfl
  | cons n rest =>
    obtain ⟨hlo, hne, -⟩ := hl
    rw [trim, if_neg (by omega), if_neg (by omega)]

/-- A block that is acknowledged as a whole goes, and what follows it is cleaned. -/
theorem Cleaned.cons_whole {lo' : ℤ} {changed changed' newer : Bool} {s₁ : ScoreBoard1}
    (hc : Cleaned last_ack lo' hi rest s₁ (changed || newer) s' changed')
    (hwhole : n.getEnd ≤ last_ack) (hseq : n.seq_ ≤ last_ack)
    (hnewer : newer = true ↔ n.flag_ = .retransmitted ∧ n.retran_ > s.acked_rtx_id_)
    (hacked : s₁.acked_rtx_id_ = if newer then n.retran_ else s.acked_rtx_id_)
    (hfack : s₁.fack_ = s.fack_) (hnxt : s₁.nxt_to_retrx_ = popFront rest s.nxt_to_retrx_) :
    Cleaned last_ack lo' hi (n :: rest) s changed s' changed' := by
  refine ⟨hc.exact, ?_, hc.lt, hc.fack.trans hfack, ?_, ?_, fun hnil => ?_⟩
  · rw [hc.nodes, trim, if_pos hwhole]
  · rw [hc.changed, newer_cons, hacked]
    cases newer with
    | true =>
      have hnew := hnewer.mp rfl
      simp [hnew, hseq]
    | false =>
      have hnot : ¬ (n.flag_ = .retransmitted ∧ n.retran_ > s.acked_rtx_id_) := fun h =>
        Bool.false_ne_true (hnewer.mpr h)
      simp only [Bool.or_false, Bool.false_eq_true, if_false]
      tauto
  · intro hfalse
    have hnot : ¬ newer = true := by
      intro htrue
      have hchanged := hc.changed.mpr (Or.inl (by rw [htrue, Bool.or_true]))
      rw [hfalse] at hchanged
      exact Bool.false_ne_true hchanged
    rw [hc.acked hfalse, hacked, if_neg hnot]
  · rw [hc.pointer hnil, hnxt]
    refine popFront_eq_none ?_
    rintro rfl
    exact hnil hc.nodes

/-- A block whose first packets are acknowledged loses them. -/
theorem Cleaned.cons_part {changed : Bool} (hl : Tiles getStart getEnd lo (n :: rest) hi)
    (hpart : n.getStart ≤ last_ack) (hwhole : ¬ n.getEnd ≤ last_ack) (hflag : n.flag_ ≠ .retransmitted)
    (hsack : s'.sack_out_ + (if n.flag_ = .sacked then last_ack + 1 - n.getStart else 0) =
      count .sacked (n :: rest))
    (hfack : s'.fack_out_ + (if n.flag_ = .lost then last_ack + 1 - n.getStart else 0) =
      count .lost (n :: rest))
    (hnodes : s'.nodes = { n with seq_ := last_ack + 1 } :: rest)
    (hnext : Pointed (n :: rest) s.nxt_to_retrx_) (hnxt : s'.nxt_to_retrx_ = s.nxt_to_retrx_)
    (hacked : s'.acked_rtx_id_ = s.acked_rtx_id_) (hfack_ : s'.fack_ = s.fack_) :
    Cleaned last_ack (last_ack + 1) hi (n :: rest) s changed s' changed := by
  obtain ⟨hlo, hne, hrest⟩ := hl
  have hlen := n.getLength_eq
  have hend : ({ n with seq_ := last_ack + 1 } : ScoreBoardNode1).getEnd = n.getEnd := by
    unfold getEnd
    rw [if_neg hflag, if_neg hflag]
  have hstart : ({ n with seq_ := last_ack + 1 } : ScoreBoardNode1).getStart = last_ack + 1 := rfl
  rw [count_cons] at hsack hfack
  refine ⟨⟨?_, ?_, ?_, ?_⟩, ?_, fun _ => by omega, hfack_, ?_, fun _ => hacked, fun _ => by rw [hnxt]⟩
  · rw [hnodes]
    refine ⟨rfl, ?_, ?_⟩
    · rw [hend, hstart]
      omega
    · rw [hend]
      exact hrest
  · rw [hnodes, count_cons, getLength_eq, hend, hstart]
    simp only
    split_ifs at hsack ⊢ <;> omega
  · rw [hnodes, count_cons, getLength_eq, hend, hstart]
    simp only
    split_ifs at hfack ⊢ <;> omega
  · rw [hnodes, hnxt]
    exact hnext.head rfl
  · rw [hnodes, trim, if_neg hwhole, if_pos hpart]
  · rw [newer_cons]
    have hno := not_newer s.acked_rtx_id_ hrest (show last_ack < n.getEnd + 1 by omega)
    simp [hflag, hno]

theorem cleanLoop_spec (changed : Bool) (flag : AckFlag) (hl : Tiles getStart getEnd lo l hi)
    (hsack : s.sack_out_ = count .sacked l) (hfack : s.fack_out_ = count .lost l)
    (hnext : Pointed l s.nxt_to_retrx_) :
    ∃ s' changed' flag' lo', cleanLoop last_ack l s changed flag = some (s', changed', flag') ∧
      Cleaned last_ack lo' hi l s changed s' changed' := by
  induction l generalizing lo s changed flag with
  | nil =>
    refine ⟨_, _, _, hi, rfl, ⟨rfl, hsack, hfack, hnext⟩, rfl, fun h => absurd rfl h, rfl, ?_,
      fun _ => rfl, fun h => absurd rfl h⟩
    simp [Newer]
  | cons n rest ih =>
    obtain ⟨hlo, hne, hrest⟩ := hl
    have hrest_sack : 0 ≤ count .sacked rest := hrest.weight_nonneg
    have hrest_lost : 0 ≤ count .lost rest := hrest.weight_nonneg
    have hsack' := hsack
    have hfack' := hfack
    rw [count_cons] at hsack hfack
    have hlen := n.getLength_eq
    unfold cleanLoop
    by_cases hwhole : n.getEnd ≤ last_ack
    · -- the whole block is acknowledged
      have hdiscount := discount_spec s n.flag_ n.getLength
        (fun h => by rw [if_pos h] at hsack; omega) (fun h => by rw [if_pos h] at hfack; omega)
      simp only [shouldClean_whole hne hwhole]
      rw [if_neg (by decide), if_pos (by decide), hdiscount, Option.bind_some, if_pos (by decide)]
      obtain ⟨s', changed', flag', lo', hrun, hc⟩ := ih (s := { s with
          sack_out_ := s.sack_out_ - if n.flag_ = .sacked then n.getLength else 0
          fack_out_ := s.fack_out_ - if n.flag_ = .lost then n.getLength else 0
          acked_rtx_id_ :=
            if n.flag_ = .retransmitted ∧ n.retran_ > s.acked_rtx_id_ then n.retran_
            else s.acked_rtx_id_
          nxt_to_retrx_ := popFront rest s.nxt_to_retrx_ })
        (changed || (n.flag_ = .retransmitted ∧ n.retran_ > s.acked_rtx_id_))
        { flag with unsure_tstamp := flag.unsure_tstamp || n.flag_ = .retransmitted }
        hrest (by simp only; omega) (by simp only; omega) hnext.pop
      exact ⟨s', changed', flag', lo', hrun,
        hc.cons_whole hwhole (hne.trans hwhole) (by simp) (by simp) rfl rfl⟩
    · by_cases hpart : n.getStart ≤ last_ack
      · -- the first packets of the block are acknowledged
        have hdiscount := discount_spec s n.flag_ (last_ack + 1 - n.getStart)
          (fun h => by rw [if_pos h] at hsack; omega) (fun h => by rw [if_pos h] at hfack; omega)
        simp only [shouldClean_part hpart (not_le.mp hwhole)]
        rw [if_neg (by omega), if_neg (by omega), hdiscount, Option.bind_some, if_neg (by omega)]
        refine ⟨_, _, _, last_ack + 1, rfl, Cleaned.cons_part ⟨hlo, hne, hrest⟩ hpart hwhole
          (n.ne_retransmitted (by omega)) ?_ ?_ rfl hnext rfl rfl rfl⟩
        · rw [← hsack']
          exact sub_add_cancel _ _
        · rw [← hfack']
          exact sub_add_cancel _ _
      · simp only [shouldClean_none (not_le.mp hpart), if_true]
        refine ⟨_, _, _, lo, rfl, ⟨⟨hlo, hne, hrest⟩, hsack', hfack', hnext⟩, ?_, fun _ => by omega,
          rfl, ?_, fun _ => rfl, fun _ => Iff.rfl⟩
        · rw [trim, if_neg hwhole, if_neg hpart]
        · have hno := not_newer s.acked_rtx_id_ (l := n :: rest) ⟨hlo, hne, hrest⟩
            (show last_ack < lo by omega)
          simp [hno]

theorem cleanRtxQueue_spec (h : Exact lo hi s) (last_ack : ℤ) :
    ∃ s' changed flag lo', s.cleanRtxQueue last_ack = some (s', changed, flag) ∧
      Cleaned last_ack lo' hi s.nodes s false s' changed :=
  cleanLoop_spec false ⟨false, false, false⟩ h.tiled h.sack_out h.fack_out h.next

end ScoreBoard1

/-! ## SACK blocks -/

/-- The blocks are not empty, and above the cumulative ACK. -/
def Proper (last_ack : ℤ) (sacks : List (ℤ × ℤ)) : Prop :=
  ∀ b ∈ sacks, last_ack < b.1 ∧ b.1 < b.2

theorem insertSack_perm (l : List (ℤ × ℤ)) (b : ℤ × ℤ) : (insertSack l b).Perm (b :: l) := by
  refine List.perm_middle.trans ?_
  rw [List.rdropWhile_append_rtakeWhile]

theorem mem_foldl_insertSack {sacks l : List (ℤ × ℤ)} {b : ℤ × ℤ} :
    b ∈ sacks.foldl (fun l b => if b.1 ≥ last_ack then insertSack l b else l) l ↔
      b ∈ l ∨ b ∈ sacks ∧ last_ack ≤ b.1 := by
  induction sacks generalizing l with
  | nil => simp
  | cons c sacks ih =>
    rw [List.foldl_cons, ih, List.mem_cons]
    by_cases hc : c.1 ≥ last_ack
    · rw [if_pos hc, (insertSack_perm l c).mem_iff, List.mem_cons]
      constructor
      · rintro ((rfl | hb) | ⟨hb, hle⟩)
        · exact Or.inr ⟨Or.inl rfl, hc⟩
        · exact Or.inl hb
        · exact Or.inr ⟨Or.inr hb, hle⟩
      · rintro (hb | ⟨rfl | hb, hle⟩)
        · exact Or.inl (Or.inr hb)
        · exact Or.inl (Or.inl rfl)
        · exact Or.inr ⟨hb, hle⟩
    · rw [if_neg hc]
      constructor
      · rintro (hb | ⟨hb, hle⟩)
        · exact Or.inl hb
        · exact Or.inr ⟨Or.inr hb, hle⟩
      · rintro (hb | ⟨rfl | hb, hle⟩)
        · exact Or.inl hb
        · exact absurd hle hc
        · exact Or.inr ⟨hb, hle⟩

/-- No block is left out. -/
theorem Proper.mem_sortSacks {sacks : List (ℤ × ℤ)} (h : Proper last_ack sacks) {b : ℤ × ℤ} :
    b ∈ sortSacks last_ack sacks ↔ b ∈ sacks := by
  rw [sortSacks, mem_foldl_insertSack]
  constructor
  · rintro (hb | ⟨hb, -⟩)
    · cases hb
    · exact hb
  · exact fun hb => Or.inr ⟨hb, (h b hb).1.le⟩

theorem Proper.sortSacks_eq_nil {sacks : List (ℤ × ℤ)} (h : Proper last_ack sacks) :
    sortSacks last_ack sacks = [] ↔ sacks = [] := by
  rw [List.eq_nil_iff_forall_not_mem, List.eq_nil_iff_forall_not_mem]
  exact forall_congr' fun b => not_congr h.mem_sortSacks

theorem Proper.sort {sacks : List (ℤ × ℤ)} (h : Proper last_ack sacks) :
    Proper last_ack (sortSacks last_ack sacks) := fun b hb => h b (h.mem_sortSacks.mp hb)

namespace ScoreBoard1

variable {s s' : ScoreBoard1} {sacks : List (ℤ × ℤ)}

/-! ## The traversal -/

/-- The number of turns suffices. -/
theorem turns_eq (h : Tiles getStart getEnd lo s.nodes hi) (hne : s.nodes ≠ []) :
    s.turns = (max s.fack_ (hi - 1) + 1 - lo).toNat + 1 := by
  obtain ⟨n, hhead, hstart⟩ := h.head? hne
  obtain ⟨m, hlast, hend⟩ := h.getLast? hne
  rw [turns, hhead, hlast, Option.elim_some, Option.elim_some, hstart, ← hend, add_sub_cancel_right]

/-- The traversal ends. -/
theorem traverse_spec (h : Exact lo hi s) (hne : s.nodes ≠ []) (sacks : List (ℤ × ℤ)) (thr : ℤ)
    (thorough : Bool) (flag : AckFlag) :
    ∃ p mid hi', (s.startPass sacks thorough flag).loop s.fack_ thr s.turns = some p ∧
      s.traverse thr sacks thorough flag = some (s.endPass p) ∧ p.Good lo mid hi' ∧ hi ≤ hi' ∧
      hi' ≤ max hi (s.fack_ + 1) ∧ (p.after = [] → s.fack_ < hi') ∧
      (p.after = [] ∨ p.sacks = [] ∧ p.thorough = false) := by
  have hgood : (s.startPass sacks thorough flag).Good lo lo hi := by
    refine ⟨⟨rfl, h.tiled, ?_, ?_⟩, rfl⟩
    · rw [startPass, count_nil, zero_add]
      exact h.sack_out
    · rw [startPass, count_nil, zero_add]
      exact h.fack_out
  have hlt := h.tiled.lt hne
  have hturns := turns_eq h.tiled hne
  obtain ⟨p, mid, hi', hrun, hp, hle, hmax, hnil, hstop⟩ :=
    Pass.loop_good s.fack_ thr s.turns hgood (fun hnil => absurd hnil hne) (by omega)
  refine ⟨p, mid, hi', hrun, ?_, hp, hle, hmax, hnil, hstop⟩
  rw [traverse, hrun, Option.map_some]

theorem exact_endPass {p : Pass} (h : p.Good lo mid hi) : Exact lo hi (s.endPass p).1 := by
  refine ⟨h.before.append h.after, ?_, ?_, ?_⟩
  · show p.sack_out_ = _
    rw [h.sack_out]
    exact (count_append.trans (by rw [count_reverse])).symm
  · show p.fack_out_ = _
    rw [h.fack_out]
    exact (count_append.trans (by rw [count_reverse])).symm
  · show Pointed _ p.nxt_to_retrx_
    rw [h.next]
    exact pointed_firstLost _ _

/-! ## `UpdateScoreBoard` -/

/-- The invariant, with what is known of `fack_`. -/
structure Settled (lo hi : ℤ) (s : ScoreBoard1) : Prop extends Exact lo hi s where
  /-- An empty scoreboard does not know of any SACK block. -/
  empty : s.nodes = [] → s.fack_ = 0
  /-- The nodes reach as far as the SACK blocks. -/
  fack_lt : s.nodes ≠ [] → s.fack_ < hi

theorem settled_clear (s : ScoreBoard1) (lo : ℤ) : Settled lo lo s.clearScoreBoard :=
  ⟨exact_clear s lo, fun _ => rfl, fun h => absurd rfl h⟩

theorem settled_new (lo : ℤ) : Settled lo lo new :=
  ⟨exact_new lo, fun _ => rfl, fun h => absurd rfl h⟩

/-- The last of the SACK blocks says whether `fack_` advances, and how far. -/
theorem framed_fack (s : ScoreBoard1) (last_ack : ℤ) (sacks : List (ℤ × ℤ)) :
    (s.framed last_ack sacks).fack_ = s.fack_ ∧ s.advanced sacks = false ∨
      s.advanced sacks = true ∧ ∃ b ∈ sacks, s.fack_ < b.2 - 1 ∧
        (s.framed last_ack sacks).fack_ = b.2 - 1 := by
  unfold framed advanced
  cases hlast : sacks.getLast? with
  | none => exact Or.inl ⟨rfl, rfl⟩
  | some b =>
    by_cases hb : s.fack_ < b.2 - 1
    · exact Or.inr ⟨by simp [hb], b, List.mem_of_getLast? hlast, hb, by simp [hb]⟩
    · exact Or.inl ⟨by simp [hb], by simp [hb]⟩

theorem framed_le_fack (s : ScoreBoard1) (last_ack : ℤ) {b : ℤ × ℤ} (hlast : sacks.getLast? = some b) :
    b.2 - 1 ≤ (s.framed last_ack sacks).fack_ := by
  unfold framed advanced
  rw [hlast]
  by_cases hb : s.fack_ < b.2 - 1
  · simp [hb]
  · simp [hb]
    omega

/-- The scoreboard from which the traversal starts. -/
theorem framed_spec (h : Settled lo hi s) (hsacks : Proper last_ack sacks)
    (hne : s.nodes = [] → sacks ≠ []) :
    ∃ lo' hi', Exact lo' hi' (s.framed last_ack sacks) ∧
      (s.framed last_ack sacks).nodes ≠ [] ∧
      (s.nodes ≠ [] → lo' = lo ∧ hi' = hi ∧ (s.framed last_ack sacks).nodes = s.nodes) ∧
      (s.nodes = [] → lo' = last_ack + 1 ∧ hi' = (s.framed last_ack sacks).fack_ + 1 ∧
        (s.framed last_ack sacks).nodes =
          [.new (last_ack + 1) (s.framed last_ack sacks).fack_ .inflight]) := by
  by_cases hnil : s.nodes = []
  · obtain ⟨l, b, hb⟩ := List.eq_nil_or_concat' sacks |>.resolve_left (hne hnil)
    have hlast : sacks.getLast? = some b := by rw [hb, List.getLast?_concat]
    have hle := framed_le_fack s last_ack hlast
    have hmem := hsacks b (List.mem_of_getLast? hlast)
    have hnodes : (s.framed last_ack sacks).nodes =
        [.new (last_ack + 1) (s.framed last_ack sacks).fack_ .inflight] := if_pos hnil
    refine ⟨last_ack + 1, (s.framed last_ack sacks).fack_ + 1, ⟨?_, ?_, ?_, ?_⟩, ?_,
      fun h' => absurd hnil h', fun _ => ⟨rfl, rfl, hnodes⟩⟩
    · rw [hnodes]
      exact ⟨rfl, by show last_ack + 1 ≤ (s.framed last_ack sacks).fack_; omega, rfl⟩
    · rw [hnodes]
      show s.sack_out_ = 0
      rw [h.sack_out, hnil]
      rfl
    · rw [hnodes]
      show s.fack_out_ = 0
      rw [h.fack_out, hnil]
      rfl
    · show Pointed _ s.nxt_to_retrx_
      have hpointer : s.nxt_to_retrx_ = none := by
        by_contra hsome
        obtain ⟨i, hi⟩ := Option.ne_none_iff_exists'.mp hsome
        obtain ⟨l₁, n, l₂, heq, -, -⟩ := h.next i hi
        rw [hnil] at heq
        simp at heq
      rw [hpointer]
      exact pointed_none
    · rw [hnodes]
      simp
  · have hnodes : (s.framed last_ack sacks).nodes = s.nodes := if_neg hnil
    refine ⟨lo, hi, ⟨hnodes ▸ h.tiled, ?_, ?_, ?_⟩, hnodes ▸ hnil, fun _ => ⟨rfl, rfl, hnodes⟩,
      fun h' => absurd h' hnil⟩
    · rw [hnodes]
      exact h.sack_out
    · rw [hnodes]
      exact h.fack_out
    · rw [hnodes]
      exact h.next

theorem updateCleaned_of_nil {thr : ℤ} {flag : AckFlag} :
    s.updateCleaned last_ack [] thr false flag = some (s, flag) := if_pos ⟨by simp, rfl⟩

theorem updateCleaned_eq (hsacks : Proper last_ack sacks) {thorough : Bool}
    (hne : thorough = true ∨ sacks ≠ []) (thr : ℤ) (flag : AckFlag) :
    s.updateCleaned last_ack sacks thr thorough flag =
      (s.framed last_ack (sortSacks last_ack sacks)).traverse thr (sortSacks last_ack sacks)
        (thorough || s.advanced (sortSacks last_ack sacks)) flag := by
  have hsorted := hsacks.sortSacks_eq_nil
  have hnot : ¬ (¬ thorough ∧ sacks = []) := by
    rintro ⟨hthorough, hnil⟩
    rcases hne with h | h
    · exact hthorough h
    · exact h hnil
  unfold updateCleaned
  rw [if_neg hnot]
  simp only
  rw [if_neg (by rwa [hsorted])]

/-- What `UpdateScoreBoard` leaves, as far as it depends on the bounds of what was sent. -/
structure Updated (last_ack lo hi : ℤ) (sacks : List (ℤ × ℤ)) (s : ScoreBoard1) (lo' hi' : ℤ)
    (s' : ScoreBoard1) : Prop where
  /-- The invariant. -/
  settled : Settled lo' hi' s'
  /-- Nothing is left of what was acknowledged. -/
  lt : s'.nodes ≠ [] → last_ack < lo'
  /-- Only packets that were in the scoreboard, or below the end of a SACK block, are in it. -/
  top : ∀ top, (s.nodes ≠ [] → hi ≤ top) → s.fack_ < top → (∀ b ∈ sacks, b.2 ≤ top) →
    (s'.nodes ≠ [] → hi' ≤ top) ∧ s'.fack_ < top

theorem updateCleaned_spec (h : Settled lo hi s) (hsacks : Proper last_ack sacks) {thorough : Bool}
    (hthorough : s.nodes = [] → thorough = false) (hlt : s.nodes ≠ [] → last_ack < lo) (thr : ℤ)
    (flag : AckFlag) :
    ∃ s' flag' lo' hi', s.updateCleaned last_ack sacks thr thorough flag = some (s', flag') ∧
      Updated last_ack lo hi sacks s lo' hi' s' := by
  by_cases hrun : thorough = true ∨ sacks ≠ []
  · have hne : s.nodes = [] → sortSacks last_ack sacks ≠ [] := by
      intro hnil hsorted
      rw [hsacks.sortSacks_eq_nil] at hsorted
      rw [hthorough hnil] at hrun
      exact (hrun.resolve_left Bool.false_ne_true) hsorted
    obtain ⟨lo₁, hi₁, hexact, hnodes, hold, hnew⟩ := framed_spec h hsacks.sort hne
    obtain ⟨p, mid, hi₂, hloop, htraverse, hp, hle, hmax, hnil, hstop⟩ :=
      traverse_spec hexact hnodes (sortSacks last_ack sacks) thr
        (thorough || s.advanced (sortSacks last_ack sacks)) flag
    have hlt₁ := hexact.tiled.lt hnodes
    have hfack := framed_fack s last_ack (sortSacks last_ack sacks)
    refine ⟨_, _, lo₁, hi₂, (updateCleaned_eq hsacks hrun thr flag).trans htraverse,
      ⟨exact_endPass hp, fun hempty => ?_, fun _ => ?_⟩, fun _ => ?_, fun top hhi htop hb => ?_⟩
    · have htiles := (exact_endPass (s := s.framed last_ack (sortSacks last_ack sacks)) hp).tiled
      rw [show (endPass _ p).1.nodes = [] from hempty] at htiles
      obtain rfl : lo₁ = hi₂ := htiles
      omega
    · show (s.framed last_ack (sortSacks last_ack sacks)).fack_ < hi₂
      rcases hstop with hafter | ⟨-, hthorough'⟩
      · exact hnil hafter
      · -- a pass that stops early has not advanced `fack_`
        rcases hfack with ⟨hsame, -⟩ | ⟨hadvanced, -⟩
        · by_cases hempty : s.nodes = []
          · have := (hnew hempty).2.1
            omega
          · have hlt' := h.fack_lt hempty
            have := (hold hempty).2.1
            omega
        · have := Pass.loop_thorough hloop (by simp [startPass, hadvanced])
          rw [this] at hthorough'
          exact absurd hthorough' (by decide)
    · by_cases hempty : s.nodes = []
      · have := (hnew hempty).1
        omega
      · have := (hold hempty).1
        have := hlt hempty
        omega
    · have hfack' : (s.framed last_ack (sortSacks last_ack sacks)).fack_ < top := by
        rcases hfack with ⟨hsame, -⟩ | ⟨-, b, hmem, -, heq⟩
        · omega
        · have := hb b (hsacks.mem_sortSacks.mp hmem)
          omega
      refine ⟨fun _ => ?_, hfack'⟩
      by_cases hempty : s.nodes = []
      · have := (hnew hempty).2.1
        omega
      · have := (hold hempty).2.1
        have := hhi hempty
        omega
  · have hfalse : thorough = false := by
      by_contra ht
      exact hrun (Or.inl (by simpa using ht))
    have hnil : sacks = [] := by
      by_contra hs
      exact hrun (Or.inr hs)
    subst hfalse hnil
    exact ⟨s, flag, lo, hi, updateCleaned_of_nil, h, hlt, fun top hhi htop _ => ⟨hhi, htop⟩⟩

/-- `UpdateScoreBoard` returns, and keeps the invariant. -/
theorem updateScoreBoard_spec (h : Settled lo hi s) (hsacks : Proper last_ack sacks) (thr : ℤ) :
    ∃ s' flag lo' hi', s.updateScoreBoard last_ack sacks thr = some (s', flag) ∧
      Settled lo' hi' s' ∧ (s'.nodes ≠ [] → last_ack < lo') ∧
      ∀ top, 0 < top → (s.nodes ≠ [] → hi ≤ top) → s.fack_ < top → (∀ b ∈ sacks, b.2 ≤ top) →
        (s'.nodes ≠ [] → hi' ≤ top) ∧ s'.fack_ < top := by
  obtain ⟨s₁, changed, flag₁, lo₁, hclean, hc⟩ := cleanRtxQueue_spec h.toExact last_ack
  rw [updateScoreBoard, hclean, Option.bind_some]
  by_cases hempty : s₁.nodes = []
  · obtain ⟨s', flag', lo', hi', hrun, hu⟩ :=
      updateCleaned_spec (settled_clear s₁ (last_ack + 1)) hsacks (fun _ => (rfl : false = false))
        (fun hne => absurd rfl hne) thr flag₁
    refine ⟨s', flag', lo', hi', (if_pos hempty).trans hrun, hu.settled, hu.lt,
      fun top hpos _ _ hb => hu.top top (fun hne => absurd rfl hne) hpos hb⟩
  · have hne : s.nodes ≠ [] := by
      intro hnil
      rw [hc.nodes, hnil] at hempty
      exact hempty rfl
    have hsettled : Settled lo₁ hi s₁ :=
      ⟨hc.exact, fun hnil => absurd hnil hempty, fun _ => hc.fack ▸ h.fack_lt hne⟩
    obtain ⟨s', flag', lo', hi', hrun, hu⟩ :=
      updateCleaned_spec hsettled hsacks (fun hnil => absurd hnil hempty)
        hc.lt thr flag₁
    exact ⟨s', flag', lo', hi', (if_neg hempty).trans hrun, hu.settled, hu.lt,
      fun top _ hhi htop hb => hu.top top (fun _ => hhi hne) (hc.fack ▸ htop) hb⟩

/-! ## `MarkLoss` -/

/-- The loop of `MarkLoss`, between two turns. -/
structure Losing (lo mid hi : ℤ) (before after : List ScoreBoardNode1) (last_lost : Bool)
    (s : ScoreBoard1) : Prop where
  /-- The nodes before `now`. -/
  passed : Tiles getStart getEnd lo before.reverse mid
  /-- The nodes from `now` on. -/
  remaining : Tiles getStart getEnd mid after hi
  /-- The packets acknowledged by SACK blocks. -/
  sack_out : s.sack_out_ = count .sacked before + count .sacked after
  /-- The lost packets. -/
  fack_out : s.fack_out_ = count .lost before + count .lost after
  /-- The node to retransmit from is the first lost one among those passed. -/
  next : s.nxt_to_retrx_ = firstLost before.reverse
  /-- Whether the last node passed is lost. -/
  last : last_lost = true → ∃ prev bs, before = prev :: bs ∧ prev.flag_ = .lost

theorem extension_eq (snd_nxt : ℤ) (prev : ScoreBoardNode1) (rest : List ScoreBoardNode1) :
    (if rest = [] ∧ prev.getEnd + 1 < snd_nxt then
      [ScoreBoardNode1.new (prev.getEnd + 1) (snd_nxt - 1) .inflight] else rest) =
      Pass.extension (snd_nxt - 1) prev rest := by
  unfold Pass.extension
  refine if_congr (and_congr_right fun _ => ?_) rfl rfl
  omega

/-- What a turn of the loop leaves when `now` has become, or has gone into, the node `prev`. -/
structure Turned (lo : ℤ) (now : ScoreBoardNode1) (rest : List ScoreBoardNode1) (s : ScoreBoard1)
    (prev : ScoreBoardNode1) (bs : List ScoreBoardNode1) (b : Bool) (s₁ : ScoreBoard1) : Prop where
  end_eq : prev.getEnd = now.getEnd
  passed : Tiles getStart getEnd lo (prev :: bs).reverse (prev.getEnd + 1)
  sack_out : s₁.sack_out_ = count .sacked (prev :: bs) + count .sacked rest
  fack_out : s₁.fack_out_ = count .lost (prev :: bs) + count .lost rest
  next : s₁.nxt_to_retrx_ = firstLost (prev :: bs).reverse
  last : b = true → prev.flag_ = .lost
  fack : s₁.fack_ = s.fack_

section Turn

variable {now prev : ScoreBoardNode1} {before bs rest : List ScoreBoardNode1} {b last_lost : Bool}
  {s₁ : ScoreBoard1}

/-- The loop goes on with the nodes that are left, or with a new one up to `snd_nxt`. -/
theorem Turned.losing (snd_nxt : ℤ) (h : Turned lo now rest s prev bs b s₁)
    (hrest : Tiles getStart getEnd (now.getEnd + 1) rest hi) :
    ∃ hi₁, Losing lo (prev.getEnd + 1) hi₁ (prev :: bs) (Pass.extension (snd_nxt - 1) prev rest) b s₁ ∧
      hi ≤ hi₁ ∧ hi₁ ≤ max hi snd_nxt ∧
      (Pass.extension (snd_nxt - 1) prev rest).length + (if hi₁ ≤ snd_nxt - 1 then 1 else 0) ≤
        rest.length + (if hi ≤ snd_nxt - 1 then 1 else 0) := by
  obtain ⟨hi₁, htiles, hle₁, hmax₁, -, hmeasure⟩ :=
    Pass.tiles_extension (snd_nxt - 1)
      (show Tiles getStart getEnd (prev.getEnd + 1) rest hi from h.end_eq ▸ hrest)
  refine ⟨hi₁, ⟨h.passed, htiles, ?_, ?_, h.next, fun hb => ⟨prev, bs, rfl, h.last hb⟩⟩, hle₁,
    by omega, hmeasure⟩
  · rw [Pass.count_extension (by decide)]
    exact h.sack_out
  · rw [Pass.count_extension (by decide)]
    exact h.fack_out

/-- The node `now` comes after those passed. -/
theorem Losing.snoc (h : Losing lo mid hi before (now :: rest) last_lost s) :
    Tiles getStart getEnd lo (before.reverse ++ [now]) (now.getEnd + 1) := by
  obtain ⟨hmid, hne, -⟩ := h.remaining
  exact h.passed.append ⟨hmid, hne, rfl⟩

theorem setFlag_getLength {flag : SkbFlag} (hflag : flag ≠ .retransmitted) :
    (now.setFlag flag).getLength = now.getLength := by
  rw [getLength_eq, setFlag_getEnd hflag, getLength_eq, setFlag_getStart]

/-- A node that SACK blocks acknowledge is passed. -/
theorem Losing.turn_sacked (h : Losing lo mid hi before (now :: rest) last_lost s)
    (hflag : now.flag_ = .sacked) : Turned lo now rest s now before false s := by
  have hsack := h.sack_out
  have hfack := h.fack_out
  rw [count_cons] at hsack hfack
  refine ⟨rfl, ?_, ?_, ?_, ?_, fun hb => absurd hb (by decide), rfl⟩
  · rw [List.reverse_cons]
    exact h.snoc
  · rw [count_cons]
    omega
  · rw [count_cons]
    omega
  · rw [List.reverse_cons, firstLost_snoc (by rw [hflag]; decide)]
    exact h.next

/-- A node after a lost one is merged with it. -/
theorem Losing.turn_merged (h : Losing lo mid hi (prev :: bs) (now :: rest) last_lost s)
    (hflag : now.flag_ ≠ .sacked) (hprev : prev.flag_ = .lost) {v : ℤ}
    (hv : v = if now.flag_ ≠ .lost then s.fack_out_ + (now.getEnd - now.getStart + 1)
      else s.fack_out_) :
    Turned lo now rest s (prev.merge (now.setFlag .lost)) bs true { s with fack_out_ := v } := by
  have hsack := h.sack_out
  have hfack := h.fack_out
  have hlen := now.getLength_eq
  have hlost_end : (now.setFlag .lost).getEnd = now.getEnd := setFlag_getEnd (by decide)
  have hmerge : prev.Mergable (now.setFlag .lost) := ⟨by simp, hprev.symm⟩
  have hend : (prev.merge (now.setFlag .lost)).getEnd = now.getEnd :=
    (merge_getEnd hmerge).trans hlost_end
  have hsnoc := h.snoc
  rw [List.reverse_cons] at hsnoc
  obtain ⟨m, hpassed, hrest'⟩ := tiles_append.mp hsnoc
  obtain ⟨m', hbs, hm', hle', hprev'⟩ := tiles_append.mp hpassed
  obtain rfl : prev.getEnd + 1 = m := hprev'
  obtain ⟨hnow, hle, -⟩ := hrest'
  have hlength : (prev.merge (now.setFlag .lost)).getLength = prev.getLength + now.getLength := by
    rw [getLength_eq, hend, merge_getStart, getLength_eq, getLength_eq]
    omega
  rw [count_cons, if_neg (by rw [hprev]; decide), count_cons, if_neg hflag] at hsack
  rw [count_cons, if_pos hprev, count_cons] at hfack
  refine ⟨hend, ?_, ?_, ?_, ?_, fun _ => hprev, rfl⟩
  · rw [List.reverse_cons, hend]
    refine hbs.append ⟨hm', ?_, by rw [hend]; rfl⟩
    rw [hend, merge_getStart]
    omega
  · show s.sack_out_ = _
    rw [count_cons, merge_flag_, if_neg (by rw [hprev]; decide)]
    omega
  · show v = _
    rw [count_cons, merge_flag_, if_pos hprev, hlength, hv]
    split_ifs at hfack ⊢ <;> first | omega | contradiction
  · rw [List.reverse_cons, firstLost_congr (n := prev) merge_flag_, ← List.reverse_cons]
    exact h.next

/-- Any other node is lost. -/
theorem Losing.turn_lost (h : Losing lo mid hi before (now :: rest) last_lost s)
    (hflag : now.flag_ ≠ .sacked) {v : ℤ}
    (hv : v = if now.flag_ ≠ .lost then s.fack_out_ + (now.getEnd - now.getStart + 1)
      else s.fack_out_) :
    Turned lo now rest s (now.setFlag .lost) before true
      { s with
        fack_out_ := v
        nxt_to_retrx_ := if s.nxt_to_retrx_ = none then some before.length else s.nxt_to_retrx_ } := by
  have hsack := h.sack_out
  have hfack := h.fack_out
  have hlen := now.getLength_eq
  obtain ⟨hmid, hne, -⟩ := h.remaining
  have hlost_end : (now.setFlag .lost).getEnd = now.getEnd := setFlag_getEnd (by decide)
  rw [count_cons, if_neg hflag] at hsack
  rw [count_cons] at hfack
  refine ⟨hlost_end, ?_, ?_, ?_, ?_, fun _ => rfl, rfl⟩
  · rw [List.reverse_cons, hlost_end]
    exact h.passed.append ⟨hmid, by rw [hlost_end]; exact hne, by rw [hlost_end]; rfl⟩
  · show s.sack_out_ = _
    rw [count_cons, setFlag_flag_, if_neg (show SkbFlag.lost ≠ .sacked by decide)]
    omega
  · show v = _
    rw [count_cons, setFlag_flag_, if_pos rfl, setFlag_getLength (by decide), hv]
    split_ifs at hfack ⊢ <;> first | omega | contradiction
  · rw [List.reverse_cons, firstLost_snoc_lost rfl, ← h.next, List.length_reverse]
    show (if s.nxt_to_retrx_ = none then some before.length else s.nxt_to_retrx_) = _
    cases s.nxt_to_retrx_ <;> rfl

end Turn

theorem lossLoop_spec (snd_nxt : ℤ) (fuel : ℕ) {before after : List ScoreBoardNode1}
    {last_lost : Bool} (h : Losing lo mid hi before after last_lost s)
    (hfuel : after.length + (if hi ≤ snd_nxt - 1 then 1 else 0) < fuel) :
    ∃ s' hi', lossLoop snd_nxt fuel before after last_lost s = some s' ∧ Exact lo hi' s' ∧
      s'.nxt_to_retrx_ = firstLost s'.nodes ∧ s'.fack_ = s.fack_ ∧ hi ≤ hi' ∧
      hi' ≤ max hi snd_nxt ∧ (s'.nodes = [] ↔ before = [] ∧ after = []) := by
  induction fuel generalizing before after last_lost s mid hi with
  | zero => exact absurd hfuel (Nat.not_lt_zero _)
  | succ fuel ih =>
    cases after with
    | nil =>
      obtain rfl : mid = hi := h.remaining
      refine ⟨_, mid, rfl, ⟨h.passed, ?_, ?_, ?_⟩, h.next, rfl, le_rfl, le_max_left _ _, by simp⟩
      · rw [count_reverse]
        exact h.sack_out.trans (add_zero _)
      · rw [count_reverse]
        exact h.fack_out.trans (add_zero _)
      · have hpointed := pointed_firstLost before.reverse []
        rw [List.append_nil, ← h.next] at hpointed
        exact hpointed
    | cons now rest =>
      obtain ⟨-, -, hrest⟩ := h.remaining
      -- what is left to do, once the node that `now` has become is known
      have hstep {prev : ScoreBoardNode1} {bs : List ScoreBoardNode1} {b : Bool} {s₁ : ScoreBoard1}
          (hturn : Turned lo now rest s prev bs b s₁) :
          ∃ s' hi', lossLoop snd_nxt fuel (prev :: bs) (Pass.extension (snd_nxt - 1) prev rest) b s₁ =
              some s' ∧ Exact lo hi' s' ∧ s'.nxt_to_retrx_ = firstLost s'.nodes ∧
            s'.fack_ = s.fack_ ∧ hi ≤ hi' ∧ hi' ≤ max hi snd_nxt ∧
            (s'.nodes = [] ↔ before = [] ∧ now :: rest = []) := by
        obtain ⟨hi₁, hlosing, hle₁, hmax₁, hmeasure⟩ := hturn.losing snd_nxt hrest
        rw [List.length_cons] at hfuel
        obtain ⟨s', hi', hrun, hexact, hnext', hfack', hle', hmax', hnil⟩ := ih hlosing (by omega)
        exact ⟨s', hi', hrun, hexact, hnext', hfack'.trans hturn.fack, hle₁.trans hle', by omega,
          hnil.trans (by simp)⟩
      unfold lossLoop
      simp only [extension_eq]
      by_cases hflag : now.flag_ = .sacked
      · rw [if_neg fun hnot => hnot hflag]
        exact hstep (h.turn_sacked hflag)
      · rw [if_pos hflag]
        cases last_lost with
        | true =>
          obtain ⟨prev, bs, rfl, hprev⟩ := h.last rfl
          exact hstep (h.turn_merged hflag hprev rfl)
        | false => exact hstep (h.turn_lost hflag rfl)

/-- `MarkLoss` returns, and keeps the invariant. -/
theorem markLoss_spec (h : Settled lo hi s) (snd_una snd_nxt : ℕ) :
    ∃ s' lo' hi', s.markLoss snd_una snd_nxt = some s' ∧ Settled lo' hi' s' ∧
      s'.nxt_to_retrx_ = firstLost s'.nodes ∧
      (∀ last, (s.nodes ≠ [] → last < lo) → last < (snd_una : ℤ) → s'.nodes ≠ [] → last < lo') ∧
      ∀ top, (s.nodes ≠ [] → hi ≤ top) → s.fack_ < top → (snd_nxt : ℤ) ≤ top →
        (s'.nodes ≠ [] → hi' ≤ top) ∧ s'.fack_ < top := by
  have hlosing : Losing lo lo hi [] s.nodes false { s with nxt_to_retrx_ := none } := by
    refine ⟨rfl, h.tiled, ?_, ?_, rfl, fun hb => absurd hb (by decide)⟩
    · rw [count_nil, zero_add]
      exact h.sack_out
    · rw [count_nil, zero_add]
      exact h.fack_out
  obtain ⟨s₁, hi₁, hrun, hexact, hnext, hfack, hle, hmax, hnil⟩ :=
    lossLoop_spec snd_nxt (s.nodes.length + 2) hlosing (by split_ifs <;> omega)
  have hfack₁ : s₁.fack_ = s.fack_ := hfack
  unfold markLoss
  rw [hrun, Option.map_some]
  by_cases hnew : s₁.nodes = [] ∧ (snd_una : ℤ) < snd_nxt
  · -- the scoreboard was empty
    have hempty : s.nodes = [] := (hnil.mp hnew.1).2
    have hzero : s.fack_ = 0 := h.empty hempty
    simp only [if_pos hnew]
    refine ⟨_, snd_una, snd_nxt, rfl, ⟨⟨⟨rfl, ?_, ?_⟩, ?_, ?_, ?_⟩, fun h' => absurd h' (by simp),
      fun _ => ?_⟩, rfl, fun last _ hlast _ => hlast, fun top _ htop hnxt => ⟨fun _ => hnxt, ?_⟩⟩
    · show (snd_una : ℤ) ≤ snd_nxt - 1
      omega
    · show (snd_nxt : ℤ) - 1 + 1 = snd_nxt
      omega
    · show s₁.sack_out_ = 0
      rw [hexact.sack_out, hnew.1]
      rfl
    · show s₁.fack_out_ + (snd_nxt - snd_una) = (snd_nxt - 1 + 1 - snd_una) + 0
      rw [hexact.fack_out, hnew.1, count_nil]
      omega
    · intro i hi
      obtain rfl : 0 = i := Option.some.inj hi
      exact ⟨[], _, [], rfl, rfl, by simp⟩
    · show s₁.fack_ < snd_nxt
      omega
    · show s₁.fack_ < top
      omega
  · simp only [if_neg hnew]
    refine ⟨_, lo, hi₁, rfl, ⟨⟨hexact.tiled, hexact.sack_out, hexact.fack_out, hexact.next⟩,
      fun h' => ?_, fun h' => ?_⟩, hnext, fun last hlo _ h' => hlo fun hempty => h' (hnil.mpr ⟨rfl, hempty⟩),
      fun top hhi htop hnxt => ⟨fun h' => ?_, ?_⟩⟩
    · exact hfack₁.trans (h.empty (hnil.mp h').2)
    · have := h.fack_lt fun hempty => h' (hnil.mpr ⟨rfl, hempty⟩)
      show s₁.fack_ < hi₁
      omega
    · have := hhi fun hempty => h' (hnil.mpr ⟨rfl, hempty⟩)
      omega
    · show s₁.fack_ < top
      omega

/-! ## Retransmissions -/

theorem skipLoop_eq (l : List ScoreBoardNode1) (i : ℕ) :
    skipLoop l i = (firstLost l).map (· + i) := by
  induction l generalizing i with
  | nil => rfl
  | cons n l ih =>
    unfold skipLoop
    by_cases hlost : n.flag_ = .lost
    · rw [if_neg fun h => h hlost]
      simp [firstLost, List.findIdx?_cons, hlost]
    · rw [if_pos hlost, ih]
      simp only [firstLost, List.findIdx?_cons, hlost, decide_false, Bool.false_eq_true, if_false,
        Option.map_map]
      refine Option.map_congr fun k _ => ?_
      simp only [Function.comp_apply]
      omega

theorem firstLost_bind (l : List ScoreBoardNode1) :
    (firstLost l).bind (fun i => l[i]?) = l.find? fun n => n.flag_ = .lost := by
  induction l with
  | nil => rfl
  | cons n l ih =>
    rw [List.find?_cons]
    by_cases hlost : n.flag_ = .lost
    · simp [firstLost, List.findIdx?_cons, hlost]
    · rw [← ih]
      simp [firstLost, List.findIdx?_cons, hlost, Option.bind_map]

/-- What `GetNextRetran` returns, if it starts from a node. -/
def firstLostStart (l : List ScoreBoardNode1) : ℤ :=
  (l.find? fun n => n.flag_ = .lost).elim (-1) getStart

/-- `GetNextRetran` finds the first lost node, unless the pointer is null. -/
theorem getNextRetran_of_none (h : s.nxt_to_retrx_ = none) : s.getNextRetran = (s, -1) := by
  obtain ⟨nodes, nxt, acked, rtx, fack, fack_out, sack_out, last⟩ := s
  obtain rfl : nxt = none := h
  rfl

theorem getNextRetran_of_some (h : Pointed s.nodes s.nxt_to_retrx_) (hne : s.nxt_to_retrx_ ≠ none) :
    s.getNextRetran = ({ s with nxt_to_retrx_ := firstLost s.nodes }, firstLostStart s.nodes) := by
  obtain ⟨i, hi⟩ := Option.ne_none_iff_exists'.mp hne
  obtain ⟨l₁, n, l₂, hnodes, hlen, hno⟩ := h i hi
  have hfirst : firstLost l₁ = none := List.findIdx?_eq_none_iff.mpr fun m hm => by simpa using hno m hm
  have hskip : (s.nxt_to_retrx_.bind fun i => skipLoop (s.nodes.drop i) i) = firstLost s.nodes := by
    rw [hi, Option.bind_some, skipLoop_eq, hnodes, ← hlen, List.drop_left, firstLost_append, hfirst,
      Option.none_or]
  unfold getNextRetran firstLostStart
  simp only [hskip, firstLost_bind]

theorem exact_getNextRetran (h : Exact lo hi s) : Exact lo hi s.getNextRetran.1 := by
  by_cases hne : s.nxt_to_retrx_ = none
  · rw [getNextRetran_of_none hne]
    exact h
  · rw [getNextRetran_of_some h.next hne]
    refine ⟨h.tiled, h.sack_out, h.fack_out, ?_⟩
    have hpointed := pointed_firstLost s.nodes []
    rw [List.append_nil] at hpointed
    exact hpointed

@[simp] theorem getNextRetran_nodes : s.getNextRetran.1.nodes = s.nodes := rfl

@[simp] theorem getNextRetran_fack_ : s.getNextRetran.1.fack_ = s.fack_ := rfl

theorem settled_getNextRetran (h : Settled lo hi s) : Settled lo hi s.getNextRetran.1 :=
  ⟨exact_getNextRetran h.toExact, h.empty, h.fack_lt⟩

/-- If a packet is returned, the pointer leads to a lost node that starts with it. -/
theorem getNextRetran_ne (h : Pointed s.nodes s.nxt_to_retrx_) (hne : s.getNextRetran.2 ≠ -1) :
    ∃ l₁ n l₂, s.nodes = l₁ ++ n :: l₂ ∧ s.getNextRetran.1.nxt_to_retrx_ = some l₁.length ∧
      n.flag_ = .lost ∧ s.getNextRetran.2 = n.getStart ∧ ∀ m ∈ l₁, m.flag_ ≠ .lost := by
  by_cases hnone : s.nxt_to_retrx_ = none
  · rw [getNextRetran_of_none hnone] at hne
    exact absurd rfl hne
  · rw [getNextRetran_of_some h hnone] at hne ⊢
    cases hfirst : firstLost s.nodes with
    | none =>
      have hfind := firstLost_bind s.nodes
      rw [hfirst, Option.bind_none] at hfind
      rw [firstLostStart, ← hfind] at hne
      exact absurd rfl hne
    | some i =>
      have hfind := firstLost_bind s.nodes
      obtain ⟨hlt, hlost, hno⟩ := List.findIdx?_eq_some_iff_getElem.mp hfirst
      rw [hfirst, Option.bind_some, List.getElem?_eq_getElem hlt] at hfind
      refine ⟨s.nodes.take i, s.nodes[i], s.nodes.drop (i + 1), ?_, ?_, by simpa using hlost, ?_,
        fun m hm => ?_⟩
      · rw [← List.drop_eq_getElem_cons hlt, List.take_append_drop]
      · rw [List.length_take, min_eq_left hlt.le]
      · rw [firstLostStart, ← hfind]
        rfl
      · obtain ⟨j, hj, rfl⟩ := List.getElem_of_mem hm
        rw [List.length_take] at hj
        rw [List.getElem_take]
        simpa using hno j (by omega)

/-- The pieces of a lost node: its first packet is retransmitted, and the others are lost. -/
theorem markRetran_pieces {n : ScoreBoardNode1} (hlost : n.flag_ = .lost)
    (hle : n.getStart < n.getEnd + 1) (snd_nxt rtx_id : ℤ) :
    Tiles getStart getEnd n.getStart (n.markRetran snd_nxt rtx_id) (n.getEnd + 1) ∧
      count .sacked (n.markRetran snd_nxt rtx_id) = 0 ∧
      count .lost (n.markRetran snd_nxt rtx_id) = n.getEnd - n.getStart := by
  have hflag : n.flag_ ≠ .retransmitted := by
    rw [hlost]
    decide
  have hend : n.getEnd = n.nxt_ := if_neg hflag
  have hstart : n.getStart = n.seq_ := rfl
  unfold ScoreBoardNode1.markRetran
  by_cases hlong : n.nxt_ > n.seq_
  · rw [if_pos hlong]
    refine ⟨⟨rfl, le_rfl, rfl, ?_, ?_⟩, ?_, ?_⟩
    · rw [back_getEnd hflag, back_getStart, hend]
      exact hlong
    · rw [back_getEnd hflag]
      rfl
    · simp [hlost]
    · simp [hlost, getLength_eq, back_getEnd hflag, hstart]
  · rw [if_neg hlong]
    have hone : n.getEnd = n.getStart := by omega
    refine ⟨⟨rfl, le_rfl, ?_⟩, by simp, by simp [hone]⟩
    rw [hone]
    rfl

/-- `MarkRetran` of the packet that `GetNextRetran` has returned. -/
theorem markRetran_spec (h : Settled lo hi s) (hne : s.getNextRetran.2 ≠ -1) (snd_nxt : ℤ) :
    ∃ s', s.getNextRetran.1.markRetran s.getNextRetran.2 snd_nxt = some s' ∧ Settled lo hi s' ∧
      s'.nodes ≠ [] ∧ s.nodes ≠ [] ∧ s'.fack_ = s.fack_ := by
  obtain ⟨l₁, n, l₂, hnodes, hpointer, hlost, hseq, hno⟩ := getNextRetran_ne h.next hne
  have htiles := h.tiled
  rw [hnodes] at htiles
  obtain ⟨mid, h₁, hmid, hle, h₂⟩ := tiles_append.mp htiles
  have hflag : n.flag_ ≠ .retransmitted := by
    rw [hlost]
    decide
  have hend : n.getEnd = n.nxt_ := if_neg hflag
  have hstart : n.getStart = n.seq_ := rfl
  have hsack := h.sack_out
  have hfack := h.fack_out
  rw [hnodes, count_append, count_cons, if_pos hlost, getLength_eq] at hfack
  rw [hnodes, count_append, count_cons, if_neg (by rw [hlost]; decide)] at hsack
  have h₁_lost : 0 ≤ count .lost l₁ := h₁.weight_nonneg
  have h₂_lost : 0 ≤ count .lost l₂ := h₂.weight_nonneg
  have hinside : n.Inside n.getStart := by
    unfold Inside
    rw [if_neg hflag]
    omega
  have hget : s.nodes[l₁.length]? = some n := by
    rw [hnodes]
    simp
  have hnode : s.nodes.take l₁.length = l₁ ∧ s.nodes.drop (l₁.length + 1) = l₂ := by
    rw [hnodes]
    simp
  obtain ⟨htile, hnosack, hrest⟩ := markRetran_pieces hlost (by omega) snd_nxt s.rtx_id_
  refine ⟨{ s with
    nxt_to_retrx_ := some l₁.length
    fack_out_ := s.fack_out_ - 1
    nodes := l₁ ++ n.markRetran snd_nxt s.rtx_id_ ++ l₂
    rtx_id_ := s.rtx_id_ + 1
    last_rtx_seq_ := n.getStart }, ?_, ⟨⟨?_, ?_, ?_, ?_⟩, ?_, ?_⟩, ?_, ?_, rfl⟩
  · unfold markRetran
    rw [hpointer, Option.bind_some, getNextRetran_nodes, hget, Option.bind_some, hseq,
      if_pos ⟨hinside, by show s.fack_out_ - 1 ≥ 0; omega⟩, hnode.1, hnode.2]
    rfl
  · exact (h₁.append (hmid ▸ htile)).append h₂
  · show s.sack_out_ = _
    rw [count_append, count_append, hnosack]
    omega
  · show s.fack_out_ - 1 = _
    rw [count_append, count_append, hrest]
    omega
  · intro i hi
    obtain rfl : l₁.length = i := Option.some.inj hi
    exact ⟨l₁, _, _, List.append_assoc _ _ _, rfl, hno⟩
  · intro hnil
    simp [ScoreBoardNode1.markRetran] at hnil
  · intro _
    exact h.fack_lt (by rw [hnodes]; simp)
  · simp [ScoreBoardNode1.markRetran]
  · rw [hnodes]
    simp

end ScoreBoard1

end Ns2.Linux
