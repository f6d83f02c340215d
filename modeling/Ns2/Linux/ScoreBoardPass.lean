import Ns2.Linux.ScoreBoard

/-!
# One turn of the traversal of the scoreboard

What `mark`, `judge` and `advance` do to the nodes and to the counters.

* `count f l` — the packets in nodes with flag `f`.
* `mark_cases`, `judge_cases` — everything that the two halves of a turn can do.
* `Rewritten` — `now` is replaced by pieces of it, and the counters follow.
* `Pass.Good` — the invariant: the nodes tile an interval, the counters are exact, and the node
  to retransmit from is the first lost one among those passed.
* `turn_good`, `loop_good` — a turn keeps it and leaves a packet behind, so the loop ends.
-/

namespace Ns2.Linux

open Tiling ScoreBoardNode1

variable {n now prev next : ScoreBoardNode1} {flag : SkbFlag} {seq : ℤ}

namespace ScoreBoardNode1

theorem getLength_eq (n : ScoreBoardNode1) : n.getLength = n.getEnd + 1 - n.getStart := by
  unfold getLength getEnd getStart
  split <;> omega

@[simp] theorem setFlag_flag_ : (n.setFlag flag).flag_ = flag := rfl

@[simp] theorem setFlag_getStart : (n.setFlag flag).getStart = n.getStart := rfl

theorem setFlag_getEnd (h : flag ≠ .retransmitted) : (n.setFlag flag).getEnd = n.getEnd := by
  show (if flag = .retransmitted then _ else _) = _
  rw [if_neg h]
  rfl

@[simp] theorem front_flag_ : (n.front seq).flag_ = n.flag_ := rfl

@[simp] theorem front_getStart : (n.front seq).getStart = n.getStart := rfl

theorem front_getEnd (h : n.flag_ ≠ .retransmitted) : (n.front seq).getEnd = seq - 1 := if_neg h

@[simp] theorem back_flag_ : (n.back seq).flag_ = n.flag_ := rfl

@[simp] theorem back_getStart : (n.back seq).getStart = seq := rfl

theorem back_getEnd (h : n.flag_ ≠ .retransmitted) : (n.back seq).getEnd = n.getEnd := by
  show (if n.flag_ = .retransmitted then _ else _) = (if n.flag_ = .retransmitted then _ else _)
  rw [if_neg h, if_neg h]
  rfl

@[simp] theorem merge_flag_ : (prev.merge next).flag_ = prev.flag_ := rfl

@[simp] theorem merge_getStart : (prev.merge next).getStart = prev.getStart := rfl

theorem merge_getEnd (h : prev.Mergable next) : (prev.merge next).getEnd = next.getEnd := by
  have hprev : prev.flag_ ≠ .retransmitted := h.2 ▸ h.1
  show (if prev.flag_ = .retransmitted then _ else _) = (if next.flag_ = .retransmitted then _ else _)
  rw [if_neg hprev, if_neg h.1]
  rfl

/-- A node with more than one packet is not a retransmitted packet. -/
theorem ne_retransmitted (h : n.getStart < n.getEnd) : n.flag_ ≠ .retransmitted := by
  intro hflag
  rw [getEnd, if_pos hflag] at h
  exact lt_irrefl _ h

end ScoreBoardNode1

/-- The packets in nodes with a flag. -/
def count (f : SkbFlag) (l : List ScoreBoardNode1) : ℤ :=
  weight getStart getEnd (fun n => n.flag_ = f) l

variable {f : SkbFlag} {l l₁ l₂ rest pieces : List ScoreBoardNode1}

@[simp] theorem count_nil : count f [] = 0 := rfl

@[simp] theorem count_cons :
    count f (n :: l) = (if n.flag_ = f then n.getLength else 0) + count f l := by
  simp [count, getLength_eq]

@[simp] theorem count_append : count f (l₁ ++ l₂) = count f l₁ + count f l₂ := weight_append

@[simp] theorem count_reverse : count f l.reverse = count f l := weight_reverse

/-- The two parts of a node that is split. -/
theorem tiles_split (hlo : n.getStart < seq) (hhi : seq ≤ n.getEnd) :
    Tiles getStart getEnd n.getStart [n.front seq, n.back seq] (n.getEnd + 1) := by
  have hflag := n.ne_retransmitted (by omega)
  refine ⟨rfl, ?_, ?_, ?_, ?_⟩
  · rw [front_getEnd hflag, front_getStart]
    omega
  · rw [front_getEnd hflag, back_getStart]
    omega
  · rw [back_getEnd hflag, back_getStart]
    exact hhi
  · rw [back_getEnd hflag]
    rfl

theorem length_split (hlo : n.getStart < seq) (hhi : seq ≤ n.getEnd) :
    (n.front seq).getLength + (n.back seq).getLength = n.getLength := by
  have hflag := n.ne_retransmitted (by omega)
  rw [getLength_eq, getLength_eq, getLength_eq, front_getEnd hflag, back_getEnd hflag,
    front_getStart, back_getStart]
  omega

/-- The first lost node of a list. -/
def firstLost (l : List ScoreBoardNode1) : Option ℕ := l.findIdx? fun n => n.flag_ = .lost

theorem firstLost_append :
    firstLost (l₁ ++ l₂) = (firstLost l₁).or ((firstLost l₂).map (· + l₁.length)) :=
  List.findIdx?_append

theorem firstLost_snoc_lost (h : n.flag_ = .lost) :
    firstLost (l ++ [n]) = (firstLost l).or (some l.length) := by
  simp [firstLost, h]

theorem firstLost_snoc (h : n.flag_ ≠ .lost) : firstLost (l ++ [n]) = firstLost l := by
  simp [firstLost, h]

/-- Only the flags matter. -/
theorem firstLost_congr {m : ScoreBoardNode1} (h : m.flag_ = n.flag_) :
    firstLost (l ++ [m]) = firstLost (l ++ [n]) := by
  simp [firstLost, List.findIdx?_append, List.findIdx?_cons, h]

theorem firstLost_lt {i : ℕ} (h : firstLost l = some i) : i < l.length :=
  (List.findIdx?_eq_some_iff_getElem.mp h).1

namespace Pass

variable {p p' : Pass} {lo mid hi fack thr : ℤ}

/-- The SACK blocks that are not below `now`. -/
def skip (p : Pass) (now : ScoreBoardNode1) : Pass :=
  { p with sacks := p.sacks.dropWhile fun b => b.2 ≤ now.getStart }

/-- The first of the blocks that are left ends above the start of `now`. -/
theorem skip_head {b : ℤ × ℤ} {bs : List (ℤ × ℤ)} (h : (p.skip now).sacks = b :: bs) :
    now.getStart < b.2 := by
  have hhead := List.head?_dropWhile_not (fun b : ℤ × ℤ => decide (b.2 ≤ now.getStart)) p.sacks
  rw [show p.sacks.dropWhile (fun b : ℤ × ℤ => decide (b.2 ≤ now.getStart)) = b :: bs from h] at hhead
  simpa using hhead

/-- Without a SACK block left, the first half of a turn changes nothing. -/
theorem mark_of_nil (hafter : p.after = now :: rest) (hsacks : (p.skip now).sacks = []) :
    p.mark = p.skip now := by
  have hleft : (p.sacks.dropWhile fun b => b.2 ≤ now.getStart) = [] := hsacks
  simp only [mark, skip, hafter, hleft]

/-- Otherwise it compares `now` with the first block left. -/
theorem mark_of_cons {left right : ℤ} {bs : List (ℤ × ℤ)} (hafter : p.after = now :: rest)
    (hsacks : (p.skip now).sacks = (left, right) :: bs) :
    p.mark =
      if left ≤ now.getEnd then
        if left > now.getStart then
          { p.skip now with after := now.front left :: now.back left :: rest }
        else if right ≤ now.getEnd then
          (p.skip now).sacked (now.front right) (now.back right :: rest)
        else (p.skip now).sacked now rest
      else p.skip now := by
  have hleft : (p.sacks.dropWhile fun b => b.2 ≤ now.getStart) = (left, right) :: bs := hsacks
  simp only [mark, skip, hafter, hleft]

/-- What the first half of a turn does. -/
theorem mark_cases (hafter : p.after = now :: rest) :
    ((p.skip now).Uncovered now ∧ p.mark = p.skip now) ∨
    (∃ b bs, (p.skip now).sacks = b :: bs ∧ now.getStart < b.1 ∧ b.1 ≤ now.getEnd ∧
      p.mark = { p.skip now with after := now.front b.1 :: now.back b.1 :: rest }) ∨
    ∃ b bs, (p.skip now).sacks = b :: bs ∧ b.1 ≤ now.getStart ∧ now.getStart < b.2 ∧
      ((b.2 ≤ now.getEnd ∧
        p.mark = (p.skip now).sacked (now.front b.2) (now.back b.2 :: rest)) ∨
      (now.getEnd < b.2 ∧ p.mark = (p.skip now).sacked now rest)) := by
  rcases hsacks : (p.skip now).sacks with _ | ⟨⟨left, right⟩, bs⟩
  · left
    refine ⟨?_, mark_of_nil hafter hsacks⟩
    unfold Uncovered
    rw [hsacks]
    trivial
  · have hright := skip_head hsacks
    rw [mark_of_cons hafter hsacks]
    by_cases hend : left ≤ now.getEnd
    · right
      by_cases hstart : left > now.getStart
      · left
        exact ⟨_, _, rfl, hstart, hend, by simp only [if_pos hend, if_pos hstart]⟩
      · right
        refine ⟨_, _, rfl, not_lt.mp hstart, hright, ?_⟩
        by_cases hpart : right ≤ now.getEnd
        · exact Or.inl ⟨hpart, by simp only [if_pos hend, if_neg hstart, if_pos hpart]⟩
        · exact Or.inr ⟨not_le.mp hpart, by simp only [if_pos hend, if_neg hstart, if_neg hpart]⟩
    · left
      refine ⟨?_, by simp only [if_neg hend]⟩
      unfold Uncovered
      rw [hsacks]
      exact not_le.mp hend

end Pass

/-- The traversal takes the first packet of the node for lost. -/
def ScoreBoardNode1.Gone (fack thr acked_rtx_id : ℤ) (n : ScoreBoardNode1) : Prop :=
  match n.flag_ with
  | .retransmitted => n.nxt_ ≤ fack ∨ n.retran_ + thr + 1 < acked_rtx_id
  | .inflight => n.getStart ≤ fack - (thr + 1)
  | .lost => True
  | .sacked => False

namespace Pass

variable {p p' : Pass} {lo mid hi fack thr : ℤ}

/-- What the second half of a turn does. -/
theorem judge_cases (fack thr : ℤ) (hafter : p.after = now :: rest) (hcov : p.Uncovered now) :
    (now.flag_ = .lost ∧ p.judge fack thr = p.point) ∨
    (now.flag_ ≠ .lost ∧ now.flag_ ≠ .sacked ∧ now.Gone fack thr p.acked_rtx_id_ ∧
      p.judge fack thr = p.lose now rest) ∨
    (now.flag_ = .inflight ∧ now.Gone fack thr p.acked_rtx_id_ ∧ fack - (thr + 1) < now.getEnd ∧
      p.judge fack thr = p.lose (now.front (fack - (thr + 1) + 1))
        (now.back (fack - (thr + 1) + 1) :: rest)) ∨
    (¬ now.Gone fack thr p.acked_rtx_id_ ∧ p.judge fack thr = p) := by
  unfold judge
  rw [hafter]
  simp only [if_pos hcov]
  unfold Gone
  cases hflag : now.flag_ with
  | lost => exact Or.inl ⟨rfl, rfl⟩
  | sacked => exact Or.inr (Or.inr (Or.inr ⟨id, rfl⟩))
  | retransmitted =>
    by_cases hlost : now.nxt_ ≤ fack ∨ now.retran_ + thr + 1 < p.acked_rtx_id_
    · exact Or.inr (Or.inl ⟨by simp, by simp, hlost, if_pos hlost⟩)
    · exact Or.inr (Or.inr (Or.inr ⟨hlost, if_neg hlost⟩))
  | inflight =>
    by_cases hlost : now.getStart ≤ fack - (thr + 1)
    · by_cases hpart : fack - (thr + 1) < now.getEnd
      · exact Or.inr (Or.inr (Or.inl ⟨rfl, hlost, hpart, by
          simp only [if_pos hlost, if_pos hpart]⟩))
      · exact Or.inr (Or.inl ⟨by simp, by simp, hlost, by simp only [if_pos hlost, if_neg hpart]⟩)
    · exact Or.inr (Or.inr (Or.inr ⟨hlost, if_neg hlost⟩))

theorem judge_of_covered (hafter : p.after = now :: rest) (hcov : ¬ p.Uncovered now) :
    p.judge fack thr = p := by
  unfold judge
  rw [hafter]
  exact if_neg hcov

/-! ## Pieces of a node -/

/-- `now` is replaced by pieces of it; the counters follow. -/
structure Rewritten (p p' : Pass) (now : ScoreBoardNode1) (rest pieces : List ScoreBoardNode1) :
    Prop where
  /-- The nodes before `now` stay. -/
  before : p'.before = p.before
  /-- The nodes, before. -/
  after : p.after = now :: rest
  /-- The nodes, afterwards. -/
  after' : p'.after = pieces ++ rest
  /-- The pieces make up the node. -/
  tiled : Tiles getStart getEnd now.getStart pieces (now.getEnd + 1)
  /-- The packets acknowledged by SACK blocks. -/
  sack_out : p'.sack_out_ + count .sacked [now] = p.sack_out_ + count .sacked pieces
  /-- The lost packets. -/
  fack_out : p'.fack_out_ + count .lost [now] = p.fack_out_ + count .lost pieces

theorem tiles_self (hne : now.getStart ≤ now.getEnd) :
    Tiles getStart getEnd now.getStart [now] (now.getEnd + 1) := ⟨rfl, hne, rfl⟩

/-- A node is flagged as acknowledged by a SACK block. -/
theorem rewritten_sacked (hafter : p.after = now :: rest) (hne : now.getStart ≤ now.getEnd)
    (hflag : now.flag_ ≠ .sacked) :
    Rewritten p (p.sacked now rest) now rest [now.setFlag .sacked] := by
  refine ⟨rfl, hafter, rfl, ?_, ?_, ?_⟩
  · exact ⟨rfl, by rwa [setFlag_getEnd (by decide)], by rw [setFlag_getEnd (by decide)]; rfl⟩
  · simp [sacked, hflag, getLength_eq, setFlag_getEnd]
  · by_cases hlost : now.flag_ = .lost <;> simp [sacked, hlost]

/-- A part of a node is flagged as acknowledged by a SACK block. -/
theorem rewritten_sacked_front (hafter : p.after = now :: rest) (hflag : now.flag_ ≠ .sacked)
    (hlo : now.getStart < seq) (hhi : seq ≤ now.getEnd) :
    Rewritten p (p.sacked (now.front seq) (now.back seq :: rest)) now rest
      [(now.front seq).setFlag .sacked, now.back seq] := by
  have htiles := tiles_split hlo hhi
  have hlength := length_split hlo hhi
  refine ⟨rfl, hafter, rfl, ?_, ?_, ?_⟩
  · refine ⟨rfl, ?_, ?_⟩
    · rw [setFlag_getEnd (by decide)]
      exact htiles.2.1
    · rw [setFlag_getEnd (by decide)]
      exact htiles.2.2
  · simp [sacked, hflag, getLength_eq, setFlag_getEnd]
  · by_cases hlost : now.flag_ = .lost
    · simp [sacked, hlost]
      omega
    · simp [sacked, hlost]

/-- A node is split in two. -/
theorem rewritten_split (hafter : p.after = now :: rest) (hlo : now.getStart < seq)
    (hhi : seq ≤ now.getEnd) :
    Rewritten p { p with after := now.front seq :: now.back seq :: rest } now rest
      [now.front seq, now.back seq] := by
  have hlength := length_split hlo hhi
  refine ⟨rfl, hafter, rfl, tiles_split hlo hhi, ?_, ?_⟩
  · by_cases hflag : now.flag_ = .sacked
    · simp [hflag]
      omega
    · simp [hflag]
  · by_cases hflag : now.flag_ = .lost
    · simp [hflag]
      omega
    · simp [hflag]

/-- A node is flagged as lost. -/
theorem rewritten_lose (hafter : p.after = now :: rest) (hne : now.getStart ≤ now.getEnd)
    (hlost : now.flag_ ≠ .lost) (hsacked : now.flag_ ≠ .sacked) :
    Rewritten p (p.lose now rest) now rest [now.setFlag .lost] := by
  refine ⟨rfl, hafter, rfl, ?_, ?_, ?_⟩
  · exact ⟨rfl, by rwa [setFlag_getEnd (by decide)], by rw [setFlag_getEnd (by decide)]; rfl⟩
  · simp [lose, point, hsacked]
  · simp [lose, point, hlost, getLength_eq, setFlag_getEnd]

/-- A part of a node is flagged as lost. -/
theorem rewritten_lose_front (hafter : p.after = now :: rest) (hflag : now.flag_ = .inflight)
    (hlo : now.getStart < seq) (hhi : seq ≤ now.getEnd) :
    Rewritten p (p.lose (now.front seq) (now.back seq :: rest)) now rest
      [(now.front seq).setFlag .lost, now.back seq] := by
  have htiles := tiles_split hlo hhi
  refine ⟨rfl, hafter, rfl, ?_, ?_, ?_⟩
  · refine ⟨rfl, ?_, ?_⟩
    · rw [setFlag_getEnd (by decide)]
      exact htiles.2.1
    · rw [setFlag_getEnd (by decide)]
      exact htiles.2.2
  · simp [lose, point, hflag]
  · simp [lose, point, hflag, getLength_eq, setFlag_getEnd]

/-! ## The invariant -/

/-- The nodes tile `[lo, hi)`, with `now` at `mid`, and the counters are exact. -/
structure Counted (lo mid hi : ℤ) (p : Pass) : Prop where
  /-- The nodes before `now`. -/
  before : Tiles getStart getEnd lo p.before.reverse mid
  /-- The nodes from `now` on. -/
  after : Tiles getStart getEnd mid p.after hi
  /-- The packets acknowledged by SACK blocks. -/
  sack_out : p.sack_out_ = count .sacked p.before + count .sacked p.after
  /-- The lost packets. -/
  fack_out : p.fack_out_ = count .lost p.before + count .lost p.after

theorem Rewritten.counted (h : Rewritten p p' now rest pieces) (hc : Counted lo mid hi p) :
    Counted lo mid hi p' := by
  obtain ⟨hmid, hne, hrest⟩ := h.after ▸ hc.after
  have hsack := hc.sack_out
  have hfack := hc.fack_out
  have hsack' := h.sack_out
  have hfack' := h.fack_out
  rw [h.after, count_cons] at hsack hfack
  simp only [count_cons, count_nil] at hsack' hfack'
  refine ⟨h.before ▸ hc.before, ?_, ?_, ?_⟩
  · rw [h.after', ← hmid]
    exact h.tiled.append hrest
  · rw [h.before, h.after', count_append]
    omega
  · rw [h.before, h.after', count_append]
    omega

theorem Counted.point (h : Counted lo mid hi p) : Counted lo mid hi p.point :=
  ⟨h.before, h.after, h.sack_out, h.fack_out⟩

theorem Counted.skip (h : Counted lo mid hi p) : Counted lo mid hi (p.skip now) :=
  ⟨h.before, h.after, h.sack_out, h.fack_out⟩

theorem uncovered_cons {b : ℤ × ℤ} {bs : List (ℤ × ℤ)} (h : p.sacks = b :: bs) :
    p.Uncovered now ↔ b.1 > now.getEnd := by
  unfold Uncovered
  rw [h]

/-- After the first half of a turn, `now` is acknowledged, or no SACK block meets it. -/
theorem mark_spec (hc : Counted lo mid hi p) (hafter : p.after = now :: rest)
    (hflag : now.flag_ ≠ .sacked) :
    Counted lo mid hi p.mark ∧ p.mark.before = p.before ∧
      p.mark.nxt_to_retrx_ = p.nxt_to_retrx_ ∧
      ∃ now' rest', p.mark.after = now' :: rest' ∧
        (now'.flag_ ≠ .sacked → p.mark.Uncovered now') := by
  have hskip : (p.skip now).after = now :: rest := hafter
  have hne : now.getStart ≤ now.getEnd := (hafter ▸ hc.after).2.1
  rcases mark_cases hafter with ⟨hcov, heq⟩ | ⟨b, bs, hsacks, hlo, hhi, heq⟩ |
    ⟨b, bs, -, -, hlo, ⟨hhi, heq⟩ | ⟨-, heq⟩⟩ <;> rw [heq]
  · exact ⟨hc.skip, rfl, rfl, now, rest, hskip, fun _ => hcov⟩
  · refine ⟨(rewritten_split hskip hlo hhi).counted hc.skip, rfl, rfl, _, _, rfl, fun _ => ?_⟩
    refine (uncovered_cons hsacks).mpr ?_
    rw [front_getEnd (now.ne_retransmitted (by omega))]
    omega
  · exact ⟨(rewritten_sacked_front hskip hflag hlo hhi).counted hc.skip, rfl, rfl, _, _, rfl,
      fun h => absurd rfl h⟩
  · exact ⟨(rewritten_sacked hskip hne hflag).counted hc.skip, rfl, rfl, _, _, rfl,
      fun h => absurd rfl h⟩

theorem point_next (hnext : p.nxt_to_retrx_ = firstLost p.before.reverse) (hlost : n.flag_ = .lost) :
    p.point.nxt_to_retrx_ = firstLost (p.before.reverse ++ [n]) := by
  rw [firstLost_snoc_lost hlost, ← hnext, List.length_reverse]
  show (if p.nxt_to_retrx_ = none then some p.before.length else p.nxt_to_retrx_) = _
  cases p.nxt_to_retrx_ <;> rfl

/-- After the second half of a turn, the pointer is right for `now`, too. -/
theorem judge_spec (fack thr : ℤ) (hc : Counted lo mid hi p) (hafter : p.after = now :: rest)
    (hcov : now.flag_ ≠ .sacked → p.Uncovered now)
    (hnext : p.nxt_to_retrx_ = firstLost p.before.reverse) :
    Counted lo mid hi (p.judge fack thr) ∧ (p.judge fack thr).before = p.before ∧
      ∃ now' rest', (p.judge fack thr).after = now' :: rest' ∧
        (p.judge fack thr).nxt_to_retrx_ = firstLost (p.before.reverse ++ [now']) := by
  have hne : now.getStart ≤ now.getEnd := (hafter ▸ hc.after).2.1
  by_cases hu : p.Uncovered now
  · rcases judge_cases fack thr hafter hu with ⟨hlost, heq⟩ |
      ⟨hlost, hsacked, -, heq⟩ | ⟨hflag, hgone, hend, heq⟩ | ⟨hgone, heq⟩ <;> rw [heq]
    · exact ⟨hc.point, rfl, now, rest, hafter, point_next hnext hlost⟩
    · exact ⟨(rewritten_lose hafter hne hlost hsacked).counted hc, rfl, _, _, rfl,
        point_next hnext rfl⟩
    · unfold Gone at hgone
      rw [hflag] at hgone
      exact ⟨(rewritten_lose_front hafter hflag (Int.lt_add_one_of_le hgone) hend).counted hc, rfl,
        _, _, rfl, point_next hnext rfl⟩
    · refine ⟨hc, rfl, now, rest, hafter, ?_⟩
      rw [firstLost_snoc, hnext]
      intro hlost
      apply hgone
      unfold Gone
      rw [hlost]
      trivial
  · rw [judge_of_covered hafter hu]
    refine ⟨hc, rfl, now, rest, hafter, ?_⟩
    have hsacked : now.flag_ = .sacked := by
      by_contra h
      exact hu (hcov h)
    rw [firstLost_snoc (by rw [hsacked]; decide), hnext]

/-- The invariant of the loop. -/
structure Good (lo mid hi : ℤ) (p : Pass) : Prop extends Counted lo mid hi p where
  /-- The node to retransmit from is the first lost one among those passed. -/
  next : p.nxt_to_retrx_ = firstLost p.before.reverse

/-- What is put at the end of the list. -/
def extension (fack : ℤ) (prev : ScoreBoardNode1) (rest : List ScoreBoardNode1) :
    List ScoreBoardNode1 :=
  if rest = [] ∧ prev.getEnd < fack then [.new (prev.getEnd + 1) fack .inflight] else rest

theorem count_extension (h : f ≠ .inflight) :
    count f (extension fack prev rest) = count f rest := by
  unfold extension
  split
  · rename_i hrest
    rw [hrest.1, count_cons, if_neg fun heq => h heq.symm]
    rfl
  · rfl

theorem tiles_extension (fack : ℤ) (h : Tiles getStart getEnd (prev.getEnd + 1) rest hi) :
    ∃ hi', Tiles getStart getEnd (prev.getEnd + 1) (extension fack prev rest) hi' ∧
      hi ≤ hi' ∧ hi' ≤ max hi (fack + 1) ∧ (extension fack prev rest = [] → fack < hi') ∧
      (extension fack prev rest).length + (if hi' ≤ fack then 1 else 0) ≤
        rest.length + if hi ≤ fack then 1 else 0 := by
  unfold extension
  split
  · rename_i hrest
    obtain ⟨rfl, hfack⟩ := hrest
    obtain rfl : prev.getEnd + 1 = hi := h
    refine ⟨fack + 1, ⟨rfl, hfack, rfl⟩, by omega, le_max_right _ _,
      fun hnil => absurd hnil (by simp), ?_⟩
    rw [if_neg (by omega), if_pos (by omega)]
    rfl
  · rename_i hrest
    refine ⟨hi, h, le_rfl, le_max_left _ _, fun hnil => ?_, le_rfl⟩
    subst hnil
    have hhi : prev.getEnd + 1 = hi := h
    have : ¬ prev.getEnd < fack := fun hlt => hrest ⟨rfl, hlt⟩
    omega

/-- `now` becomes the last node passed, if it is not merged. -/
theorem advance_of_not_merged (hafter : p.after = now :: rest)
    (hnot : ∀ prev bs, p.before = prev :: bs → ¬ prev.Mergable now) :
    p.advance fack =
      some { p with before := now :: p.before, after := extension fack now rest } := by
  obtain ⟨before, after, sacks, thorough, nxt, acked, fack_out, sack_out, flag⟩ := p
  obtain rfl : after = now :: rest := hafter
  cases before with
  | nil => rfl
  | cons prev bs => exact if_neg (hnot prev bs rfl)

theorem advance_passed (hc : Counted lo mid hi p) (hafter : p.after = now :: rest)
    (hnext : p.nxt_to_retrx_ = firstLost (p.before.reverse ++ [now]))
    (hnot : ∀ prev bs, p.before = prev :: bs → ¬ prev.Mergable now) :
    ∃ p' mid' hi', p.advance fack = some p' ∧ Good lo mid' hi' p' ∧ mid < mid' ∧
      hi ≤ hi' ∧ hi' ≤ max hi (fack + 1) ∧ (p'.after = [] → fack < hi') := by
  obtain ⟨hmid, hne, hrest⟩ := hafter ▸ hc.after
  have hsack := hc.sack_out
  have hfack := hc.fack_out
  rw [hafter, count_cons] at hsack hfack
  obtain ⟨hi', htiles, hle', hmax, hnil, -⟩ := tiles_extension fack hrest
  refine ⟨_, _, hi', advance_of_not_merged hafter hnot, ⟨⟨?_, htiles, ?_, ?_⟩, ?_⟩, by omega, hle',
    hmax, hnil⟩
  · rw [List.reverse_cons]
    exact hc.before.append ⟨hmid, hne, rfl⟩
  · show p.sack_out_ = _
    rw [count_extension (by decide), count_cons]
    omega
  · show p.fack_out_ = _
    rw [count_extension (by decide), count_cons]
    omega
  · rw [List.reverse_cons]
    exact hnext

/-- A node merged with the one before it does not change which one is the first lost one. -/
theorem firstLost_merge {bs : List ScoreBoardNode1} (hmerge : prev.Mergable now) :
    firstLost (bs.reverse ++ [prev.merge now]) = firstLost ((prev :: bs).reverse ++ [now]) := by
  have hcongr : firstLost (bs.reverse ++ [prev.merge now]) = firstLost (bs.reverse ++ [prev]) :=
    firstLost_congr rfl
  rw [List.reverse_cons, hcongr]
  by_cases hlost : prev.flag_ = .lost
  · rw [firstLost_snoc_lost (hmerge.2.trans hlost), firstLost_snoc_lost hlost]
    cases firstLost bs.reverse <;> rfl
  · rw [firstLost_snoc fun h => hlost (hmerge.2.symm.trans h)]

/-- `now` is merged with the last node passed; the two have the same flag, so the pointer is not at
`now`. -/
theorem advance_merged {bs : List ScoreBoardNode1} (hc : Counted lo mid hi p)
    (hafter : p.after = now :: rest)
    (hnext : p.nxt_to_retrx_ = firstLost (p.before.reverse ++ [now]))
    (hbefore : p.before = prev :: bs) (hmerge : prev.Mergable now) :
    ∃ p' mid' hi', p.advance fack = some p' ∧ Good lo mid' hi' p' ∧ mid < mid' ∧
      hi ≤ hi' ∧ hi' ≤ max hi (fack + 1) ∧ (p'.after = [] → fack < hi') := by
  obtain ⟨hmid, hne, hrest⟩ := hafter ▸ hc.after
  have hsack := hc.sack_out
  have hfack := hc.fack_out
  rw [hafter, count_cons, hbefore] at hsack hfack
  have hnext' : p.nxt_to_retrx_ = firstLost (bs.reverse ++ [prev.merge now]) := by
    rw [hnext, hbefore, firstLost_merge hmerge]
  have hpointer : p.nxt_to_retrx_ ≠ some p.before.length := by
    intro heq
    have hlt := firstLost_lt (hnext'.symm.trans heq)
    rw [hbefore] at hlt
    simp at hlt
  have hadv : p.advance fack =
      some { p with before := prev.merge now :: bs,
                    after := extension fack (prev.merge now) rest } := by
    obtain ⟨before, after, sacks, thorough, nxt, acked, fack_out, sack_out, flag⟩ := p
    obtain rfl : after = now :: rest := hafter
    obtain rfl : before = prev :: bs := hbefore
    exact (if_pos hmerge).trans (if_neg hpointer)
  have hend := merge_getEnd hmerge
  obtain ⟨hi', htiles, hle', hmax, hnil, -⟩ := tiles_extension fack
    (show Tiles getStart getEnd ((prev.merge now).getEnd + 1) rest hi from hend.symm ▸ hrest)
  have hold := hc.before
  rw [hbefore, List.reverse_cons] at hold
  obtain ⟨m, hbs, hm, hle, hprev⟩ := tiles_append.mp hold
  have hprev' : prev.getEnd + 1 = mid := hprev
  have hlength : (prev.merge now).getLength = prev.getLength + now.getLength := by
    rw [getLength_eq, getLength_eq, getLength_eq, hend, merge_getStart]
    omega
  refine ⟨_, _, hi', hadv, ⟨⟨?_, htiles, ?_, ?_⟩, ?_⟩, by omega, hle', hmax, hnil⟩
  · rw [List.reverse_cons]
    refine hbs.append ⟨hm, ?_, rfl⟩
    rw [hend, merge_getStart]
    omega
  · show p.sack_out_ = _
    rw [count_extension (by decide), count_cons, merge_flag_, hlength]
    rw [count_cons, hmerge.2] at hsack
    split_ifs at hsack ⊢ <;> omega
  · show p.fack_out_ = _
    rw [count_extension (by decide), count_cons, merge_flag_, hlength]
    rw [count_cons, hmerge.2] at hfack
    split_ifs at hfack ⊢ <;> omega
  · rw [List.reverse_cons]
    exact hnext'

/-- The end of a turn. -/
theorem advance_spec (hc : Counted lo mid hi p) (hafter : p.after = now :: rest)
    (hnext : p.nxt_to_retrx_ = firstLost (p.before.reverse ++ [now])) :
    ∃ p' mid' hi', p.advance fack = some p' ∧ Good lo mid' hi' p' ∧ mid < mid' ∧
      hi ≤ hi' ∧ hi' ≤ max hi (fack + 1) ∧ (p'.after = [] → fack < hi') := by
  by_cases hmerge : ∃ prev bs, p.before = prev :: bs ∧ prev.Mergable now
  · obtain ⟨prev, bs, hbefore, hmerge⟩ := hmerge
    exact advance_merged hc hafter hnext hbefore hmerge
  · exact advance_passed hc hafter hnext fun prev bs hbefore h => hmerge ⟨prev, bs, hbefore, h⟩

/-- The two halves of a turn. -/
theorem halves_spec (fack thr : ℤ) (h : Good lo mid hi p) (hafter : p.after = now :: rest)
    (hflag : now.flag_ ≠ .sacked) :
    Counted lo mid hi (p.mark.judge fack thr) ∧
      ∃ now' rest', (p.mark.judge fack thr).after = now' :: rest' ∧
        (p.mark.judge fack thr).nxt_to_retrx_ =
          firstLost ((p.mark.judge fack thr).before.reverse ++ [now']) := by
  obtain ⟨hc₁, hbefore₁, hnext₁, now₁, rest₁, hafter₁, hcov⟩ := mark_spec h.toCounted hafter hflag
  have hnext : p.mark.nxt_to_retrx_ = firstLost p.mark.before.reverse := by
    rw [hnext₁, hbefore₁]
    exact h.next
  obtain ⟨hc₂, hbefore₂, now₂, rest₂, hafter₂, hnext₂⟩ :=
    judge_spec fack thr hc₁ hafter₁ hcov hnext
  exact ⟨hc₂, now₂, rest₂, hafter₂, by rw [hnext₂, hbefore₂]⟩

/-- A turn keeps the invariant, and leaves a packet behind. -/
theorem turn_good (fack thr : ℤ) (h : Good lo mid hi p) (hne : p.after ≠ []) :
    ∃ p' mid' hi', p.turn fack thr = some p' ∧ Good lo mid' hi' p' ∧ mid < mid' ∧
      hi ≤ hi' ∧ hi' ≤ max hi (fack + 1) ∧ (p'.after = [] → fack < hi') := by
  obtain ⟨now, rest, hafter⟩ := List.exists_cons_of_ne_nil hne
  by_cases hflag : now.flag_ = .sacked
  · have hturn : p.turn fack thr = p.advance fack := by
      unfold turn
      rw [hafter]
      exact if_neg fun h' => h' hflag
    rw [hturn]
    refine advance_spec h.toCounted hafter ?_
    rw [firstLost_snoc (by rw [hflag]; decide), h.next]
  · have hturn : p.turn fack thr = (p.mark.judge fack thr).advance fack := by
      unfold turn
      rw [hafter]
      exact if_pos hflag
    obtain ⟨hc, now', rest', hafter', hnext⟩ := halves_spec fack thr h hafter hflag
    rw [hturn]
    exact advance_spec hc hafter' hnext

/-- The loop ends: every turn leaves a packet behind. -/
theorem loop_good (fack thr : ℤ) (fuel : ℕ) (h : Good lo mid hi p) (hend : p.after = [] → fack < hi)
    (hfuel : max hi (fack + 1) < mid + fuel) :
    ∃ p' mid' hi', p.loop fack thr fuel = some p' ∧ Good lo mid' hi' p' ∧
      hi ≤ hi' ∧ hi' ≤ max hi (fack + 1) ∧ (p'.after = [] → fack < hi') ∧
      (p'.after = [] ∨ p'.sacks = [] ∧ p'.thorough = false) := by
  induction fuel generalizing p mid hi with
  | zero =>
    have hle := h.after.le
    have hmax := le_max_left hi (fack + 1)
    push_cast at hfuel
    omega
  | succ fuel ih =>
    unfold loop
    by_cases hgo : p.after ≠ [] ∧ (p.sacks ≠ [] ∨ p.thorough)
    · obtain ⟨p₁, mid₁, hi₁, hturn, h₁, hlt, hle, hmax, hend₁⟩ := turn_good fack thr h hgo.1
      rw [if_pos hgo, hturn, Option.bind_some]
      push_cast at hfuel
      obtain ⟨p', mid', hi', hrun, h', hle', hmax', hstop⟩ := ih h₁ hend₁ (by omega)
      exact ⟨p', mid', hi', hrun, h', hle.trans hle', by omega, hstop⟩
    · rw [if_neg hgo]
      refine ⟨p, mid, hi, rfl, h, le_rfl, le_max_left _ _, hend, ?_⟩
      by_cases hafter : p.after = []
      · exact Or.inl hafter
      · right
        by_cases hsacks : p.sacks = []
        · exact ⟨hsacks, Bool.eq_false_iff.mpr fun ht => hgo ⟨hafter, Or.inr ht⟩⟩
        · exact absurd ⟨hafter, Or.inl hsacks⟩ hgo

/-! ## All nodes are looked at -/

theorem mark_thorough (h : p.thorough = true) : p.mark.thorough = true := by
  unfold mark
  split
  · exact h
  · simp only
    split
    · exact h
    · split_ifs <;> simp [sacked, h]

theorem judge_thorough : (p.judge fack thr).thorough = p.thorough := by
  unfold judge
  split
  · rfl
  · split
    · split
      · split <;> rfl
      · simp only
        split_ifs <;> rfl
      · rfl
      · rfl
    · rfl

theorem advance_thorough (h : p.advance fack = some p') : p'.thorough = p.thorough := by
  unfold advance at h
  simp only at h
  split at h
  · rw [← Option.some.inj h]
  · rw [← Option.some.inj h]
  · split_ifs at h <;> rw [← Option.some.inj h]

theorem turn_thorough (h : p.turn fack thr = some p') (hp : p.thorough = true) :
    p'.thorough = true := by
  unfold turn at h
  split at h
  · exact Option.some.inj h ▸ hp
  · split at h
    · rw [advance_thorough h, judge_thorough]
      exact mark_thorough hp
    · rw [advance_thorough h, hp]

theorem loop_thorough {fuel : ℕ} (h : p.loop fack thr fuel = some p') (hp : p.thorough = true) :
    p'.thorough = true := by
  induction fuel generalizing p with
  | zero => cases h
  | succ fuel ih =>
    unfold loop at h
    split at h
    · obtain ⟨p₁, hturn, hloop⟩ := Option.bind_eq_some_iff.mp h
      exact ih hloop (turn_thorough hturn hp)
    · exact Option.some.inj h ▸ hp

end Pass

end Ns2.Linux
