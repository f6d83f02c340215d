import Ns2.Linux.ScoreBoardRun

/-!
# The next packet to be retransmitted

Does `GetNextRetran` find the first lost packet after `UpdateScoreBoard`?  The traversal forgets
the pointer, and stops early when the SACK blocks are used up.

* `Remembers` — `GetNextRetran` returns the first lost packet.
* `LostAt`, `Turns`, `GoesOn`, `Found`, `Missed` — what a traversal that stops early looks at.
* `loop_found` — such a traversal finds a lost packet exactly if there is one to be found.
* `Kept` — the condition on the state and on the call.
* `updateScoreBoard_remembers_iff` — the condition is exact.
-/

namespace Ns2.Linux

open Tiling ScoreBoardNode1

/-- The SACK blocks, sorted by their left edges. -/
def SortedSacks (sacks : List (ℤ × ℤ)) : Prop := sacks.Pairwise fun b c => b.1 ≤ c.1

/-- A SACK block reports the packet. -/
def Covered (sacks : List (ℤ × ℤ)) (p : ℤ) : Prop := ∃ b ∈ sacks, b.1 ≤ p ∧ p < b.2

/-- The traversal takes packet `p` of the node for lost, if no SACK block reports it. -/
def ScoreBoardNode1.LostAt (fack thr acked_rtx_id : ℤ) (n : ScoreBoardNode1) (p : ℤ) : Prop :=
  match n.flag_ with
  | .retransmitted => n.nxt_ ≤ fack ∨ n.retran_ + thr + 1 < acked_rtx_id
  | .inflight => p ≤ fack - (thr + 1)
  | .lost => True
  | .sacked => False

/-- A packet of the node is lost, or will be. -/
def Turns (fack thr acked_rtx_id : ℤ) (sacks : List (ℤ × ℤ)) (n : ScoreBoardNode1) : Prop :=
  ∃ p, n.getStart ≤ p ∧ p ≤ n.getEnd ∧ ¬ Covered sacks p ∧ n.LostAt fack thr acked_rtx_id p

/-- The SACK blocks are not used up at the node. -/
def GoesOn (sacks : List (ℤ × ℤ)) (n : ScoreBoardNode1) : Prop :=
  n.flag_ = .sacked ∨ ∃ b ∈ sacks, n.getEnd < b.2

/-- A traversal that stops when the SACK blocks are used up finds a lost packet. -/
def Found (turns : ScoreBoardNode1 → Prop) (sacks : List (ℤ × ℤ)) : List ScoreBoardNode1 → Prop
  | [] => False
  | n :: l => turns n ∨ GoesOn sacks n ∧ Found turns sacks l

/-- There is a lost node that such a traversal does not look at. -/
def Missed (sacks : List (ℤ × ℤ)) : List ScoreBoardNode1 → Prop
  | [] => False
  | n :: l => GoesOn sacks n ∧ Missed sacks l ∨ ¬ GoesOn sacks n ∧ ∃ m ∈ l, m.flag_ = .lost

variable {n now : ScoreBoardNode1} {l rest : List ScoreBoardNode1} {sacks sacks' : List (ℤ × ℤ)}
  {fack thr acked lo mid hi x : ℤ}

/-! ## Blocks that are passed -/

/-- The blocks that reach above `x` are the same. -/
def SameAbove (x : ℤ) (sacks sacks' : List (ℤ × ℤ)) : Prop :=
  (∀ b ∈ sacks', b ∈ sacks) ∧ ∀ b ∈ sacks, b ∈ sacks' ∨ b.2 ≤ x

theorem SameAbove.covered (h : SameAbove x sacks sacks') {p : ℤ} (hp : x ≤ p) :
    Covered sacks p ↔ Covered sacks' p := by
  constructor
  · rintro ⟨b, hb, hle, hlt⟩
    rcases h.2 b hb with hb' | hx
    · exact ⟨b, hb', hle, hlt⟩
    · omega
  · rintro ⟨b, hb, hp⟩
    exact ⟨b, h.1 b hb, hp⟩

theorem SameAbove.turns (h : SameAbove x sacks sacks') (hx : x ≤ n.getStart) :
    Turns fack thr acked sacks n ↔ Turns fack thr acked sacks' n := by
  refine exists_congr fun p => and_congr_right fun hp => ?_
  rw [h.covered (hx.trans hp)]

theorem SameAbove.goesOn (h : SameAbove x sacks sacks') (hx : x ≤ n.getEnd) :
    GoesOn sacks n ↔ GoesOn sacks' n := by
  refine or_congr_right ⟨?_, ?_⟩
  · rintro ⟨b, hb, hlt⟩
    rcases h.2 b hb with hb' | hle
    · exact ⟨b, hb', hlt⟩
    · omega
  · rintro ⟨b, hb, hlt⟩
    exact ⟨b, h.1 b hb, hlt⟩

theorem SameAbove.found (fack thr acked : ℤ) (h : SameAbove x sacks sacks') (hl : Tiles getStart getEnd lo l hi)
    (hx : x ≤ lo) :
    Found (Turns fack thr acked sacks) sacks l ↔
      Found (Turns fack thr acked sacks') sacks' l := by
  induction l generalizing lo with
  | nil => exact Iff.rfl
  | cons n l ih =>
    obtain ⟨hlo, hne, hl⟩ := hl
    exact or_congr (h.turns (by omega)) (and_congr (h.goesOn (by omega)) (ih hl (by omega)))

theorem SameAbove.missed (h : SameAbove x sacks sacks') (hl : Tiles getStart getEnd lo l hi)
    (hx : x ≤ lo) : Missed sacks l ↔ Missed sacks' l := by
  induction l generalizing lo with
  | nil => exact Iff.rfl
  | cons n l ih =>
    obtain ⟨hlo, hne, hl⟩ := hl
    have hgoes := h.goesOn (n := n) (by omega)
    exact or_congr (and_congr hgoes (ih hl (by omega))) (and_congr_left' (not_congr hgoes))

/-- The blocks that a turn skips. -/
theorem sameAbove_dropWhile (sacks : List (ℤ × ℤ)) (x : ℤ) :
    SameAbove x sacks (sacks.dropWhile fun b => b.2 ≤ x) := by
  refine ⟨fun b hb => (List.dropWhile_sublist _).subset hb, fun b hb => ?_⟩
  rw [← List.takeWhile_append_dropWhile (p := fun b : ℤ × ℤ => decide (b.2 ≤ x)) (l := sacks)] at hb
  rcases List.mem_append.mp hb with htake | hdrop
  · exact Or.inr (by simpa using List.mem_takeWhile_imp htake)
  · exact Or.inl hdrop

/-- Below the first of the blocks no packet is reported. -/
theorem not_covered_of_lt {b : ℤ × ℤ} {bs : List (ℤ × ℤ)} (hsorted : SortedSacks (b :: bs)) {p : ℤ}
    (hp : p < b.1) : ¬ Covered (b :: bs) p := by
  rintro ⟨c, hc, hle, -⟩
  rcases List.mem_cons.mp hc with rfl | hc
  · omega
  · have := (List.pairwise_cons.mp hsorted).1 c hc
    omega

namespace Pass

variable {p p' p₁ : Pass}

/-! ## One turn -/

/-- The end of a turn does not touch the nodes that come after, and not the rest of the state. -/
theorem advance_frame (hafter : p.after = now :: rest) (hend : rest = [] → fack ≤ now.getEnd)
    (h : p.advance fack = some p') :
    p'.after = rest ∧ p'.sacks = p.sacks ∧ p'.thorough = p.thorough ∧
      p'.nxt_to_retrx_ = p.nxt_to_retrx_ ∧ p'.acked_rtx_id_ = p.acked_rtx_id_ := by
  have hextend {prev : ScoreBoardNode1} (hprev : prev.getEnd = now.getEnd) :
      (if rest = [] ∧ prev.getEnd < fack then
        [ScoreBoardNode1.new (prev.getEnd + 1) fack .inflight] else rest) = rest :=
    if_neg fun hnil => by
      have := hend hnil.1
      omega
  unfold advance at h
  rw [hafter] at h
  simp only at h
  split at h
  · rename_i heq
    cases heq
  · rename_i heq _
    obtain ⟨rfl, rfl⟩ := List.cons.inj heq
    rw [← Option.some.inj h]
    exact ⟨hextend rfl, rfl, rfl, rfl, rfl⟩
  · rename_i heq _
    obtain ⟨rfl, rfl⟩ := List.cons.inj heq
    split at h
    · rename_i hmerge
      split at h
      · cases h
      · rw [← Option.some.inj h]
        exact ⟨hextend (merge_getEnd hmerge), rfl, rfl, rfl, rfl⟩
    · rw [← Option.some.inj h]
      exact ⟨hextend rfl, rfl, rfl, rfl, rfl⟩

/-- A traversal that has no reason to look at all nodes. -/
structure Early (fack acked lo mid hi : ℤ) (p : Pass) : Prop extends Good lo mid hi p where
  /-- The nodes reach as far as the SACK blocks. -/
  fack_lt : fack < hi
  /-- The SACK blocks are sorted. -/
  sorted : SortedSacks p.sacks
  /-- The SACK blocks are not empty. -/
  proper : ∀ b ∈ p.sacks, b.1 < b.2
  /-- There was no reason. -/
  thorough : p.thorough = false
  /-- The newest retransmission acknowledged. -/
  acked : p.acked_rtx_id_ = acked
  /-- There will be none: no retransmitted packet is reported. -/
  fresh : ∀ n ∈ p.after, n.flag_ = .retransmitted → ¬ Covered p.sacks n.getStart

/-- What the turn has found out about `now`: either it is lost, or the search goes on behind it. -/
inductive Looked (fack thr acked : ℤ) (p q : Pass) (now : ScoreBoardNode1)
    (rest rest' : List ScoreBoardNode1) : Prop where
  /-- A packet is lost. -/
  | lost (h : Turns fack thr acked p.sacks now) (hnext : q.nxt_to_retrx_ ≠ none)
  /-- No packet of `now` is lost. -/
  | whole (hrest : rest' = rest) (h : ¬ Turns fack thr acked p.sacks now)
    (hgoes : GoesOn p.sacks now ↔ q.sacks ≠ []) (hnext : q.nxt_to_retrx_ = p.nxt_to_retrx_)
  /-- No packet in the first part of `now` is lost. -/
  | part (seq : ℤ) (hlo : now.getStart < seq) (hhi : seq ≤ now.getEnd)
    (hrest : rest' = now.back seq :: rest)
    (h : Turns fack thr acked p.sacks now ↔
      Turns fack thr acked p.sacks (now.back seq))
    (hsacks : q.sacks ≠ []) (hnext : q.nxt_to_retrx_ = p.nxt_to_retrx_)

/-- A turn of a traversal that has no reason to look at all nodes, before its end. -/
structure Half (fack thr acked : ℤ) (p q : Pass) (now : ScoreBoardNode1)
    (rest : List ScoreBoardNode1) (now' : ScoreBoardNode1) (rest' : List ScoreBoardNode1) : Prop where
  /-- The nodes. -/
  after : q.after = now' :: rest'
  /-- The blocks below `now` are skipped, at most. -/
  same : SameAbove now.getStart p.sacks q.sacks
  /-- They stay sorted. -/
  sorted : SortedSacks q.sacks
  /-- There is still no reason. -/
  thorough : q.thorough = false
  /-- Nothing newer was acknowledged. -/
  newest : q.acked_rtx_id_ = acked
  /-- What comes after is what came after, and maybe a part of `now`. -/
  pieces : ∃ l, rest' = l ++ rest ∧ ∀ n ∈ l, n.flag_ ≠ .retransmitted
  /-- The end of `now`, if nothing comes after. -/
  finish : rest' = [] → now'.getEnd = now.getEnd
  /-- What was found out. -/
  looked : Looked fack thr acked p q now rest rest'

variable {f : SkbFlag} {seq : ℤ}

theorem Early.skip_sorted (h : Early fack acked lo mid hi p) (now : ScoreBoardNode1) :
    SortedSacks (p.skip now).sacks := h.sorted.sublist (List.dropWhile_sublist _)

/-- `Gone` is what `LostAt` says of the first packet. -/
theorem gone_iff : now.Gone fack thr acked ↔ now.LostAt fack thr acked now.getStart := by
  unfold Gone LostAt
  cases now.flag_ <;> rfl

/-- Of a node whose first packet is not lost, no packet is. -/
theorem not_lostAt (h : ¬ now.Gone fack thr acked) {q : ℤ} (hq : now.getStart ≤ q) :
    ¬ now.LostAt fack thr acked q := by
  unfold Gone at h
  unfold LostAt
  cases hflag : now.flag_ <;> rw [hflag] at h <;> simp only at h ⊢ <;> first | exact h | omega

/-- The second half of a turn, where no SACK block meets `now`. -/
theorem judge_early (fack thr : ℤ) (hq : p.after = now :: rest) (hcov : p.Uncovered now) :
    ∃ now' rest', (p.judge fack thr).after = now' :: rest' ∧
      (p.judge fack thr).sacks = p.sacks ∧ (p.judge fack thr).thorough = p.thorough ∧
      (p.judge fack thr).acked_rtx_id_ = p.acked_rtx_id_ ∧
      (∃ l, rest' = l ++ rest ∧ ∀ n ∈ l, n.flag_ ≠ .retransmitted) ∧
      (rest' = [] → now'.getEnd = now.getEnd) ∧
      (now.Gone fack thr p.acked_rtx_id_ ∧ (p.judge fack thr).nxt_to_retrx_ ≠ none ∨
        ¬ now.Gone fack thr p.acked_rtx_id_ ∧ rest' = rest ∧
          (p.judge fack thr).nxt_to_retrx_ = p.nxt_to_retrx_) := by
  have hpoint (p : Pass) : p.point.nxt_to_retrx_ ≠ none := by
    unfold point
    simp only
    split
    · simp
    · assumption
  have hself : ∃ l, rest = l ++ rest ∧ ∀ n ∈ l, n.flag_ ≠ .retransmitted := ⟨[], rfl, by simp⟩
  rcases judge_cases fack thr hq hcov with ⟨hlost, heq⟩ | ⟨-, -, hgone, heq⟩ |
    ⟨hflag, hgone, hend, heq⟩ | ⟨hgone, heq⟩ <;> rw [heq]
  · have hgone : now.Gone fack thr p.acked_rtx_id_ := by
      unfold Gone
      rw [hlost]
      trivial
    exact ⟨now, rest, hq, rfl, rfl, rfl, hself, fun _ => rfl, Or.inl ⟨hgone, hpoint p⟩⟩
  · exact ⟨_, rest, rfl, rfl, rfl, rfl, hself, fun _ => setFlag_getEnd (by decide),
      Or.inl ⟨hgone, hpoint _⟩⟩
  · refine ⟨_, _, rfl, rfl, rfl, rfl, ⟨[now.back _], rfl, ?_⟩, fun hnil => absurd hnil (by simp),
      Or.inl ⟨hgone, hpoint _⟩⟩
    simp [hflag]
  · exact ⟨now, rest, hq, rfl, rfl, rfl, hself, fun _ => rfl, Or.inr ⟨hgone, rfl, rfl⟩⟩

/-- A part of a node is lost when the node is. -/
theorem back_lostAt (hretr : now.flag_ ≠ .retransmitted) {q : ℤ} :
    (now.back seq).LostAt fack thr acked q ↔ now.LostAt fack thr acked q := by
  unfold LostAt
  rw [back_flag_]
  cases hcase : now.flag_ <;> first | exact Iff.rfl | exact absurd hcase hretr

theorem front_gone (hretr : now.flag_ ≠ .retransmitted) :
    (now.front seq).Gone fack thr acked ↔ now.Gone fack thr acked := by
  unfold Gone
  rw [front_flag_, front_getStart]
  cases hcase : now.flag_ <;> first | exact Iff.rfl | exact absurd hcase hretr

theorem sameAbove_skip (p : Pass) (now : ScoreBoardNode1) :
    SameAbove now.getStart p.sacks (p.skip now).sacks := sameAbove_dropWhile _ _

/-- The first packet is lost, if no block meets it. -/
theorem Early.turns (h : Early fack acked lo mid hi p) (hne : now.getStart ≤ now.getEnd)
    (hgone : now.Gone fack thr p.acked_rtx_id_) (hcov : ¬ Covered (p.skip now).sacks now.getStart) :
    Turns fack thr acked p.sacks now := by
  rw [h.acked] at hgone
  exact ⟨now.getStart, le_rfl, hne, fun hc => hcov (((sameAbove_skip p now).covered le_rfl).mp hc),
    gone_iff.mp hgone⟩

/-- No block meets `now`. -/
theorem half_uncovered (thr : ℤ) (h : Early fack acked lo mid hi p) (hafter : p.after = now :: rest)
    (hne : now.getStart ≤ now.getEnd) (hflag : now.flag_ ≠ .sacked) (hcov : (p.skip now).Uncovered now) :
    ∃ now' rest', Half fack thr acked p ((p.skip now).judge fack thr) now rest now' rest' := by
  have hsame := sameAbove_skip p now
  have hsorted := h.skip_sorted now
  obtain ⟨now', rest', hafter', hs, ht, ha, hpieces, hfinish, hlooked⟩ :=
    judge_early fack thr (show (p.skip now).after = now :: rest from hafter) hcov
  refine ⟨now', rest', hafter', hs ▸ hsame, hs ▸ hsorted, ht.trans h.thorough, ha.trans h.acked,
    hpieces, hfinish, ?_⟩
  rcases hlooked with ⟨hgone, hnext⟩ | ⟨hgone, hrest', hnext⟩
  · refine .lost (h.turns hne hgone ?_) hnext
    rcases hcase : (p.skip now).sacks with _ | ⟨b, bs⟩
    · rintro ⟨c, hc, -⟩
      cases hc
    · have hb := (uncovered_cons hcase).mp hcov
      exact not_covered_of_lt (hcase ▸ hsorted) (by omega)
  · refine .whole hrest' ?_ ?_ hnext
    · rintro ⟨q, hq, -, -, hlost⟩
      exact not_lostAt (h.acked ▸ hgone) hq hlost
    · rw [hs]
      refine (hsame.goesOn hne).trans ⟨?_, fun hnil => ?_⟩
      · rintro (hs' | ⟨c, hc, -⟩)
        · exact absurd hs' hflag
        · exact List.ne_nil_of_mem hc
      · obtain ⟨b, bs, hcase⟩ := List.exists_cons_of_ne_nil hnil
        have hb := (uncovered_cons hcase).mp hcov
        have hmem : b ∈ (p.skip now).sacks := hcase ▸ List.mem_cons_self
        have hproper := h.proper b (hsame.1 b hmem)
        exact Or.inr ⟨b, hmem, by omega⟩

variable {b : ℤ × ℤ} {bs : List (ℤ × ℤ)}

/-- The first part of `now` is below the block. -/
theorem half_below (thr : ℤ) (h : Early fack acked lo mid hi p) (hne : now.getStart ≤ now.getEnd)
    (hsacks : (p.skip now).sacks = b :: bs) (hlo : now.getStart < b.1) (hhi : b.1 ≤ now.getEnd) :
    ∃ now' rest', Half fack thr acked p
      (({ p.skip now with after := now.front b.1 :: now.back b.1 :: rest } : Pass).judge fack thr) now
      rest now' rest' := by
  have hsame := sameAbove_skip p now
  have hsorted := h.skip_sorted now
  have hretr := now.ne_retransmitted (by omega)
  have hcov : ({ p.skip now with
      after := now.front b.1 :: now.back b.1 :: rest } : Pass).Uncovered (now.front b.1) := by
    refine (uncovered_cons hsacks).mpr ?_
    rw [front_getEnd hretr]
    omega
  obtain ⟨now', rest', hafter', hs, ht, ha, ⟨l, hl, hpieces⟩, hfinish, hlooked⟩ :=
    judge_early fack thr rfl hcov
  refine ⟨now', rest', hafter', hs ▸ hsame, hs ▸ hsorted, ht.trans h.thorough, ha.trans h.acked,
    ⟨l ++ [now.back b.1], ?_, ?_⟩, fun hnil => ?_, ?_⟩
  · rw [hl, List.append_assoc]
    rfl
  · intro m hm
    rcases List.mem_append.mp hm with hm | hm
    · exact hpieces m hm
    · obtain rfl := List.mem_singleton.mp hm
      exact hretr
  · rw [hl] at hnil
    simp at hnil
  · rcases hlooked with ⟨hgone, hnext⟩ | ⟨hgone, hrest', hnext⟩
    · exact .lost (h.turns hne ((front_gone hretr).mp hgone)
        (hsacks ▸ not_covered_of_lt (hsacks ▸ hsorted) hlo)) hnext
    · refine .part b.1 hlo hhi hrest' ?_ (hs ▸ hsacks ▸ List.cons_ne_nil b bs) hnext
      have hnot : ¬ now.Gone fack thr acked := by
        rw [← h.acked]
        exact fun h' => hgone ((front_gone hretr).mpr h')
      constructor
      · rintro ⟨q, hq, -, -, hlost⟩
        exact absurd hlost (not_lostAt hnot hq)
      · rintro ⟨q, hq, hq', -, hlost⟩
        rw [back_getEnd hretr] at hq'
        rw [back_getStart] at hq
        exact absurd ((back_lostAt hretr).mp hlost) (not_lostAt hnot (q := q) (by omega))

/-- A node that is not retransmitted is acknowledged: there is still no reason. -/
theorem Early.sacked (h : Early fack acked lo mid hi p) (now : ScoreBoardNode1)
    (rest : List ScoreBoardNode1) (hn : n.flag_ ≠ .retransmitted) :
    ((p.skip now).sacked n rest).thorough = false ∧
      ((p.skip now).sacked n rest).acked_rtx_id_ = acked := by
  refine ⟨?_, ?_⟩
  · show (p.thorough || decide (n.flag_ = .retransmitted)) = false
    simp [h.thorough, hn]
  · show (if n.flag_ = .retransmitted then n.retran_ else p.acked_rtx_id_) = acked
    rw [if_neg hn, h.acked]

theorem sacked_covered (hsacks : (p.skip now).sacks = b :: bs) (hle : b.1 ≤ n.getEnd) :
    ¬ ((p.skip now).sacked n rest).Uncovered (n.setFlag .sacked) := by
  intro hu
  have := (uncovered_cons hsacks).mp hu
  rw [setFlag_getEnd (by decide)] at this
  omega

/-- The first part of `now` is reported. -/
theorem half_part (thr : ℤ) (h : Early fack acked lo mid hi p) (hsacks : (p.skip now).sacks = b :: bs)
    (hle : b.1 ≤ now.getStart) (hlo : now.getStart < b.2) (hhi : b.2 ≤ now.getEnd) :
    ∃ now' rest', Half fack thr acked p
      (((p.skip now).sacked (now.front b.2) (now.back b.2 :: rest)).judge fack thr) now rest now'
      rest' := by
  have hsame := sameAbove_skip p now
  have hretr := now.ne_retransmitted (by omega)
  have hmem : b ∈ p.sacks := hsame.1 b (hsacks ▸ List.mem_cons_self)
  obtain ⟨hthorough, hacked⟩ := h.sacked (n := now.front b.2) now (now.back b.2 :: rest) hretr
  rw [judge_of_covered rfl (sacked_covered hsacks (by rw [front_getEnd hretr]; omega))]
  refine ⟨_, _, rfl, hsame, h.skip_sorted now, hthorough, hacked, ⟨[now.back b.2], rfl, ?_⟩,
    fun hnil => absurd hnil (by simp), .part b.2 hlo hhi rfl ?_ ?_ rfl⟩
  · simpa using hretr
  · constructor
    · rintro ⟨q, hq, hq', hcov', hlost⟩
      refine ⟨q, ?_, by rwa [back_getEnd hretr], hcov', (back_lostAt hretr).mpr hlost⟩
      rw [back_getStart]
      by_contra hlt'
      exact hcov' ⟨b, hmem, by omega, by omega⟩
    · rintro ⟨q, hq, hq', hcov', hlost⟩
      rw [back_getStart] at hq
      rw [back_getEnd hretr] at hq'
      exact ⟨q, by omega, hq', hcov', (back_lostAt hretr).mp hlost⟩
  · show (p.skip now).sacks ≠ []
    rw [hsacks]
    exact List.cons_ne_nil b bs

/-- `now` is reported. -/
theorem half_reported (thr : ℤ) (h : Early fack acked lo mid hi p) (hafter : p.after = now :: rest)
    (hne : now.getStart ≤ now.getEnd) (hsacks : (p.skip now).sacks = b :: bs)
    (hle : b.1 ≤ now.getStart) (hlo : now.getStart < b.2) (hhi : now.getEnd < b.2) :
    ∃ now' rest', Half fack thr acked p (((p.skip now).sacked now rest).judge fack thr) now rest now'
      rest' := by
  have hsame := sameAbove_skip p now
  have hmem : b ∈ p.sacks := hsame.1 b (hsacks ▸ List.mem_cons_self)
  have hretr : now.flag_ ≠ .retransmitted := fun hcase =>
    h.fresh now (hafter ▸ List.mem_cons_self) hcase ⟨b, hmem, hle, hlo⟩
  obtain ⟨hthorough, hacked⟩ := h.sacked now rest hretr
  rw [judge_of_covered rfl (sacked_covered hsacks (by omega))]
  refine ⟨_, _, rfl, hsame, h.skip_sorted now, hthorough, hacked, ⟨[], rfl, by simp⟩,
    fun _ => setFlag_getEnd (by decide), .whole rfl ?_ ?_ rfl⟩
  · rintro ⟨q, hq, hq', hcov', -⟩
    exact hcov' ⟨b, hmem, by omega, by omega⟩
  · refine ⟨fun _ => ?_, fun _ => Or.inr ⟨b, hmem, hhi⟩⟩
    show (p.skip now).sacks ≠ []
    rw [hsacks]
    exact List.cons_ne_nil b bs

/-- What `mark` and `judge` do, in such a traversal. -/
theorem half_early (thr : ℤ) (h : Early fack acked lo mid hi p) (hafter : p.after = now :: rest)
    (hflag : now.flag_ ≠ .sacked) :
    ∃ now' rest', Half fack thr acked p (p.mark.judge fack thr) now rest now' rest' := by
  obtain ⟨hmid, hne, hrest⟩ := hafter ▸ h.after
  rcases mark_cases hafter with ⟨hcov, heq⟩ | ⟨b, bs, hsacks, hlo, hhi, heq⟩ |
    ⟨b, bs, hsacks, hle, hlo, ⟨hhi, heq⟩ | ⟨hhi, heq⟩⟩ <;> rw [heq]
  · exact half_uncovered thr h hafter hne hflag hcov
  · exact half_below thr h hne hsacks hlo hhi
  · exact half_part thr h hsacks hle hlo hhi
  · exact half_reported thr h hafter hne hsacks hle hlo hhi

/-! ## The whole traversal -/

/-- A traversal that goes on finds a lost packet. -/
def FoundFrom (fack thr acked : ℤ) (p : Pass) : Prop :=
  p.sacks ≠ [] ∧ Found (Turns fack thr acked p.sacks) p.sacks p.after

/-- A lost node is left behind when the traversal stops. -/
def LeftFrom (p : Pass) : Prop :=
  if p.sacks = [] then ∃ m ∈ p.after, m.flag_ = .lost else Missed p.sacks p.after

/-- One turn changes neither what there is to be found nor what will be left. -/
structure SameSearch (fack thr acked : ℤ) (p p₁ : Pass) : Prop where
  /-- What is found. -/
  found : p₁.nxt_to_retrx_ ≠ none ∨ FoundFrom fack thr acked p₁ ↔
    p.nxt_to_retrx_ ≠ none ∨ FoundFrom fack thr acked p
  /-- What is left, if nothing was found. -/
  left : p₁.nxt_to_retrx_ = none → (LeftFrom p₁ ↔ LeftFrom p)

/-- The search goes on with the nodes that come after. -/
theorem sameSearch_of_looked {q : Pass} {rest' : List ScoreBoardNode1}
    (hp : p.after = now :: rest) (hsacks : p.sacks ≠ [])
    (hrest : Tiles getStart getEnd (now.getEnd + 1) rest hi) (hne : now.getStart ≤ now.getEnd)
    (hsame : SameAbove now.getStart p.sacks q.sacks)
    (hlooked : Looked fack thr acked p q now rest rest')
    (hafter : p₁.after = rest') (hs : p₁.sacks = q.sacks)
    (hn : p₁.nxt_to_retrx_ = q.nxt_to_retrx_) :
    SameSearch fack thr acked p p₁ := by
  cases hlooked with
  | lost hturns hnext =>
    have hnext' : p₁.nxt_to_retrx_ ≠ none := hn ▸ hnext
    refine ⟨iff_of_true (Or.inl hnext') (Or.inr ⟨hsacks, ?_⟩), fun hnone => absurd hnone hnext'⟩
    rw [hp]
    exact Or.inl hturns
  | whole hrest' hturns hgoes hnext =>
    have hfound := hsame.found fack thr acked hrest (by omega)
    have hmissed := hsame.missed hrest (by omega)
    subst hrest'
    refine ⟨?_, fun _ => ?_⟩
    · rw [hn, hnext]
      refine or_congr_right ?_
      unfold FoundFrom
      rw [hp, hs, hafter, Found, hgoes, hfound]
      exact ⟨fun h => ⟨hsacks, Or.inr h⟩, fun h => h.2.resolve_left hturns⟩
    · unfold LeftFrom
      rw [hp, hs, hafter, if_neg hsacks, Missed, hgoes, hmissed]
      by_cases hnil : q.sacks = []
      · simp [hnil]
      · simp [hnil]
  | part seq hlo hhi hrest' hturns hnil hnext =>
    have hretr := now.ne_retransmitted (by omega)
    have htiles : Tiles getStart getEnd seq (now.back seq :: rest) hi :=
      ⟨rfl, by rw [back_getEnd hretr]; exact hhi, by rw [back_getEnd hretr]; exact hrest⟩
    have hfound := hsame.found fack thr acked htiles (by omega)
    have hmissed := hsame.missed htiles (by omega)
    have hgoes : GoesOn p.sacks (now.back seq) ↔ GoesOn p.sacks now := by
      unfold GoesOn
      rw [back_getEnd hretr, back_flag_]
    subst hrest'
    refine ⟨?_, fun _ => ?_⟩
    · rw [hn, hnext]
      refine or_congr_right ?_
      unfold FoundFrom
      rw [hp, hs, hafter, ← hfound, Found, Found, hgoes, hturns]
      exact and_congr_left' (iff_of_true hnil hsacks)
    · unfold LeftFrom
      rw [hp, hs, hafter, if_neg hsacks, if_neg hnil, ← hmissed, Missed, Missed, hgoes]

/-- A turn of a traversal that has no reason to look at all nodes. -/
theorem turn_early (thr : ℤ) (h : Early fack acked lo mid hi p) (hne : p.after ≠ [])
    (hsacks : p.sacks ≠ []) :
    ∃ p₁ mid₁ hi₁, p.turn fack thr = some p₁ ∧ Early fack acked lo mid₁ hi₁ p₁ ∧
      SameSearch fack thr acked p p₁ := by
  obtain ⟨p₁, mid₁, hi₁, hturn, hgood, hmid, hle, -, -⟩ := turn_good fack thr h.toGood hne
  obtain ⟨now, rest, hafter⟩ := List.exists_cons_of_ne_nil hne
  obtain ⟨hstart, hnow, hrest⟩ := hafter ▸ h.after
  have hfack := h.fack_lt
  have hfinish (hnil : rest = []) : fack ≤ now.getEnd := by
    subst hnil
    have : now.getEnd + 1 = hi := hrest
    omega
  have hfresh {sacks' : List (ℤ × ℤ)} (hsame : SameAbove now.getStart p.sacks sacks') :
      ∀ n ∈ rest, n.flag_ = .retransmitted → ¬ Covered sacks' n.getStart := by
    intro n hn hflag hcov
    have hlo := (hrest.bounds hn).1
    exact h.fresh n (hafter ▸ List.mem_cons_of_mem now hn) hflag
      ((hsame.covered (by omega)).mpr hcov)
  refine ⟨p₁, mid₁, hi₁, hturn, ?_⟩
  by_cases hflag : now.flag_ = .sacked
  · have hadvance : p.advance fack = some p₁ := by
      rw [← hturn, turn, hafter]
      exact (if_neg fun h' => h' hflag).symm
    obtain ⟨hafter₁, hs, ht, hn, ha⟩ := advance_frame hafter hfinish hadvance
    have hsame : SameAbove now.getStart p.sacks p.sacks := ⟨fun b hb => hb, fun b hb => Or.inl hb⟩
    refine ⟨⟨hgood, by omega, hs ▸ h.sorted, hs ▸ h.proper, ht.trans h.thorough,
      ha.trans h.acked, ?_⟩, ?_⟩
    · rw [hafter₁, hs]
      exact hfresh hsame
    · refine sameSearch_of_looked hafter hsacks hrest hnow hsame (.whole rfl ?_ ?_ rfl) hafter₁ hs hn
      · rintro ⟨q, -, -, -, hlost⟩
        unfold LostAt at hlost
        rw [hflag] at hlost
        exact hlost
      · exact iff_of_true (Or.inl hflag) hsacks
  · obtain ⟨now', rest', hhalf⟩ := half_early thr h hafter hflag
    have hadvance : (p.mark.judge fack thr).advance fack = some p₁ := by
      rw [← hturn, turn, hafter]
      exact (if_pos hflag).symm
    have hfinish' (hnil : rest' = []) : fack ≤ now'.getEnd := by
      obtain ⟨l, hl, -⟩ := hhalf.pieces
      rw [hhalf.finish hnil]
      exact hfinish (List.append_eq_nil_iff.mp (hl.symm.trans hnil)).2
    obtain ⟨hafter₁, hs, ht, hn, ha⟩ := advance_frame hhalf.after hfinish' hadvance
    refine ⟨⟨hgood, by omega, hs ▸ hhalf.sorted, ?_, ht.trans hhalf.thorough,
      ha.trans hhalf.newest, ?_⟩, ?_⟩
    · rw [hs]
      exact fun b hb => h.proper b (hhalf.same.1 b hb)
    · obtain ⟨l, hl, hpieces⟩ := hhalf.pieces
      rw [hafter₁, hl, hs]
      intro n hn hretr
      rcases List.mem_append.mp hn with hn | hn
      · exact absurd hretr (hpieces n hn)
      · exact hfresh hhalf.same n hn hretr
    · exact sameSearch_of_looked hafter hsacks hrest hnow hhalf.same hhalf.looked hafter₁ hs hn

/-- The traversal finds what there is to be found, and else leaves what there is to be left. -/
theorem loop_found {fuel : ℕ} (h : Early fack acked lo mid hi p)
    (hloop : p.loop fack thr fuel = some p') :
    (p'.nxt_to_retrx_ ≠ none ↔ p.nxt_to_retrx_ ≠ none ∨ FoundFrom fack thr acked p) ∧
      (p'.nxt_to_retrx_ = none → ((∃ m ∈ p'.after, m.flag_ = .lost) ↔ LeftFrom p)) := by
  induction fuel generalizing p mid hi with
  | zero => cases hloop
  | succ fuel ih =>
    unfold loop at hloop
    by_cases hgo : p.after ≠ [] ∧ (p.sacks ≠ [] ∨ p.thorough)
    · have hsacks : p.sacks ≠ [] := hgo.2.resolve_right (by rw [h.thorough]; decide)
      obtain ⟨p₁, mid₁, hi₁, hturn, h₁, hsearch⟩ := turn_early thr h hgo.1 hsacks
      rw [if_pos hgo, hturn, Option.bind_some] at hloop
      obtain ⟨hfound, hleft⟩ := ih h₁ hloop
      refine ⟨hfound.trans hsearch.found, fun hnone => (hleft hnone).trans (hsearch.left ?_)⟩
      by_contra hne
      exact (hfound.mpr (Or.inl hne)) hnone
    · rw [if_neg hgo] at hloop
      obtain rfl := Option.some.inj hloop
      have hstop : p.after = [] ∨ p.sacks = [] := by
        by_contra hnot
        rw [not_or] at hnot
        exact hgo ⟨hnot.1, Or.inl hnot.2⟩
      have hnot : ¬ FoundFrom fack thr acked p := by
        rintro ⟨hsacks, hfound⟩
        rw [hstop.resolve_right hsacks] at hfound
        exact hfound
      refine ⟨by simp [hnot], fun _ => ?_⟩
      unfold LeftFrom
      by_cases hsacks : p.sacks = []
      · rw [if_pos hsacks]
      · rw [if_neg hsacks, hstop.resolve_right hsacks]
        simp [Missed]

/-! ## A reason to look at all nodes -/

/-- What a turn does to the nodes after `now`, and to the SACK blocks. -/
structure Kept (now : ScoreBoardNode1) (rest : List ScoreBoardNode1) (p p' : Pass) : Prop where
  /-- The nodes after `now` stay. -/
  mem : ∃ now' rest', p'.after = now' :: rest' ∧ ∀ n ∈ rest, n ∈ rest'
  /-- The blocks below `now` are skipped, at most. -/
  same : SameAbove now.getStart p.sacks p'.sacks
  /-- Their order stays. -/
  sub : p'.sacks.Sublist p.sacks

theorem mark_kept (hafter : p.after = now :: rest) : Kept now rest p p.mark := by
  have hsame : SameAbove now.getStart p.sacks (p.skip now).sacks := sameAbove_dropWhile _ _
  have hsub : (p.skip now).sacks.Sublist p.sacks := List.dropWhile_sublist _
  rcases mark_cases hafter with ⟨-, heq⟩ | ⟨b, bs, -, -, -, heq⟩ |
    ⟨b, bs, -, -, -, ⟨-, heq⟩ | ⟨-, heq⟩⟩ <;> rw [heq]
  · exact ⟨⟨now, rest, hafter, fun n hn => hn⟩, hsame, hsub⟩
  · exact ⟨⟨_, _, rfl, fun n hn => List.mem_cons_of_mem _ hn⟩, hsame, hsub⟩
  · exact ⟨⟨_, _, rfl, fun n hn => List.mem_cons_of_mem _ hn⟩, hsame, hsub⟩
  · exact ⟨⟨_, _, rfl, fun n hn => hn⟩, hsame, hsub⟩

theorem judge_kept (fack thr : ℤ) (hafter : p.after = now :: rest) :
    (p.judge fack thr).sacks = p.sacks ∧
      ∃ now' rest', (p.judge fack thr).after = now' :: rest' ∧ ∀ n ∈ rest, n ∈ rest' := by
  by_cases hcov : p.Uncovered now
  · rcases judge_cases fack thr hafter hcov with ⟨-, heq⟩ | ⟨-, -, -, heq⟩ | ⟨-, -, -, heq⟩ |
      ⟨-, heq⟩ <;> rw [heq]
    · exact ⟨rfl, now, rest, hafter, fun n hn => hn⟩
    · exact ⟨rfl, _, _, rfl, fun n hn => hn⟩
    · exact ⟨rfl, _, _, rfl, fun n hn => List.mem_cons_of_mem _ hn⟩
    · exact ⟨rfl, now, rest, hafter, fun n hn => hn⟩
  · rw [judge_of_covered hafter hcov]
    exact ⟨rfl, now, rest, hafter, fun n hn => hn⟩

theorem advance_kept (hafter : p.after = now :: rest) (h : p.advance fack = some p') :
    p'.sacks = p.sacks ∧ ∀ n ∈ rest, n ∈ p'.after := by
  by_cases hnil : rest = []
  · refine ⟨?_, fun n hn => by rw [hnil] at hn; cases hn⟩
    unfold advance at h
    simp only at h
    split at h
    · rw [← Option.some.inj h]
    · rw [← Option.some.inj h]
    · split_ifs at h <;> rw [← Option.some.inj h]
  · obtain ⟨hafter', hs, -⟩ := advance_frame hafter (fun h' => absurd h' hnil) h
    exact ⟨hs, fun n hn => hafter' ▸ hn⟩

/-- A retransmitted packet that is reported is a reason to look at all nodes. -/
theorem mark_reported (hafter : p.after = now :: rest) (hsorted : SortedSacks p.sacks)
    (hflag : now.flag_ = .retransmitted) (hcov : Covered p.sacks now.getStart) :
    p.mark.thorough = true := by
  have hsame : SameAbove now.getStart p.sacks (p.skip now).sacks := sameAbove_dropWhile _ _
  have hend : now.getEnd = now.getStart := if_pos hflag
  have hsorted' : SortedSacks (p.skip now).sacks := hsorted.sublist (List.dropWhile_sublist _)
  have hcov' := (hsame.covered le_rfl).mp hcov
  rcases mark_cases hafter with ⟨hu, -⟩ | ⟨b, bs, -, hlo, hhi, -⟩ |
    ⟨b, bs, -, -, hlo, ⟨hhi, -⟩ | ⟨-, heq⟩⟩
  · rcases hcase : (p.skip now).sacks with _ | ⟨b, bs⟩
    · rw [hcase] at hcov'
      obtain ⟨c, hc, -⟩ := hcov'
      cases hc
    · have hb := (uncovered_cons hcase).mp hu
      rw [hcase] at hcov' hsorted'
      exact absurd hcov' (not_covered_of_lt hsorted' (by omega))
  · omega
  · omega
  · rw [heq]
    simp [sacked, hflag]

/-- If there is never a reason to look at all nodes, no retransmitted packet is reported. -/
theorem loop_fresh {fuel : ℕ} (h : Good lo mid hi p) (hsorted : SortedSacks p.sacks)
    (hloop : p.loop fack thr fuel = some p') (hfalse : p'.thorough = false) :
    ∀ n ∈ p.after, n.flag_ = .retransmitted → ¬ Covered p.sacks n.getStart := by
  induction fuel generalizing p mid hi with
  | zero => cases hloop
  | succ fuel ih =>
    intro n hn hflag hcov
    unfold loop at hloop
    have hne : p.after ≠ [] := List.ne_nil_of_mem hn
    have hsacks : p.sacks ≠ [] := by
      obtain ⟨b, hb, -⟩ := hcov
      exact List.ne_nil_of_mem hb
    obtain ⟨p₁, mid₁, hi₁, hturn, h₁, -⟩ := turn_good fack thr h hne
    rw [if_pos ⟨hne, Or.inl hsacks⟩, hturn, Option.bind_some] at hloop
    have hfalse₁ : p₁.thorough ≠ true := by
      intro htrue
      rw [loop_thorough hloop htrue] at hfalse
      cases hfalse
    obtain ⟨now, rest, hafter⟩ := List.exists_cons_of_ne_nil hne
    obtain ⟨-, hnow, hrest⟩ := hafter ▸ h.after
    rw [hafter] at hn
    by_cases hsacked : now.flag_ = .sacked
    · have hadvance : p.advance fack = some p₁ := by
        rw [← hturn, turn, hafter]
        exact (if_neg fun h' => h' hsacked).symm
      obtain ⟨hs, hmem⟩ := advance_kept hafter hadvance
      rcases List.mem_cons.mp hn with rfl | hn
      · rw [hsacked] at hflag
        cases hflag
      · exact ih h₁ (hs ▸ hsorted) hloop n (hmem n hn) hflag (hs ▸ hcov)
    · have hadvance : (p.mark.judge fack thr).advance fack = some p₁ := by
        rw [← hturn, turn, hafter]
        exact (if_pos hsacked).symm
      obtain ⟨⟨now₁, rest₁, hafter₁, hmem₁⟩, hsame, hsub⟩ := mark_kept hafter
      obtain ⟨hs₂, now₂, rest₂, hafter₂, hmem₂⟩ := judge_kept fack thr hafter₁
      obtain ⟨hs₃, hmem₃⟩ := advance_kept hafter₂ hadvance
      rcases List.mem_cons.mp hn with rfl | hn
      · apply hfalse₁
        rw [advance_thorough hadvance, judge_thorough]
        exact mark_reported hafter hsorted hflag hcov
      · have hlo := (hrest.bounds hn).1
        refine ih h₁ ?_ hloop n (hmem₃ n (hmem₂ n (hmem₁ n hn))) hflag ?_
        · rw [hs₃, hs₂]
          exact hsorted.sublist hsub
        · rw [hs₃, hs₂]
          exact (hsame.covered (by omega)).mp hcov

end Pass

/-- The blocks are kept sorted. -/
theorem sorted_insertSack {b : ℤ × ℤ} (h : SortedSacks sacks) : SortedSacks (insertSack sacks b) := by
  have happend : sacks.rdropWhile (fun c => c.1 > b.1) ++ sacks.rtakeWhile (fun c => c.1 > b.1) =
      sacks := List.rdropWhile_append_rtakeWhile
  have hsplit := List.pairwise_append.mp (happend.symm ▸ h)
  have htake : ∀ c ∈ sacks.rtakeWhile (fun c => c.1 > b.1), b.1 ≤ c.1 := fun c hc => by
    have := List.mem_rtakeWhile_imp hc
    simp only [decide_eq_true_eq] at this
    omega
  have hdrop : ∀ c ∈ sacks.rdropWhile (fun c => c.1 > b.1), c.1 ≤ b.1 := fun c hc => by
    have hne : sacks.rdropWhile (fun c => c.1 > b.1) ≠ [] := List.ne_nil_of_mem hc
    have hlast := List.rdropWhile_last_not _ _ hne
    simp only [decide_eq_true_eq, not_lt] at hlast
    refine le_trans ?_ hlast
    rw [← List.dropLast_append_getLast hne] at hc
    rcases List.mem_append.mp hc with hc | hc
    · have hpair := hsplit.1
      rw [← List.dropLast_append_getLast hne] at hpair
      exact (List.pairwise_append.mp hpair).2.2 c hc _ (List.mem_singleton_self _)
    · exact (congrArg Prod.fst (List.mem_singleton.mp hc)).le
  refine List.pairwise_append.mpr ⟨hsplit.1, List.pairwise_cons.mpr ⟨htake, hsplit.2.1⟩, ?_⟩
  intro c hc d hd
  rcases List.mem_cons.mp hd with rfl | hd
  · exact hdrop c hc
  · exact (hdrop c hc).trans (htake d hd)

theorem sorted_sortSacks (last_ack : ℤ) (sacks : List (ℤ × ℤ)) :
    SortedSacks (sortSacks last_ack sacks) := by
  unfold sortSacks
  refine List.foldlRecOn sacks _ (motive := SortedSacks) List.Pairwise.nil fun l hl b _ => ?_
  split
  · exact sorted_insertSack hl
  · exact hl

namespace ScoreBoard1

variable {s s' : ScoreBoard1} {last_ack : ℤ}

/-! ## The packet returned -/

/-- `GetNextRetran` returns the smallest packet in a lost node, and `-1` only if there is none. -/
structure Remembers (s : ScoreBoard1) : Prop where
  /-- The smallest packet. -/
  least : (s.packets .lost).Nonempty → IsLeast {p | p ∈ s.packets .lost} s.getNextRetran.2
  /-- No packet. -/
  none : s.getNextRetran.2 = -1 ↔ s.packets .lost = ∅

theorem packets_lost_eq_empty (h : Exact lo hi s) :
    s.packets .lost = ∅ ↔ ∀ n ∈ s.nodes, n.flag_ ≠ .lost := by
  rw [Finset.eq_empty_iff_forall_notMem]
  constructor
  · intro hempty n hn hlost
    exact hempty n.getStart (mem_cells.mpr ⟨n, hn, by simpa using hlost, le_rfl, (h.tiled.bounds hn).2.1⟩)
  · intro hno p hp
    obtain ⟨n, hn, hlost, -⟩ := mem_cells.mp hp
    exact hno n hn (by simpa using hlost)

/-- Only a null pointer can forget a lost packet. -/
theorem remembers_iff (h : Exact lo hi s) (hlo : s.nodes ≠ [] → 0 ≤ lo) :
    s.Remembers ↔ s.nxt_to_retrx_ ≠ none ∨ ∀ n ∈ s.nodes, n.flag_ ≠ .lost := by
  by_cases hnone : s.nxt_to_retrx_ = none
  · have hret := congrArg Prod.snd (getNextRetran_of_none hnone)
    refine ⟨fun hr => Or.inr ((packets_lost_eq_empty h).mp (hr.none.mp hret)), fun hno => ?_⟩
    have hempty := (packets_lost_eq_empty h).mpr (hno.resolve_left fun h' => h' hnone)
    exact ⟨fun hne => absurd hempty hne.ne_empty, iff_of_true hret hempty⟩
  · refine iff_of_true ?_ (Or.inl hnone)
    have hret : s.getNextRetran.2 = firstLostStart s.nodes :=
      congrArg Prod.snd (getNextRetran_of_some h.next hnone)
    cases hfind : s.nodes.find? fun n => n.flag_ = .lost with
    | none =>
      have hno : ∀ n ∈ s.nodes, n.flag_ ≠ .lost := fun n hn => by
        simpa using List.find?_eq_none.mp hfind n hn
      have hempty := (packets_lost_eq_empty h).mpr hno
      refine ⟨fun hne => absurd hempty hne.ne_empty, iff_of_true ?_ hempty⟩
      rw [hret, firstLostStart, hfind]
      rfl
    | some n =>
      obtain ⟨hlost, l₁, l₂, hnodes, hno⟩ := List.find?_eq_some_iff_append.mp hfind
      have hstart : s.getNextRetran.2 = n.getStart := by
        rw [hret, firstLostStart, hfind]
        rfl
      have hmem : n ∈ s.nodes := by
        rw [hnodes]
        simp
      have hbounds := h.tiled.bounds hmem
      have hlo' := hlo (List.ne_nil_of_mem hmem)
      have hleast := (hnodes ▸ h.tiled).isLeast
        (P := fun m : ScoreBoardNode1 => decide (m.flag_ = SkbFlag.lost)) hlost
        fun m hm hm' => by simpa [hm'] using hno m hm
      rw [← hnodes] at hleast
      refine ⟨fun _ => hstart ▸ hleast, iff_of_false (by omega) fun hempty => ?_⟩
      exact Finset.notMem_empty n.getStart (hempty ▸ hleast.1)

/-! ## The condition -/

/-- What `UpdateScoreBoard` needs so that it forgets no lost packet; the nodes are what the
cumulative ACK leaves of them.  Either there is a reason to look at all nodes: a newer
retransmission is acknowledged, the SACK blocks reach further than before, or they report a
retransmitted packet.  Or there are no SACK blocks, and the pointer is not null unless no packet is
lost.  Or the traversal finds a lost packet before the SACK blocks are used up, or misses none. -/
def Keeps (s : ScoreBoard1) (last_ack : ℤ) (sacks : List (ℤ × ℤ)) (thr : ℤ) : Prop :=
  Newer last_ack s.acked_rtx_id_ s.nodes ∨
    if sacks = [] then
      s.nxt_to_retrx_ ≠ none ∨ ∀ n ∈ trim last_ack s.nodes, n.flag_ ≠ .lost
    else
      s.advanced (sortSacks last_ack sacks) = true ∨
      (∃ n ∈ trim last_ack s.nodes, n.flag_ = .retransmitted ∧ Covered sacks n.getStart) ∨
      Found (Turns s.fack_ thr s.acked_rtx_id_ sacks) sacks (trim last_ack s.nodes) ∨
      ¬ Missed sacks (trim last_ack s.nodes)

theorem remembers_endPass {p : Pass} (h : p.Good lo mid hi) (hlo : 0 ≤ lo) :
    (s.endPass p).1.Remembers ↔
      p.nxt_to_retrx_ ≠ none ∨ ∀ n ∈ p.after, n.flag_ ≠ .lost := by
  rw [remembers_iff (exact_endPass h) fun _ => hlo]
  show p.nxt_to_retrx_ ≠ none ∨ (∀ n ∈ p.before.reverse ++ p.after, n.flag_ ≠ .lost) ↔ _
  by_cases hnone : p.nxt_to_retrx_ = none
  · have hbefore : ∀ n ∈ p.before.reverse, n.flag_ ≠ .lost := by
      have hfirst := h.next.symm.trans hnone
      exact fun n hn => by simpa using List.findIdx?_eq_none_iff.mp hfirst n hn
    refine or_congr_right ⟨fun hno n hn => hno n (List.mem_append_right _ hn), fun hno n hn => ?_⟩
    rcases List.mem_append.mp hn with hn | hn
    · exact hbefore n hn
    · exact hno n hn
  · exact iff_of_true (Or.inl hnone) (Or.inl hnone)

/-- The condition, for the traversal. -/
theorem traverse_remembers (thr : ℤ) (h : Exact lo hi s) (hne : s.nodes ≠ []) (hlo : 0 ≤ lo)
    (hsorted : SortedSacks sacks) (hproper : ∀ b ∈ sacks, b.1 < b.2) (thorough : Bool)
    (hfack : thorough = false → s.fack_ < hi) (hsacks : thorough = true ∨ sacks ≠ []) (flag : AckFlag) :
    ∃ s' flag', s.traverse thr sacks thorough flag = some (s', flag') ∧
      (s'.Remembers ↔ thorough = true ∨
        (∃ n ∈ s.nodes, n.flag_ = .retransmitted ∧ Covered sacks n.getStart) ∨
        Found (Turns s.fack_ thr s.acked_rtx_id_ sacks) sacks s.nodes ∨ ¬ Missed sacks s.nodes) := by
  obtain ⟨p, mid, hi', hloop, htraverse, hp, -, -, -, hstop⟩ :=
    traverse_spec h hne sacks thr thorough flag
  refine ⟨_, _, htraverse, (remembers_endPass hp hlo).trans ?_⟩
  have hgood : (s.startPass sacks thorough flag).Good lo lo hi := by
    refine ⟨⟨rfl, h.tiled, ?_, ?_⟩, rfl⟩
    · rw [startPass, count_nil, zero_add]
      exact h.sack_out
    · rw [startPass, count_nil, zero_add]
      exact h.fack_out
  by_cases hthorough : thorough = true
  · have hend := Pass.loop_thorough hloop hthorough
    have hafter := hstop.resolve_right fun h' => by rw [hend] at h'; exact absurd h'.2 (by decide)
    rw [hafter]
    simp [hthorough]
  · by_cases hfresh : ∀ n ∈ s.nodes, n.flag_ = .retransmitted → ¬ Covered sacks n.getStart
    · have hnil := hsacks.resolve_left hthorough
      have hearly : (s.startPass sacks thorough flag).Early s.fack_ s.acked_rtx_id_ lo lo hi :=
        ⟨hgood, hfack (Bool.eq_false_iff.mpr hthorough), hsorted, hproper,
          Bool.eq_false_iff.mpr hthorough, rfl, hfresh⟩
      obtain ⟨hfound, hleft⟩ := Pass.loop_found hearly hloop
      have hfound' : p.nxt_to_retrx_ ≠ none ↔
          Found (Turns s.fack_ thr s.acked_rtx_id_ sacks) sacks s.nodes := by
        rw [hfound]
        exact ⟨fun h' => (h'.resolve_left fun h'' => h'' rfl).2, fun h' => Or.inr ⟨hnil, h'⟩⟩
      have hleft' (hnone : p.nxt_to_retrx_ = none) :
          (∃ m ∈ p.after, m.flag_ = .lost) ↔ Missed sacks s.nodes := by
        rw [hleft hnone]
        exact iff_of_eq (if_neg hnil)
      by_cases hnone : p.nxt_to_retrx_ = none
      · have hno : (∀ n ∈ p.after, n.flag_ ≠ .lost) ↔ ¬ Missed sacks s.nodes := by
          rw [← hleft' hnone]
          push Not
          exact Iff.rfl
        rw [hno]
        constructor
        · rintro (hne' | hmissed)
          · exact absurd hnone hne'
          · exact Or.inr (Or.inr (Or.inr hmissed))
        · rintro (ht | ⟨n, hn, hflag, hcov⟩ | hfound | hmissed)
          · exact absurd ht hthorough
          · exact absurd hcov (hfresh n hn hflag)
          · exact absurd hnone (hfound'.mpr hfound)
          · exact Or.inr hmissed
      · exact iff_of_true (Or.inl hnone) (Or.inr (Or.inr (Or.inl (hfound'.mp hnone))))
    · -- a retransmitted packet is reported, and so all nodes are looked at
      have hall : p.after = [] := by
        by_contra hafter
        have hfalse := (hstop.resolve_left hafter).2
        exact hfresh (Pass.loop_fresh hgood hsorted hloop hfalse)
      push Not at hfresh
      refine iff_of_true (Or.inr ?_) (Or.inr (Or.inl hfresh))
      rw [hall]
      exact fun n hn => absurd hn List.not_mem_nil

/-- Sorting the blocks does not matter. -/
theorem sameAbove_sortSacks (hproper : Proper last_ack sacks) (x : ℤ) :
    SameAbove x sacks (sortSacks last_ack sacks) :=
  ⟨fun _ hb => hproper.mem_sortSacks.mp hb, fun _ hb => Or.inl (hproper.mem_sortSacks.mpr hb)⟩

/-- The part of `UpdateScoreBoard` after `CleanRtxQueue`, for a scoreboard that is not empty. -/
theorem updateCleaned_remembers (thr : ℤ) (h : Settled lo hi s) (hne : s.nodes ≠ []) (hlo : 0 ≤ lo)
    (hproper : Proper last_ack sacks) {thorough : Bool} (hsacks : thorough = true ∨ sacks ≠ [])
    (flag : AckFlag) :
    ∃ s' flag', s.updateCleaned last_ack sacks thr thorough flag = some (s', flag') ∧
      (s'.Remembers ↔ (thorough = true ∨ s.advanced (sortSacks last_ack sacks) = true) ∨
        (∃ n ∈ s.nodes, n.flag_ = .retransmitted ∧ Covered sacks n.getStart) ∨
        Found (Turns s.fack_ thr s.acked_rtx_id_ sacks) sacks s.nodes ∨ ¬ Missed sacks s.nodes) := by
  obtain ⟨lo', hi', hexact, hnodes, hold, -⟩ :=
    framed_spec h hproper.sort (fun hnil => absurd hnil hne)
  obtain ⟨rfl, rfl, hsame⟩ := hold hne
  have hcases := framed_fack s last_ack (sortSacks last_ack sacks)
  have hsacks' : (thorough || s.advanced (sortSacks last_ack sacks)) = true ∨
      sortSacks last_ack sacks ≠ [] := by
    rcases hsacks with ht | hnil
    · exact Or.inl (by simp [ht])
    · exact Or.inr fun h' => hnil (hproper.sortSacks_eq_nil.mp h')
  obtain ⟨s', flag', htraverse, hiff⟩ := traverse_remembers thr hexact hnodes hlo
    (sorted_sortSacks last_ack sacks) (fun b hb => (hproper.sort b hb).2)
    (thorough || s.advanced (sortSacks last_ack sacks)) (fun hfalse => by
      rcases hcases with ⟨hfack, -⟩ | ⟨hadvanced, -⟩
      · rw [hfack]
        exact h.fack_lt hne
      · simp [hadvanced] at hfalse) hsacks' flag
  refine ⟨s', flag', (updateCleaned_eq hproper hsacks thr flag).trans htraverse, ?_⟩
  rw [hiff, Bool.or_eq_true]
  rcases hcases with ⟨hfack, -⟩ | ⟨hadvanced, -⟩
  · have hsort := sameAbove_sortSacks hproper lo'
    refine or_congr_right (or_congr ?_ (or_congr ?_ ?_))
    · rw [hsame]
      refine exists_congr fun n => and_congr_right fun hn => and_congr_right fun _ => ?_
      exact (hsort.covered (h.tiled.bounds hn).1).symm
    · rw [hfack, hsame]
      exact (hsort.found _ _ _ h.tiled le_rfl).symm
    · rw [hsame]
      exact not_congr (hsort.missed h.tiled le_rfl).symm
  · exact iff_of_true (Or.inl (Or.inr hadvanced)) (Or.inl (Or.inr hadvanced))

/-- After everything was acknowledged no packet is lost, and none is forgotten. -/
theorem updateCleared_remembers (s : ScoreBoard1) (thr : ℤ) (hproper : Proper last_ack sacks)
    (hlast : -1 ≤ last_ack) (flag : AckFlag) :
    ∃ s' flag', s.clearScoreBoard.updateCleaned last_ack sacks thr false flag = some (s', flag') ∧
      s'.Remembers := by
  by_cases hsacks : sacks = []
  · subst hsacks
    refine ⟨_, _, updateCleaned_of_nil, ?_⟩
    exact (remembers_iff (exact_clear s 0) fun hne => absurd rfl hne).mpr
      (Or.inr fun n hn => absurd hn List.not_mem_nil)
  · have hsorted : sortSacks last_ack sacks ≠ [] := fun h' => hsacks (hproper.sortSacks_eq_nil.mp h')
    obtain ⟨lo', hi', hexact, hnodes, -, hnew⟩ :=
      framed_spec (settled_clear s 0) hproper.sort fun _ => hsorted
    obtain ⟨rfl, rfl, hone⟩ := hnew rfl
    obtain ⟨s', flag', htraverse, hiff⟩ := traverse_remembers thr hexact hnodes
      (by omega) (sorted_sortSacks last_ack sacks) (fun b hb => (hproper.sort b hb).2)
      (false || s.clearScoreBoard.advanced (sortSacks last_ack sacks))
      (fun _ => by omega) (Or.inr hsorted) flag
    refine ⟨s', flag', (updateCleaned_eq hproper (Or.inr hsacks) thr flag).trans htraverse,
      hiff.mpr (Or.inr (Or.inr (Or.inr ?_)))⟩
    rw [hone]
    simp [Missed]

/-- The condition is exact, from any state that satisfies the invariant. -/
theorem updateScoreBoard_remembers (thr : ℤ) (h : Settled lo hi s) (hproper : Proper last_ack sacks)
    (hlast : -1 ≤ last_ack) :
    ∃ s' flag, s.updateScoreBoard last_ack sacks thr = some (s', flag) ∧
      (s'.Remembers ↔ s.Keeps last_ack sacks thr) := by
  obtain ⟨s₁, changed, flag₁, lo₁, hclean, hc⟩ := cleanRtxQueue_spec h.toExact last_ack
  rw [updateScoreBoard, hclean, Option.bind_some]
  by_cases hempty : s₁.nodes = []
  · -- everything is acknowledged
    have htrim : trim last_ack s.nodes = [] := hc.nodes.symm.trans hempty
    have hkeeps : s.Keeps last_ack sacks thr := by
      refine Or.inr ?_
      rw [htrim]
      split
      · exact Or.inr fun n hn => absurd hn List.not_mem_nil
      · exact Or.inr (Or.inr (Or.inr id))
    simp only [if_pos hempty]
    obtain ⟨s', flag', hupdate, hremembers⟩ := updateCleared_remembers s₁ thr hproper hlast flag₁
    exact ⟨s', flag', hupdate, iff_of_true hremembers hkeeps⟩
  · have hne : s.nodes ≠ [] := by
      intro hnil
      rw [hc.nodes, hnil] at hempty
      exact hempty rfl
    have hlo : 0 ≤ lo₁ := by
      have := hc.lt hempty
      omega
    have hsettled : Settled lo₁ hi s₁ :=
      ⟨hc.exact, fun hnil => absurd hnil hempty, fun _ => hc.fack ▸ h.fack_lt hne⟩
    have hnewer : changed = true ↔ Newer last_ack s.acked_rtx_id_ s.nodes := by
      rw [hc.changed]
      simp
    simp only [if_neg hempty]
    by_cases hrun : changed = true ∨ sacks ≠ []
    · obtain ⟨s', flag', hupdate, hiff⟩ :=
        updateCleaned_remembers thr hsettled hempty hlo hproper hrun flag₁
      refine ⟨s', flag', hupdate, hiff.trans ?_⟩
      unfold Keeps
      rw [← hnewer]
      by_cases hchanged : changed = true
      · exact iff_of_true (Or.inl (Or.inl hchanged)) (Or.inl hchanged)
      · have hadvanced : s₁.advanced (sortSacks last_ack sacks) =
            s.advanced (sortSacks last_ack sacks) := by
          unfold advanced
          rw [hc.fack]
        rw [if_neg (hrun.resolve_left hchanged), hadvanced, hc.fack, hc.nodes,
          hc.acked (Bool.eq_false_iff.mpr hchanged), or_assoc]
    · rw [not_or] at hrun
      have hsacks : sacks = [] := not_not.mp hrun.2
      have hchanged : changed = false := Bool.eq_false_iff.mpr hrun.1
      subst hsacks hchanged
      refine ⟨_, _, updateCleaned_of_nil, ?_⟩
      rw [remembers_iff hc.exact fun _ => hlo]
      unfold Keeps
      rw [← hnewer, if_pos rfl, ← hc.nodes]
      simp only [Bool.false_eq_true, false_or]
      exact or_congr_left (not_congr (hc.pointer hempty))

/-! ## Runs -/

theorem legal_append {last : ℤ} {ops ops' : List ScoreBoardOp} (h : Legal last (ops ++ ops')) :
    Legal last ops ∧ Legal (lastAck last ops) ops' ∧ last ≤ lastAck last ops := by
  induction ops generalizing last with
  | nil => exact ⟨trivial, h, le_rfl⟩
  | cons op ops ih =>
    cases op with
    | update last_ack sacks thr =>
      obtain ⟨hle, hproper, hlegal⟩ := h
      obtain ⟨h₁, h₂, h₃⟩ := ih hlegal
      exact ⟨⟨hle, hproper, h₁⟩, h₂, hle.trans h₃⟩
    | markLoss una nxt => exact ih h
    | markRetran nxt => exact ih h
    | clear => exact ih h

/-- **Forgotten losses.**  From any state that operations lead to, with acknowledgments that do not
decrease and SACK blocks above them: `GetNextRetran` returns the smallest lost packet after
`UpdateScoreBoard` exactly if the condition holds. -/
theorem updateScoreBoard_remembers_iff (ops : List ScoreBoardOp) (last_ack : ℤ)
    (sacks : List (ℤ × ℤ)) (thr : ℤ) (hlegal : Legal (-1) (ops ++ [.update last_ack sacks thr])) :
    ∃ s s' flag, new.run ops = some s ∧ s.updateScoreBoard last_ack sacks thr = some (s', flag) ∧
      (s'.Remembers ↔ s.Keeps last_ack sacks thr) := by
  obtain ⟨hlegal₁, ⟨hle, hproper, -⟩, hlast⟩ := legal_append hlegal
  obtain ⟨s, lo, hi, hrun, hs, -⟩ := run_spec 1 ops (settled_new 0) hlegal₁
  obtain ⟨s', flag, hupdate, hiff⟩ :=
    updateScoreBoard_remembers thr hs hproper (hlast.trans hle)
  exact ⟨s, s', flag, hrun, hupdate, hiff⟩

/-- Packets 2 and 4 are lost, and packet 2 is retransmitted. -/
def twoLost : List ScoreBoardOp := [.update 0 [(1, 2), (3, 4), (5, 9)] 3, .markRetran 20]

/-- A SACK block further up is reported. -/
theorem updateScoreBoard_remembers_iff_ten :
    ∃ s s' flag, new.run twoLost = some s ∧ s.updateScoreBoard 0 [(1, 10)] 3 = some (s', flag) ∧
      (s'.Remembers ↔ s.Keeps 0 [(1, 10)] 3) :=
  updateScoreBoard_remembers_iff twoLost 0 [(1, 10)] 3
    ⟨by decide, by simp [Proper], le_rfl, by simp [Proper], trivial⟩

/-- **Packet 4 is forgotten.**  The block of packet 1 is reported once more. -/
theorem not_remembers :
    ¬ ∀ ops last_ack sacks thr, Legal (-1) (ops ++ [.update last_ack sacks thr]) →
      ∀ s s' flag, new.run ops = some s →
        s.updateScoreBoard last_ack sacks thr = some (s', flag) → s'.Remembers := by
  intro h
  have hrun : ((new.run twoLost).bind fun s => (s.updateScoreBoard 0 [(1, 2)] 3).map fun r =>
      (r.1.getNextRetran.2, r.1.packets .lost)) = some (-1, {4}) := by decide +kernel
  obtain ⟨s, hs, hupdate⟩ := Option.bind_eq_some_iff.mp hrun
  obtain ⟨⟨s', flag⟩, hs', heq⟩ := Option.map_eq_some_iff.mp hupdate
  obtain ⟨hret, hlost⟩ := Prod.mk.inj heq
  have hremembers := h twoLost 0 [(1, 2)] 3
    ⟨by decide, by simp [Proper], le_rfl, by simp [Proper], trivial⟩ s s' flag hs hs'
  have hempty := hremembers.none.mp hret
  rw [hlost] at hempty
  exact absurd hempty (by decide)

end ScoreBoard1

end Ns2.Linux
