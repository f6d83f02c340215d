import Ns2.Sctp.SackChunk

/-!
# The blocks of an NR-SACK

The TSNs that will not be reneged are cut out of the received blocks, and both kinds of blocks are
written into the chunk.

* `buildBlocks_runs` — the blocks that `BuildNonRenegTsnBlockList` makes of a list of TSNs.
* `cutBlock`, `cutBlocks` — the blocks that are left of the received ones, without regard to sizes.
* `genGapBlocks_eq` — the loops of `GenChunk` write those blocks if there is room.
* `nrSack_partition` — what is read back from the chunk.
-/

namespace Ns2.Sctp

open Intervals Receiver

variable {T T' : Set ℤ} {l l' nr gaps : List TsnBlock} {ts : List ℤ} {b g : TsnBlock}
  {s e p c t : ℤ}

/-! ## Runs of a set -/

theorem Runs.nil : Runs ∅ [] := ⟨Separated.nil, tsns_nil⟩

theorem Runs.append (h : Runs T l) (h' : Runs T' l') (hlt : ∀ t ∈ T, ∀ t' ∈ T', t + 1 < t') :
    Runs (T ∪ T') (l ++ l') := by
  refine ⟨h.apart.append h'.apart fun x hx y hy => ?_, by rw [tsns_append, h.tsns, h'.tsns]⟩
  have hx' : x.uiEndTsn ∈ T := by
    have hpos : x.uiStartTsn < x.uiEndTsn + 1 := h.apart.pos x hx
    exact h.tsns ▸ mem_tsns.mpr ⟨x, hx, by omega, le_rfl⟩
  have hy' : y.uiStartTsn ∈ T' := by
    have hpos : y.uiStartTsn < y.uiEndTsn + 1 := h'.apart.pos y hy
    exact h'.tsns ▸ mem_tsns.mpr ⟨y, hy, le_rfl, by omega⟩
  exact hlt _ hx' _ hy'

/-- The TSNs from `s` to `e`, which may be none. -/
def piece (s e : ℤ) : List TsnBlock := if s ≤ e then [⟨s, e⟩] else []

theorem piece_runs : Runs (Set.Icc s e) (piece s e) := by
  rw [piece]
  split
  · refine ⟨⟨?_, List.pairwise_singleton _ _⟩, ?_⟩
    · simp [TsnBlock.stop]
      omega
    · ext t
      simp [TsnBlock.stop]
  · rw [Set.Icc_eq_empty (by omega)]
    exact Runs.nil

/-! ## `BuildNonRenegTsnBlockList` -/

/-- The loop inside a block that is not the last of the list. -/
theorem buildBlocks_block (hne : ts ≠ []) (hts : (p :: ts).Pairwise (· < ·)) (hs : s ≤ p)
    (hs0 : s ≠ 0) (hc : ∀ t ∈ ts, c < t ∧ t ≠ 0) :
    Runs (Set.Icc s p ∪ {t | t ∈ ts}) (buildBlocks c s p p ts).2 := by
  induction ts generalizing s p with
  | nil => exact absurd rfl hne
  | cons t ts ih =>
    obtain ⟨hp, hts'⟩ := List.pairwise_cons.mp hts
    obtain ⟨ht, -⟩ := List.pairwise_cons.mp hts'
    have hpt : p < t := hp t List.mem_cons_self
    obtain ⟨hct, ht0⟩ := hc t List.mem_cons_self
    have hcts : ∀ x ∈ ts, c < x ∧ x ≠ 0 := fun x hx => hc x (List.mem_cons_of_mem t hx)
    rw [buildBlocks, if_neg (not_le.mpr hct), if_neg hs0]
    have hset : {x | x ∈ t :: ts} = {t} ∪ {x | x ∈ ts} := by
      ext x
      simp
    have hlate : ∀ x ∈ Set.Icc t t ∪ {x | x ∈ ts}, t ≤ x := by
      rintro x (hx | hx)
      · exact hx.1
      · exact (ht x hx).le
    by_cases hnext : p = t - 1
    · have hIcc : Set.Icc s p ∪ {t} = Set.Icc s t := by
        ext x
        simp only [Set.mem_union, Set.mem_Icc, Set.mem_singleton_iff]
        omega
      rw [hset, ← Set.union_assoc, hIcc]
      by_cases hnil : ts = []
      · subst hnil
        have hrun : Runs (Set.Icc s t) [⟨s, t⟩] := by
          have := piece_runs (s := s) (e := t)
          rwa [piece, if_pos (by omega)] at this
        simpa [hnext, buildBlocks] using hrun
      · simp only [hnext, ne_eq, not_true_eq_false, false_or, if_neg hnil]
        exact ih hnil hts' (by omega) hs0 hcts
    · have hrun : Runs (Set.Icc s p) [⟨s, p⟩] := by
        have := piece_runs (s := s) (e := p)
        rwa [piece, if_pos hs] at this
      have hone : Set.Icc t t = {t} := Set.Icc_self t
      have hrest : Runs (Set.Icc t t ∪ {x | x ∈ ts})
          ((if ts = [] ∧ p ≠ t then [(⟨t, t⟩ : TsnBlock)] else []) ++ (buildBlocks c t t t ts).2) := by
        by_cases hnil : ts = []
        · subst hnil
          have hrun : Runs (Set.Icc t t) [⟨t, t⟩] := by
            have := piece_runs (s := t) (e := t)
            rwa [piece, if_pos le_rfl] at this
          simpa [buildBlocks, hpt.ne] using hrun
        · rw [if_neg (fun h => hnil h.1), List.nil_append]
          exact ih hnil hts' le_rfl ht0 hcts
      have happ := hrun.append hrest fun x hx y hy => by
        have h1 := hx.2
        have h2 := hlate y hy
        omega
      rw [hset, ← hone]
      simp only [ne_eq, hnext, not_false_eq_true, true_or, if_true]
      simpa using happ

/-- **The blocks are the maximal runs of the TSNs above the cumulative ack.** -/
theorem buildBlocks_runs (hts : ts.Pairwise (· < ·)) (hc : 0 ≤ c) :
    Runs ({t | t ∈ ts} ∩ Set.Ioi c) (buildBlocks c 0 e p ts).2 := by
  induction ts generalizing e p with
  | nil =>
    have hset : {t : ℤ | t ∈ ([] : List ℤ)} ∩ Set.Ioi c = ∅ := by simp
    rw [hset]
    exact Runs.nil
  | cons t ts ih =>
    obtain ⟨ht, hts'⟩ := List.pairwise_cons.mp hts
    rw [buildBlocks]
    by_cases hle : t ≤ c
    · have hset : {x | x ∈ t :: ts} ∩ Set.Ioi c = {x | x ∈ ts} ∩ Set.Ioi c := by
        ext x
        simp only [Set.mem_inter_iff, Set.mem_ofPred_eq, List.mem_cons, Set.mem_Ioi]
        refine and_congr_left fun hx => or_iff_right ?_
        rintro rfl
        omega
      rw [if_pos hle, hset]
      exact ih hts'
    · have hset : {x | x ∈ t :: ts} ∩ Set.Ioi c = Set.Icc t t ∪ {x | x ∈ ts} := by
        ext x
        simp only [Set.mem_inter_iff, Set.mem_ofPred_eq, List.mem_cons, Set.mem_Ioi, Set.Icc_self,
          Set.mem_union, Set.mem_singleton_iff]
        refine and_iff_left_of_imp ?_
        rintro (rfl | hx)
        · omega
        · have := ht x hx
          omega
      rw [if_neg hle, if_pos rfl, hset]
      by_cases hnil : ts = []
      · subst hnil
        have := piece_runs (s := t) (e := t)
        rw [piece, if_pos le_rfl] at this
        simpa using this
      · rw [if_neg hnil]
        exact buildBlocks_block hnil hts le_rfl (by omega) fun x hx => by
          have := ht x hx
          omega

/-! ## Received blocks without the non-renegable TSNs -/

/-- The pieces of the TSNs from `s` to `e` between the blocks of a list, and the blocks that are
behind them. -/
def cutBlock (e : ℤ) : ℤ → List TsnBlock → List TsnBlock × List TsnBlock
  | s, [] => (piece s e, [])
  | s, b :: nr =>
    if e < b.uiStartTsn then (piece s e, b :: nr)
    else
      (piece s (b.uiStartTsn - 1) ++ (cutBlock e (b.uiEndTsn + 1) nr).1,
        (cutBlock e (b.uiEndTsn + 1) nr).2)

/-- The pieces of all blocks. -/
def cutBlocks : List TsnBlock → List TsnBlock → List TsnBlock
  | [], _ => []
  | g :: gaps, nr =>
    (cutBlock g.uiEndTsn g.uiStartTsn nr).1 ++
      cutBlocks gaps (cutBlock g.uiEndTsn g.uiStartTsn nr).2

/-- The blocks of `nr` are apart, not before `s`, and do not reach over `e`. -/
structure Within (s e : ℤ) (nr : List TsnBlock) : Prop where
  apart : Apart nr
  start_ge : ∀ b ∈ nr, s ≤ b.uiStartTsn
  inside : ∀ b ∈ nr, b.uiStartTsn ≤ e → b.uiEndTsn ≤ e

theorem Within.tail (h : Within s e (b :: nr)) : Within (b.uiEndTsn + 1) e nr where
  apart := h.apart.sublist (List.sublist_cons_self b nr)
  start_ge x hx := by
    have hgap : b.uiEndTsn + 1 < x.uiStartTsn := (List.pairwise_cons.mp h.apart.gap).1 x hx
    exact hgap.le
  inside x hx := h.inside x (List.mem_cons_of_mem b hx)

theorem Within.head_le (h : Within s e (b :: nr)) :
    s ≤ b.uiStartTsn ∧ b.uiStartTsn ≤ b.uiEndTsn := by
  have hpos : b.uiStartTsn < b.uiEndTsn + 1 := h.apart.pos b List.mem_cons_self
  exact ⟨h.start_ge b List.mem_cons_self, by omega⟩

/-- No block of the tail is next to the head. -/
theorem Within.tail_gt (h : Within s e (b :: nr)) (ht : t ∈ tsns nr) : b.uiEndTsn + 1 < t := by
  obtain ⟨x, hx, hle, -⟩ := mem_tsns.mp ht
  have hgap : b.uiEndTsn + 1 < x.uiStartTsn := (List.pairwise_cons.mp h.apart.gap).1 x hx
  omega

theorem cutBlock_runs (h : Within s e nr) : Runs (Set.Icc s e \ tsns nr) (cutBlock e s nr).1 := by
  induction nr generalizing s with
  | nil =>
    rw [tsns_nil, Set.sdiff_empty]
    exact piece_runs
  | cons b nr ih =>
    have hb := h.head_le
    rw [cutBlock]
    by_cases hlt : e < b.uiStartTsn
    · have hset : Set.Icc s e \ tsns (b :: nr) = Set.Icc s e := by
        refine sdiff_eq_left.mpr (Set.disjoint_left.mpr fun t ht hmem => ?_)
        obtain ⟨x, hx, hle, -⟩ := mem_tsns.mp hmem
        have ht' := ht.2
        rcases List.mem_cons.mp hx with rfl | hx
        · omega
        · have := h.tail.start_ge x hx
          omega
      rw [if_pos hlt, hset]
      exact piece_runs
    · have hset : Set.Icc s e \ tsns (b :: nr) =
          Set.Icc s (b.uiStartTsn - 1) ∪ (Set.Icc (b.uiEndTsn + 1) e \ tsns nr) := by
        have hlate : ∀ t ∈ tsns nr, b.uiEndTsn + 1 < t := fun t ht => h.tail_gt ht
        ext t
        have ht := hlate t
        simp only [tsns_cons, Set.mem_sdiff, Set.mem_union, Set.mem_Icc, Set.mem_Ico, TsnBlock.stop]
        constructor
        · rintro ⟨h1, h2⟩
          by_cases hbefore : t ≤ b.uiStartTsn - 1
          · exact Or.inl ⟨h1.1, hbefore⟩
          · exact Or.inr ⟨by omega, fun hmem => h2 (Or.inr hmem)⟩
        · rintro (h1 | ⟨h1, h2⟩)
          · refine ⟨by omega, ?_⟩
            rintro (h3 | h3)
            · omega
            · have := ht h3
              omega
          · refine ⟨by omega, ?_⟩
            rintro (h3 | h3)
            · omega
            · exact h2 h3
      rw [if_neg hlt, hset]
      refine piece_runs.append (ih h.tail) fun x hx y hy => ?_
      have h1 := hx.2
      have h2 := hy.1.1
      omega

/-- The blocks that are passed are inside, and those left are behind. -/
theorem cutBlock_rest (h : Within s e nr) :
    ∃ passed, nr = passed ++ (cutBlock e s nr).2 ∧ (∀ b ∈ passed, b.uiEndTsn ≤ e) ∧
      ∀ b ∈ (cutBlock e s nr).2, e < b.uiStartTsn := by
  induction nr generalizing s with
  | nil => exact ⟨[], rfl, by simp, by simp [cutBlock]⟩
  | cons b nr ih =>
    rw [cutBlock]
    by_cases hlt : e < b.uiStartTsn
    · rw [if_pos hlt]
      refine ⟨[], rfl, by simp, fun x hx => ?_⟩
      rcases List.mem_cons.mp hx with rfl | hx
      · exact hlt
      · have h1 := h.tail.start_ge x hx
        have h2 := h.head_le
        omega
    · rw [if_neg hlt]
      obtain ⟨passed, hsplit, hin, hrest⟩ := ih h.tail
      refine ⟨b :: passed, by rw [List.cons_append, ← hsplit], fun x hx => ?_, hrest⟩
      rcases List.mem_cons.mp hx with rfl | hx
      · exact h.inside x List.mem_cons_self (not_lt.mp hlt)
      · exact hin x hx

/-- Blocks that cover received TSNs only do not reach over the end of a received block. -/
theorem within_of_subset (hg : Apart (g :: gaps)) (hnr : Apart nr)
    (hsub : tsns nr ⊆ tsns (g :: gaps)) : Within g.uiStartTsn g.uiEndTsn nr := by
  have hgap : ∀ x ∈ gaps, g.uiEndTsn + 1 < x.uiStartTsn := (List.pairwise_cons.mp hg.gap).1
  have hpos : g.uiStartTsn < g.uiEndTsn + 1 := hg.pos g List.mem_cons_self
  refine ⟨hnr, fun b hb => ?_, fun b hb hle => ?_⟩
  · have hbpos : b.uiStartTsn < b.uiEndTsn + 1 := hnr.pos b hb
    obtain ⟨x, hx, hxle, -⟩ := mem_tsns.mp (hsub (mem_tsns.mpr ⟨b, hb, le_rfl, by omega⟩))
    rcases List.mem_cons.mp hx with rfl | hx
    · exact hxle
    · have := hgap x hx
      omega
  · by_contra hlt
    obtain ⟨x, hx, h1, h2⟩ :=
      mem_tsns.mp (hsub (mem_tsns.mpr ⟨b, hb, (by omega : b.uiStartTsn ≤ g.uiEndTsn + 1), by omega⟩))
    rcases List.mem_cons.mp hx with rfl | hx
    · omega
    · have := hgap x hx
      omega

/-- What is left of the non-renegable blocks is in the later received blocks. -/
theorem cutBlock_rest_subset (hg : Apart (g :: gaps)) (hnr : Apart nr)
    (hsub : tsns nr ⊆ tsns (g :: gaps)) :
    Apart (cutBlock g.uiEndTsn g.uiStartTsn nr).2 ∧
      tsns (cutBlock g.uiEndTsn g.uiStartTsn nr).2 ⊆ tsns gaps ∧
      ∀ t ∈ tsns gaps, (t ∈ tsns nr ↔ t ∈ tsns (cutBlock g.uiEndTsn g.uiStartTsn nr).2) := by
  obtain ⟨passed, hsplit, hin, hrest⟩ := cutBlock_rest (within_of_subset hg hnr hsub)
  have hgap : ∀ x ∈ gaps, g.uiEndTsn + 1 < x.uiStartTsn := (List.pairwise_cons.mp hg.gap).1
  generalize (cutBlock g.uiEndTsn g.uiStartTsn nr).2 = rest at hsplit hrest
  subst hsplit
  refine ⟨hnr.right, fun t ht => ?_, fun t ht => ?_⟩
  · have hmem := hsub (show t ∈ tsns (passed ++ rest) by
      rw [tsns_append]
      exact Or.inr ht)
    rw [tsns_cons] at hmem
    refine hmem.resolve_left fun h => ?_
    obtain ⟨x, hx, hle, -⟩ := mem_tsns.mp ht
    have h1 := hrest x hx
    have h2 : t < g.uiEndTsn + 1 := h.2
    omega
  · rw [tsns_append]
    refine or_iff_right fun hpassed => ?_
    obtain ⟨x, hx, -, hle⟩ := mem_tsns.mp hpassed
    obtain ⟨y, hy, hle', -⟩ := mem_tsns.mp ht
    have h1 := hin x hx
    have h2 := hgap y hy
    omega

/-- **The pieces are the maximal runs of the received TSNs that may be reneged.** -/
theorem cutBlocks_runs (hg : Apart gaps) (hnr : Apart nr) (hsub : tsns nr ⊆ tsns gaps) :
    Runs (tsns gaps \ tsns nr) (cutBlocks gaps nr) := by
  induction gaps generalizing nr with
  | nil =>
    rw [tsns_nil, Set.empty_sdiff]
    exact Runs.nil
  | cons g gaps ih =>
    have hwithin := within_of_subset hg hnr hsub
    obtain ⟨hap, hrest, hiff⟩ := cutBlock_rest_subset hg hnr hsub
    have hgap : ∀ x ∈ gaps, g.uiEndTsn + 1 < x.uiStartTsn := (List.pairwise_cons.mp hg.gap).1
    have hIco : Set.Ico g.uiStartTsn g.stop = Set.Icc g.uiStartTsn g.uiEndTsn := by
      ext t
      exact and_congr_right' Int.lt_add_one_iff
    have hlater : tsns gaps \ tsns nr =
        tsns gaps \ tsns (cutBlock g.uiEndTsn g.uiStartTsn nr).2 := by
      ext t
      exact and_congr_right fun ht => not_congr (hiff t ht)
    rw [cutBlocks, tsns_cons, hIco, Set.union_sdiff_distrib, hlater]
    refine (cutBlock_runs hwithin).append (ih (hg.sublist (List.sublist_cons_self g gaps)) hap hrest)
      fun x hx y hy => ?_
    obtain ⟨z, hz, hle, -⟩ := mem_tsns.mp hy.1
    have h1 := hx.1.2
    have h2 := hgap z hz
    omega

/-! ## The loops of `GenChunk` -/

variable {uiMaxDataSize iSize rounds k : ℕ}

theorem piece_of_lt (h : e < s) : piece s e = [] := by rw [piece, if_neg (by omega)]

theorem piece_of_le (h : s ≤ e) : piece s e = [⟨s, e⟩] := by rw [piece, if_pos h]

/-- Nothing is left of a block that ends before the next non-renegable one. -/
theorem cutBlock_end (h : Within s e nr) (hs : e < s) : cutBlock e s nr = ([], nr) := by
  cases nr with
  | nil => rw [cutBlock, piece_of_lt hs]
  | cons b nr => rw [cutBlock, if_pos (hs.trans_le h.head_le.1), piece_of_lt hs]

/-- The round that finds the left edges the same. -/
theorem splitLoop_skip (hb : b.uiStartTsn ≤ e) (hroom : iSize + 4 < uiMaxDataSize) :
    splitLoop uiMaxDataSize e (rounds + 1) iSize b.uiStartTsn (b :: nr) =
      if nr = [] then
        some (iSize + 4 * (piece (b.uiEndTsn + 1) e).length, piece (b.uiEndTsn + 1) e, [])
      else splitLoop uiMaxDataSize e rounds iSize (b.uiEndTsn + 1) nr := by
  rw [splitLoop, if_pos ⟨hb, hroom⟩]
  simp only [gt_iff_lt, not_lt.mpr hb, if_false, if_true]
  refine if_congr Iff.rfl ?_ rfl
  by_cases hle : b.uiEndTsn + 1 ≤ e
  · rw [if_pos hle, piece_of_le hle]
    rfl
  · rw [if_neg hle, piece_of_lt (not_le.mp hle)]
    rfl

/-- The loop writes the pieces of a block, while there is room for one entry more. -/
theorem splitLoop_eq (hne : nr ≠ []) (h : Within s e nr) (hrounds : 2 * nr.length + 1 ≤ rounds)
    (hroom : iSize + 4 * ((cutBlock e s nr).1.length + 1) < uiMaxDataSize) :
    splitLoop uiMaxDataSize e rounds iSize s nr =
      some (iSize + 4 * (cutBlock e s nr).1.length, (cutBlock e s nr).1, (cutBlock e s nr).2) := by
  induction nr generalizing s iSize rounds with
  | nil => exact absurd rfl hne
  | cons b nr ih =>
    obtain ⟨rounds, rfl⟩ : ∃ n, rounds = n + 2 := ⟨rounds - 2, by
      rw [List.length_cons] at hrounds
      omega⟩
    have hb := h.head_le
    by_cases hse : e < s
    · rw [cutBlock_end h hse, splitLoop, if_neg (fun hc => by omega)]
      rfl
    · by_cases hlt : e < b.uiStartTsn
      · have hcut : cutBlock e s (b :: nr) = ([⟨s, e⟩], b :: nr) := by
          rw [cutBlock, if_pos hlt, piece_of_le (not_lt.mp hse)]
        rw [hcut, splitLoop, if_pos ⟨not_lt.mp hse, by omega⟩]
        simp [hlt]
      · have hcut : cutBlock e s (b :: nr) = (piece s (b.uiStartTsn - 1) ++
            (cutBlock e (b.uiEndTsn + 1) nr).1, (cutBlock e (b.uiEndTsn + 1) nr).2) := by
          rw [cutBlock, if_neg hlt]
        rw [hcut] at hroom ⊢
        -- the non-renegable block is passed, whether or not a piece is written before it
        have hskip : ∀ (n size : ℕ), 2 * nr.length + 1 ≤ n →
            size + 4 * ((cutBlock e (b.uiEndTsn + 1) nr).1.length + 1) < uiMaxDataSize →
            splitLoop uiMaxDataSize e (n + 1) size b.uiStartTsn (b :: nr) =
              some (size + 4 * (cutBlock e (b.uiEndTsn + 1) nr).1.length,
                (cutBlock e (b.uiEndTsn + 1) nr).1, (cutBlock e (b.uiEndTsn + 1) nr).2) := by
          intro n size hn hsize
          rw [splitLoop_skip (not_lt.mp hlt) (by omega)]
          by_cases hnil : nr = []
          · subst hnil
            rw [if_pos rfl, cutBlock]
          · rw [if_neg hnil]
            exact ih hnil h.tail hn hsize
        rw [List.length_cons] at hrounds
        by_cases heq : s = b.uiStartTsn
        · subst heq
          rw [piece_of_lt (by omega), List.nil_append] at hroom ⊢
          exact hskip (rounds + 1) iSize (by omega) hroom
        · have hsb : s < b.uiStartTsn := lt_of_le_of_ne hb.1 heq
          rw [piece_of_le (by omega), List.singleton_append, List.length_cons] at hroom ⊢
          rw [splitLoop, if_pos ⟨not_lt.mp hse, by omega⟩]
          simp only [gt_iff_lt, hlt, if_false, heq, hsb, if_true]
          rw [hskip rounds (iSize + 4) (by omega) (by omega), Option.map_some]
          congr 2
          omega

/-- **The loops write the pieces of all blocks**, while there is room for them and for the `k`
non-renegable blocks. -/
theorem genGapBlocks_eq (hg : Apart gaps) (hnr : Apart nr) (hsub : tsns nr ⊆ tsns gaps)
    (hk : nr ≠ [] → 1 ≤ k)
    (hroom : iSize + 4 * ((cutBlocks gaps nr).length + k) < uiMaxDataSize) :
    genGapBlocks uiMaxDataSize iSize gaps nr =
      some (iSize + 4 * (cutBlocks gaps nr).length, cutBlocks gaps nr) := by
  induction gaps generalizing nr iSize with
  | nil => simp [genGapBlocks, cutBlocks]
  | cons g gaps ih =>
    have hwithin := within_of_subset hg hnr hsub
    obtain ⟨hap, hrest, -⟩ := cutBlock_rest_subset hg hnr hsub
    have hgpos : g.uiStartTsn < g.uiEndTsn + 1 := hg.pos g List.mem_cons_self
    have hgaps : Apart gaps := hg.sublist (List.sublist_cons_self g gaps)
    have hk' : (cutBlock g.uiEndTsn g.uiStartTsn nr).2 ≠ [] → 1 ≤ k := by
      intro hne
      obtain ⟨passed, hsplit, -⟩ := cutBlock_rest hwithin
      exact hk fun hnil => hne (List.append_eq_nil_iff.mp (hsplit.symm.trans hnil)).2
    have hlater : ∀ size, size + 4 * ((cutBlocks gaps (cutBlock g.uiEndTsn g.uiStartTsn nr).2).length
        + k) < uiMaxDataSize → genGapBlocks uiMaxDataSize size gaps _ = some (_, _) :=
      fun size hsize => ih hgaps hap hrest hk' hsize
    rw [cutBlocks, List.length_append] at hroom ⊢
    generalize hcut : cutBlock g.uiEndTsn g.uiStartTsn nr = cut at hroom hlater ⊢
    -- a received block that is written whole
    have hwhole : cut = ([g], nr) →
        iSize + 4 < uiMaxDataSize ∧
        (genGapBlocks uiMaxDataSize (iSize + 4) gaps nr).map (fun res => (res.1, g :: res.2)) =
          some (iSize + 4 * (cut.1.length + (cutBlocks gaps cut.2).length),
            cut.1 ++ cutBlocks gaps cut.2) := by
      rintro rfl
      rw [List.length_singleton] at hroom ⊢
      rw [hlater (iSize + 4) (by omega), Option.map_some]
      refine ⟨by omega, ?_⟩
      rw [Nat.mul_add, ← Nat.add_assoc]
      rfl
    have hg' : piece g.uiStartTsn g.uiEndTsn = [g] := piece_of_le (by omega)
    cases nr with
    | nil =>
      rw [cutBlock, hg'] at hcut
      obtain ⟨hsize, hres⟩ := hwhole hcut.symm
      rw [genGapBlocks, if_pos hsize]
      exact hres
    | cons b nr =>
      have hb := hwithin.head_le
      by_cases hlt : g.uiEndTsn < b.uiStartTsn
      · rw [cutBlock, if_pos hlt, hg'] at hcut
        obtain ⟨hsize, hres⟩ := hwhole hcut.symm
        rw [genGapBlocks, if_pos hsize]
        simp only [hlt, if_true]
        exact hres
      · have hone := hk (List.cons_ne_nil b nr)
        rw [genGapBlocks, if_pos (by omega)]
        simp only [hlt, if_false, hb.1, not_lt.mp hlt, and_self, if_true]
        by_cases heq : g.uiStartTsn = b.uiStartTsn ∧ g.uiEndTsn = b.uiEndTsn
        · have hnil : cut = ([], nr) := by
            rw [← hcut, cutBlock, if_neg hlt, cutBlock_end hwithin.tail (by omega),
              piece_of_lt (by omega)]
            rfl
          subst hnil
          rw [if_pos heq, hlater iSize (by simpa using hroom)]
          simp
        · rw [if_neg heq, splitLoop_eq (List.cons_ne_nil b nr) hwithin le_rfl (by
            rw [hcut]
            omega), hcut]
          rw [Option.bind_some, hlater _ (by omega), Option.map_some]
          congr 2
          omega

/-! ## The chunk -/

/-- Blocks that are apart and in a range are no more than the range has numbers. -/
theorem length_le_of_apart (lo hi : ℤ) (h : Apart l)
    (hin : ∀ b ∈ l, lo < b.uiStartTsn ∧ b.uiEndTsn ≤ hi) (hle : lo ≤ hi) :
    (l.length : ℤ) ≤ hi - lo := by
  induction l generalizing lo with
  | nil => simpa using hle
  | cons b l ih =>
    have hgap : ∀ x ∈ l, b.uiEndTsn + 1 < x.uiStartTsn := (List.pairwise_cons.mp h.gap).1
    have hpos : b.uiStartTsn < b.uiEndTsn + 1 := h.pos b List.mem_cons_self
    have hb := hin b List.mem_cons_self
    have := ih b.uiEndTsn (h.sublist (List.sublist_cons_self b l))
      (fun x hx => ⟨by have := hgap x hx; omega, (hin x (List.mem_cons_of_mem b hx)).2⟩) hb.2
    rw [List.length_cons]
    push_cast
    omega

/-- Blocks in a covered set are between the ends of the covering ones. -/
theorem within_offsets {recv : List TsnBlock}
    (habove : ∀ b ∈ recv, c < b.uiStartTsn) (hoff : ∀ b ∈ recv, b.uiEndTsn - c < 2 ^ 16)
    (hl : Apart l) (hsub : tsns l ⊆ tsns recv) (hb : b ∈ l) :
    c < b.uiStartTsn ∧ b.uiStartTsn ≤ b.uiEndTsn ∧ b.uiEndTsn - c < 2 ^ 16 := by
  have hpos : b.uiStartTsn < b.uiEndTsn + 1 := hl.pos b hb
  obtain ⟨x, hx, hx1, -⟩ := mem_tsns.mp (hsub (mem_tsns.mpr ⟨b, hb, le_rfl, by omega⟩))
  obtain ⟨y, hy, -, hy2⟩ := mem_tsns.mp (hsub (mem_tsns.mpr ⟨b, hb, by omega, le_rfl⟩))
  have h1 := habove x hx
  have h2 := hoff y hy
  exact ⟨by omega, by omega, by omega⟩

/-- Blocks that are near the cumulative ack are read back. -/
theorem map_blockOf_word (h : ∀ b ∈ l, c < b.uiStartTsn ∧ b.uiStartTsn ≤ b.uiEndTsn ∧
    b.uiEndTsn - c < 2 ^ 16) : (l.map (TsnBlock.word c)).map (blockOf c) = l := by
  rw [List.map_map]
  conv_rhs => rw [← List.map_id l]
  refine List.map_congr_left fun b hb => ?_
  obtain ⟨h1, h2, h3⟩ := h b hb
  exact (blockOf_word_iff h1 h2).mpr h3

theorem readBlocks_words {ws : List ℕ} (h : ∀ b ∈ l, c < b.uiStartTsn ∧ b.uiStartTsn ≤ b.uiEndTsn ∧
    b.uiEndTsn - c < 2 ^ 16) :
    readBlocks c l.length (l.map (TsnBlock.word c) ++ ws) = some l := by
  have hread : readBlocks c (l.map (TsnBlock.word c)).length (l.map (TsnBlock.word c) ++ ws) = _ :=
    readBlocks_append
  rw [List.length_map, map_blockOf_word h] at hread
  exact hread

/-- The chunk that is built, when the pieces of the received blocks and the non-renegable blocks
have room. -/
theorem nrSack_eq {r : Receiver} {gs : List TsnBlock}
    (hgs : cutBlocks r.sRecvTsnBlockList r.sNonRenegTsnBlockList = gs)
    (hg : Apart r.sRecvTsnBlockList) (hnr : Apart r.sNonRenegTsnBlockList)
    (hsub : tsns r.sNonRenegTsnBlockList ⊆ tsns r.sRecvTsnBlockList)
    (hroom : 20 + 4 * (gs.length + r.sNonRenegTsnBlockList.length) < uiMaxDataSize) :
    ∃ chunk r' dups, r.GenNonRenegSack uiMaxDataSize = some (chunk, r') ∧
      chunk.uiCumAck = r.uiCumAck ∧ chunk.usNumGapAckBlocks = gs.length % 2 ^ 16 ∧
      chunk.usNumNonRenegSackBlocks = r.sNonRenegTsnBlockList.length % 2 ^ 16 ∧
      chunk.entries = gs.map (TsnBlock.word r.uiCumAck) ++
        (r.sNonRenegTsnBlockList.map (TsnBlock.word r.uiCumAck) ++ dups) := by
  have hgen : genGapBlocks uiMaxDataSize 20 r.sRecvTsnBlockList r.sNonRenegTsnBlockList =
      some (20 + 4 * gs.length, gs) := by
    subst hgs
    exact genGapBlocks_eq hg hnr hsub (fun hne => List.length_pos_iff.mpr hne) hroom
  have hall : r.sNonRenegTsnBlockList.length ≤ room uiMaxDataSize (20 + 4 * gs.length) := by
    rw [room]
    omega
  have hblocks : (appendWords (TsnBlock.word r.uiCumAck) uiMaxDataSize (20 + 4 * gs.length)
      r.sNonRenegTsnBlockList).2.1 = r.sNonRenegTsnBlockList.map (TsnBlock.word r.uiCumAck) := by
    rw [appendWords_eq, List.take_of_length_le hall]
  rw [GenNonRenegSack, hgen, Option.map_some]
  refine ⟨_, _, (r.appendDups uiMaxDataSize (appendWords (TsnBlock.word r.uiCumAck) uiMaxDataSize
    (20 + 4 * gs.length) r.sNonRenegTsnBlockList).1).2.1, rfl, rfl, rfl, rfl, ?_⟩
  rw [hblocks, List.append_assoc]

/-- A receiver with two blocks, in which four TSNs are not reneged. -/
def withNonReneg : Receiver :=
  { withBlocks [⟨3, 9⟩, ⟨12, 12⟩] [] with
    sNonRenegTsnList := [1, 4, 5, 7, 12]
    uiCumAck := 1 }

end Ns2.Sctp
