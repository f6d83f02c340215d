import Ns2.Lib.Intervals
import Ns2.Sctp.Receiver

/-!
# The blocks of received TSNs

What `UpdateRecvTsnBlocks`, `UpdateCumAck` and `IsDuplicateChunk` make of the cumulative ack and
of the list of blocks, one TSN at a time.

* `Runs T l` — the blocks `l` are the maximal runs of the set `T`, in ascending order.
* `Exact S c l` — `c` and `l` describe the set `S` of TSNs.
* `updateBlocks_exact` — one TSN more.
* `inBlocks_iff` — the search in the blocks.
-/

namespace Ns2.Sctp

open Intervals

/-- The first TSN behind a block. -/
def TsnBlock.stop (b : TsnBlock) : ℤ := b.uiEndTsn + 1

/-- The TSNs in some blocks. -/
def tsns (l : List TsnBlock) : Set ℤ := cover TsnBlock.uiStartTsn TsnBlock.stop l

/-- The blocks are not empty, ascend, and are not even adjacent. -/
abbrev Apart (l : List TsnBlock) : Prop := Separated TsnBlock.uiStartTsn TsnBlock.stop l

/-- The maximal runs of a set, in ascending order. -/
structure Runs (T : Set ℤ) (l : List TsnBlock) : Prop where
  apart : Apart l
  tsns : tsns l = T

/-- The cumulative ack and the blocks describe a set of TSNs. -/
structure Exact (S : Set ℤ) (c : ℤ) (l : List TsnBlock) : Prop where
  acked : ∀ t, 1 ≤ t → t ≤ c → t ∈ S
  next : c + 1 ∉ S
  runs : Runs (S ∩ Set.Ioi c) l

variable {S : Set ℤ} {c t uiLow : ℤ} {l A B M before : List TsnBlock} {b y : TsnBlock}

theorem mem_tsns : t ∈ tsns l ↔ ∃ b ∈ l, b.uiStartTsn ≤ t ∧ t ≤ b.uiEndTsn := by
  simp only [tsns, mem_cover, TsnBlock.stop, Int.lt_add_one_iff]

@[simp] theorem tsns_nil : tsns [] = ∅ := cover_nil

@[simp] theorem tsns_cons : tsns (b :: l) = Set.Ico b.uiStartTsn b.stop ∪ tsns l := cover_cons

@[simp] theorem tsns_append : tsns (A ++ B) = tsns A ∪ tsns B := cover_append

theorem Exact.nil : Exact ∅ 0 [] where
  acked t h1 h2 := absurd h2 (by omega)
  next := Set.notMem_empty _
  runs := ⟨Separated.nil, by simp⟩

/-- No block begins next to the cumulative ack. -/
theorem Exact.start_gt (h : Exact S c l) (hb : b ∈ l) : c + 1 < b.uiStartTsn := by
  have hpos : b.uiStartTsn < b.stop := h.runs.apart.pos b hb
  have hmem : b.uiStartTsn ∈ S ∩ Set.Ioi c := by
    rw [← h.runs.tsns]
    exact ⟨b, hb, le_rfl, hpos⟩
  have hgt : c < b.uiStartTsn := hmem.2
  have hne : b.uiStartTsn ≠ c + 1 := fun heq => h.next (heq ▸ hmem.1)
  omega

/-- A TSN is in the set if it is cumulatively acked or in a block. -/
theorem Exact.mem_iff (h : Exact S c l) (ht : 1 ≤ t) : t ∈ S ↔ t ≤ c ∨ t ∈ tsns l := by
  rw [h.runs.tsns]
  by_cases hc : t ≤ c
  · exact iff_of_true (h.acked t ht hc) (Or.inl hc)
  · exact ⟨fun hS => Or.inr ⟨hS, not_le.mp hc⟩, fun hor => (hor.resolve_left hc).1⟩

/-! ## One TSN more -/

/-- A TSN has been put into the blocks, or behind the cumulative ack. -/
structure Inserted (c t : ℤ) (l : List TsnBlock) (res : ℤ × List TsnBlock) : Prop where
  le : c ≤ res.1
  apart : Apart res.2
  start_gt : ∀ b ∈ res.2, res.1 + 1 < b.uiStartTsn
  tsns : Set.Ioc c res.1 ∪ tsns res.2 = insert t (tsns l)

theorem Inserted.exact {res : ℤ × List TsnBlock} (h : Inserted c t l res) (hl : Exact S c l) :
    Exact (insert t S) res.1 res.2 := by
  have hmem : ∀ n, c < n → (n ∈ insert t S ↔ n ∈ Set.Ioc c res.1 ∪ Ns2.Sctp.tsns res.2) := by
    intro n hn
    rw [h.tsns, hl.runs.tsns, Set.mem_insert_iff, Set.mem_insert_iff, Set.mem_inter_iff]
    exact or_congr_right (and_iff_left hn).symm
  have habove : ∀ n ∈ Ns2.Sctp.tsns res.2, res.1 + 1 < n := by
    rintro n ⟨b, hb, hle, -⟩
    exact (h.start_gt b hb).trans_le hle
  have hle := h.le
  refine ⟨fun n h1 h2 => ?_, fun hn => ?_, h.apart, ?_⟩
  · by_cases hc : n ≤ c
    · exact Or.inr (hl.acked n h1 hc)
    · exact (hmem n (by omega)).mpr (Or.inl ⟨by omega, h2⟩)
  · rcases (hmem _ (by omega)).mp hn with hn | hn
    · have := hn.2
      omega
    · have := habove _ hn
      omega
  · ext n
    constructor
    · intro hn
      have hgt := habove n hn
      exact ⟨(hmem n (by omega)).mpr (Or.inr hn), by rw [Set.mem_Ioi]; omega⟩
    · rintro ⟨hn, hgt⟩
      rw [Set.mem_Ioi] at hgt
      refine ((hmem n (by omega)).mp hn).resolve_left fun hin => ?_
      have := hin.2
      omega

/-- `UpdateCumAck` finds nothing to do. -/
theorem Inserted.withCumAck {c' : ℤ} {l' : List TsnBlock} (h : Inserted c t l (c', l')) :
    Inserted c t l (withCumAck c' l') := by
  have heq : updateCumAck c' l' = c' := by
    cases l' with
    | nil => rfl
    | cons b l' =>
      have : c' + 1 < b.uiStartTsn := h.start_gt b List.mem_cons_self
      rw [updateCumAck, if_neg (by omega)]
  rw [Sctp.withCumAck, heq]
  exact h

/-- Some blocks are replaced by one that also has the new TSN. -/
theorem inserted_replace (h : Apart (A ++ M ++ B)) (habove : ∀ b ∈ A ++ M ++ B, c + 1 < b.uiStartTsn)
    (hc : c + 1 < y.uiStartTsn) (hA : ∀ a ∈ A, a.stop < y.uiStartTsn)
    (hB : ∀ b ∈ B, y.stop < b.uiStartTsn)
    (hy : Set.Ico y.uiStartTsn y.stop = insert t (tsns M)) (hne : y.uiStartTsn < y.stop) :
    Inserted c t (A ++ M ++ B) (c, A ++ y :: B) := by
  refine ⟨le_rfl, h.left.left.middle h.right (fun a ha b hb => ?_) hne hA hB, fun b hb => ?_, ?_⟩
  · exact h.hi_lt_lo (List.mem_append_left M ha) hb
  · simp only [List.mem_append, List.mem_cons] at hb
    rcases hb with hb | rfl | hb
    · exact habove b (by simp [hb])
    · exact hc
    · exact habove b (by simp [hb])
  · rw [Set.Ioc_self, Set.empty_union, tsns_append, tsns_cons, hy, tsns_append, tsns_append,
      Set.insert_union, Set.union_insert, Set.union_assoc]

/-- The TSN follows the cumulative ack, and no block begins behind it. -/
theorem inserted_cumAck (h : Apart l) (habove : ∀ b ∈ l, c + 2 < b.uiStartTsn) :
    Inserted c (c + 1) l (c + 1, l) := by
  refine ⟨by simp, h, fun b hb => ?_, ?_⟩
  · have := habove b hb
    omega
  · have hset : Set.Ioc c (c + 1) = {c + 1} := by
      ext n
      simp only [Set.mem_Ioc, Set.mem_singleton_iff]
      omega
    rw [hset, Set.singleton_union]

/-- The TSN follows the cumulative ack, and the first block begins behind it. -/
theorem inserted_cumAck_block (h : Apart (b :: l)) (hb : b.uiStartTsn = c + 2) :
    Inserted c (c + 1) (b :: l) (b.uiEndTsn, l) := by
  have hpos : b.uiStartTsn < b.stop := h.pos b List.mem_cons_self
  have hgap : ∀ x ∈ l, b.uiEndTsn + 1 < x.uiStartTsn := (List.pairwise_cons.mp h.gap).1
  rw [TsnBlock.stop] at hpos
  refine ⟨by omega, h.sublist (List.sublist_cons_self b l), hgap, ?_⟩
  rw [tsns_cons, ← Set.insert_union]
  congr 1
  ext n
  simp only [Set.mem_Ioc, Set.mem_insert_iff, Set.mem_Ico, TsnBlock.stop]
  omega

theorem setLastEnd_concat (e : ℤ) (A : List TsnBlock) (p : TsnBlock) :
    setLastEnd e (A ++ [p]) = A ++ [{ p with uiEndTsn := e }] := by
  induction A with
  | nil => rfl
  | cons a A ih =>
    rw [List.cons_append, List.cons_append, ← ih]
    cases A with
    | nil => rfl
    | cons a' A => rfl

/-! ## The loop of `UpdateRecvTsnBlocks` -/

/-- `uiLow` is behind the cumulative ack, or behind the last block passed. -/
inductive LowAt (c : ℤ) : List TsnBlock → ℤ → Prop where
  | cumAck : LowAt c [] (c + 1)
  | block (A : List TsnBlock) (p : TsnBlock) : LowAt c (A ++ [p]) p.stop

/-- The loop is between the blocks `before` and `l`, and the new TSN is not behind it. -/
structure LoopAt (c t : ℤ) (before : List TsnBlock) (uiLow : ℤ) (l : List TsnBlock) : Prop where
  apart : Apart (before ++ l)
  start_gt : ∀ b ∈ before ++ l, c + 1 < b.uiStartTsn
  low : LowAt c before uiLow
  le : uiLow ≤ t
  fresh : t ∉ tsns (before ++ l)

namespace LoopAt

theorem stop_le (h : LoopAt c t before uiLow l) {a : TsnBlock} (ha : a ∈ before) :
    a.stop ≤ uiLow := by
  have hap := h.apart.left
  cases h.low with
  | cumAck => exact absurd ha List.not_mem_nil
  | block A p =>
    rcases List.mem_append.mp ha with ha | ha
    · have h1 := hap.hi_lt_lo ha (List.mem_singleton_self p)
      have h2 := hap.pos p (List.mem_append_right A (List.mem_singleton_self p))
      exact (h1.trans h2).le
    · exact (congrArg TsnBlock.stop (List.mem_singleton.mp ha)).le

/-- Behind the cumulative ack there is no block yet. -/
theorem before_nil (h : LoopAt c t before (c + 1) l) : before = [] := by
  have hap := h.apart
  have hgt := h.start_gt
  generalize hlow : c + 1 = low at h
  cases h.low with
  | cumAck => rfl
  | block A p =>
    have hp : p ∈ A ++ [p] ++ l := by simp
    have h1 := hgt p hp
    have h2 : p.uiStartTsn < p.stop := hap.pos p hp
    omega

/-- Elsewhere there is a block that ends there. -/
theorem exists_last (h : LoopAt c t before uiLow l) (hne : uiLow ≠ c + 1) :
    ∃ A p, before = A ++ [p] ∧ uiLow = p.stop := by
  cases h.low with
  | cumAck => exact absurd rfl hne
  | block A p => exact ⟨A, p, rfl, rfl⟩

theorem cumAck_lt (h : LoopAt c t before uiLow l) : c + 1 ≤ uiLow := by
  have hap := h.apart
  have hgt := h.start_gt
  cases h.low with
  | cumAck => exact le_rfl
  | block A p =>
    have hp : p ∈ A ++ [p] ++ l := by simp
    have h1 := hgt p hp
    have h2 : p.uiStartTsn < p.stop := hap.pos p hp
    omega

/-- Past the next block. -/
theorem next (h : LoopAt c t before uiLow (b :: l)) (hb : b.uiStartTsn ≤ t) :
    LoopAt c t (before ++ [b]) (b.uiEndTsn + 1) l := by
  have hsplit : before ++ [b] ++ l = before ++ b :: l := by simp
  refine ⟨hsplit ▸ h.apart, hsplit ▸ h.start_gt, LowAt.block before b, ?_, hsplit ▸ h.fresh⟩
  by_contra hlt
  exact h.fresh (mem_tsns.mpr ⟨b, by simp, hb, by omega⟩)

/-- The last block passed is made longer. -/
theorem lengthen (h : LoopAt c t before uiLow (M ++ B)) (hne : uiLow ≠ c + 1) (ht : t = uiLow)
    {e : ℤ} (he : t ≤ e) (hM : Set.Icc t e = insert t (tsns M))
    (hB : ∀ b ∈ B, e + 1 < b.uiStartTsn) :
    Inserted c t (before ++ (M ++ B)) (c, setLastEnd e before ++ B) := by
  obtain ⟨A, p, rfl, hp⟩ := h.exists_last hne
  have hsplit : A ++ [p] ++ (M ++ B) = A ++ (p :: M) ++ B := by simp
  have hap := h.apart
  have hpm : p ∈ A ++ [p] ++ (M ++ B) := by simp
  have hpos : p.uiStartTsn < p.stop := hap.pos p hpm
  have hA : ∀ a ∈ A, a.stop < p.uiStartTsn := fun a ha =>
    hap.left.hi_lt_lo ha (List.mem_singleton_self p)
  have hset : Set.Ico p.uiStartTsn (e + 1) = insert t (tsns (p :: M)) := by
    rw [tsns_cons, ← Set.union_insert, ← hM]
    ext n
    simp only [Set.mem_Ico, Set.mem_union, Set.mem_Icc]
    omega
  have hres : A ++ [{ p with uiEndTsn := e }] ++ B = A ++ { p with uiEndTsn := e } :: B := by simp
  rw [setLastEnd_concat, hsplit, hres]
  exact inserted_replace (hsplit ▸ hap) (hsplit ▸ h.start_gt) (h.start_gt p hpm) hA hB hset
    (show p.uiStartTsn < e + 1 by omega)

/-- What is below the next block is below all that follow. -/
theorem lt_start {b : TsnBlock} {v : ℤ} (h : LoopAt c t before uiLow (b :: l))
    (hv : v < b.uiStartTsn) : ∀ x ∈ b :: l, v < x.uiStartTsn := by
  refine List.forall_mem_cons.mpr ⟨hv, fun x hx => ?_⟩
  have hgap : b.stop < x.uiStartTsn := (List.pairwise_cons.mp h.apart.right.gap).1 x hx
  have hpos : b.uiStartTsn < b.stop := h.apart.pos b (by simp)
  omega

/-- The next block begins with the TSN. -/
theorem extend_down {b : TsnBlock} (h : LoopAt c t before uiLow (b :: l)) (hlt : uiLow < t)
    (hhigh : t = b.uiStartTsn - 1) :
    Inserted c t (before ++ b :: l) (c, before ++ { b with uiStartTsn := t } :: l) := by
  have hlow := h.cumAck_lt
  have hpos : b.uiStartTsn < b.stop := h.apart.pos b (by simp)
  have hgap : ∀ x ∈ l, b.stop < x.uiStartTsn := (List.pairwise_cons.mp h.apart.right.gap).1
  rw [TsnBlock.stop] at hpos
  have hone : before ++ [b] ++ l = before ++ b :: l := by simp
  have hext := inserted_replace (c := c) (t := t) (A := before) (M := [b]) (B := l)
    (y := { b with uiStartTsn := t }) (hone ▸ h.apart) (hone ▸ h.start_gt) (show c + 1 < t by omega)
    (fun a ha => (h.stop_le ha).trans_lt hlt) hgap
    (by ext n; simp [TsnBlock.stop]; omega) (show t < b.uiEndTsn + 1 by omega)
  exact hone ▸ hext

/-- The TSN joins the last block passed and the next one. -/
theorem join {b : TsnBlock} (h : LoopAt c t before uiLow (b :: l)) (hne : uiLow ≠ c + 1)
    (ht : t = uiLow) (hhigh : t = b.uiStartTsn - 1) :
    Inserted c t (before ++ b :: l) (c, setLastEnd b.uiEndTsn before ++ l) := by
  have hpos : b.uiStartTsn < b.stop := h.apart.pos b (by simp)
  have hgap : ∀ x ∈ l, b.stop < x.uiStartTsn := (List.pairwise_cons.mp h.apart.right.gap).1
  rw [TsnBlock.stop] at hpos
  refine LoopAt.lengthen (M := [b]) (B := l) h hne ht (by omega) ?_ hgap
  rw [tsns_cons, tsns_nil, Set.union_empty]
  ext n
  simp only [Set.mem_Icc, Set.mem_insert_iff, Set.mem_Ico, TsnBlock.stop]
  omega

/-- The TSN is a block of its own. -/
theorem new_block (h : LoopAt c t before uiLow B) (hlt : uiLow < t)
    (hB : ∀ x ∈ B, t + 1 < x.uiStartTsn) :
    Inserted c t (before ++ B) (c, before ++ ⟨t, t⟩ :: B) := by
  have hnil : before ++ [] ++ B = before ++ B := by simp
  have hlow := h.cumAck_lt
  have hnew := inserted_replace (c := c) (t := t) (A := before) (M := []) (B := B)
    (y := ⟨t, t⟩) (hnil ▸ h.apart) (hnil ▸ h.start_gt) (show c + 1 < t by omega)
    (fun a ha => (h.stop_le ha).trans_lt hlt) hB (by ext n; simp [TsnBlock.stop]; omega)
    (show t < t + 1 by omega)
  exact hnil ▸ hnew

end LoopAt

/-- **The loop puts the TSN into the blocks.** -/
theorem updateLoop_spec (h : LoopAt c t before uiLow l) :
    Inserted c t (before ++ l) (updateLoop c t before uiLow l) := by
  induction l generalizing before uiLow with
  | nil =>
    have hle := h.le
    have hlow := h.cumAck_lt
    rw [updateLoop]
    by_cases ht : t = uiLow
    · rw [if_pos ht]
      by_cases hc : t = c + 1
      · obtain rfl := ht.symm.trans hc
        obtain rfl := h.before_nil
        rw [if_pos hc, hc]
        exact (inserted_cumAck Separated.nil (by simp)).withCumAck
      · rw [if_neg hc]
        have hM : Set.Icc t uiLow = insert t (tsns []) := by simp [ht]
        have := LoopAt.lengthen (M := []) (B := []) h (ht ▸ hc) ht ht.le hM (by simp)
        simpa using this
    · rw [if_neg ht]
      have hnew := h.new_block (by omega) (by simp)
      simpa using hnew
  | cons b l ih =>
    have hle := h.le
    have hlow := h.cumAck_lt
    have hb : b ∈ before ++ b :: l := by simp
    have hstart := h.start_gt b hb
    have hpos : b.uiStartTsn < b.stop := h.apart.pos b hb
    rw [TsnBlock.stop] at hpos
    rw [updateLoop]
    by_cases hin : uiLow ≤ t ∧ t ≤ b.uiStartTsn - 1
    · rw [if_pos hin]
      by_cases hsize : b.uiStartTsn - 1 - uiLow + 1 > 1
      · rw [if_pos hsize]
        by_cases hhigh : t = b.uiStartTsn - 1
        · rw [if_pos hhigh]
          exact (h.extend_down (by omega) hhigh).withCumAck
        · rw [if_neg hhigh]
          by_cases ht : t = uiLow
          · rw [if_pos ht]
            by_cases hc : t = c + 1
            · obtain rfl := ht.symm.trans hc
              obtain rfl := h.before_nil
              rw [if_pos hc, hc]
              exact (inserted_cumAck h.apart (h.lt_start (by omega))).withCumAck
            · rw [if_neg hc]
              have hM : Set.Icc t t = insert t (tsns []) := by simp
              exact (LoopAt.lengthen (M := []) (B := b :: l) h (ht ▸ hc) ht le_rfl hM
                (h.lt_start (by omega))).withCumAck
          · rw [if_neg ht]
            exact h.new_block (by omega) (h.lt_start (by omega))
      · rw [if_neg hsize]
        have ht : t = uiLow := by omega
        by_cases hc : uiLow = c + 1
        · subst hc
          obtain rfl := h.before_nil
          rw [if_pos rfl, ht]
          exact (inserted_cumAck_block h.apart (by omega)).withCumAck
        · rw [if_neg hc]
          exact (h.join hc ht (by omega)).withCumAck
    · rw [if_neg hin]
      have hsplit : before ++ [b] ++ l = before ++ b :: l := by simp
      exact hsplit ▸ ih (h.next (by omega))

theorem updateBlocks_spec (h : Exact S c l) (ht : 1 ≤ t) (hS : t ∉ S) :
    Inserted c t l (updateBlocks c t l) := by
  have hnot := mt (h.mem_iff ht).mpr hS
  have hat : LoopAt c t [] (c + 1) l :=
    ⟨h.runs.apart, fun b hb => h.start_gt hb, LowAt.cumAck, by omega, fun ht => hnot (Or.inr ht)⟩
  exact updateLoop_spec hat

/-- **`UpdateRecvTsnBlocks` adds a TSN that is not in the set.** -/
theorem updateBlocks_exact (h : Exact S c l) (ht : 1 ≤ t) (hS : t ∉ S) :
    Exact (insert t S) (updateBlocks c t l).1 (updateBlocks c t l).2 :=
  (updateBlocks_spec h ht hS).exact h

/-- The search in the blocks. -/
theorem inBlocks_iff (h : Apart l) : inBlocks t l = true ↔ t ∈ tsns l := by
  induction l with
  | nil => simp [inBlocks]
  | cons b l ih =>
    have hgap : ∀ x ∈ l, b.uiEndTsn + 1 < x.uiStartTsn := (List.pairwise_cons.mp h.gap).1
    have htail := ih (h.sublist (List.sublist_cons_self b l))
    have hb : t ∈ Set.Ico b.uiStartTsn b.stop ↔ b.uiStartTsn ≤ t ∧ t ≤ b.uiEndTsn :=
      and_congr_right' Int.lt_add_one_iff
    rw [inBlocks, tsns_cons, Set.mem_union, hb]
    by_cases hin : b.uiStartTsn ≤ t ∧ t ≤ b.uiEndTsn
    · simp [hin]
    · rw [if_neg hin]
      by_cases hgt : b.uiEndTsn > t
      · rw [if_pos hgt]
        refine iff_of_false (by simp) ?_
        rintro (hmem | ⟨x, hx, hle, -⟩)
        · exact hin hmem
        · have := hgap x hx
          omega
      · rw [if_neg hgt, htail]
        exact (or_iff_right hin).symm

end Ns2.Sctp
