import Ns2.Sctp.Sender

/-!
# Gap acknowledgments

Which chunks of the send buffer are marked by `ProcessGapAckBlocks`.

* `Reads` — the cursor goes through the gap ack blocks and the non-renegable blocks in order.
* `FlagsExact` — a chunk is flagged exactly if its TSN is in a block.
* `leftAlone` — the chunks that the walk passes without changing them, for NR-SACKs.
* `NotTouched` — no chunk starts a block right behind another, for SACKs.
* `markGapAcked_exact_iff` — when the flags are exact.
-/

namespace Ns2.Sctp

open Intervals

variable {cfg : SendConfig} {v : SendVars} {n : SendBufferNode} {l before : List SendBufferNode}
  {c : Cursor} {b : TsnBlock} {B gaps nr : List TsnBlock} {eNewCumAck : Bool} {rounds : ℕ}

/-! ## The order of the blocks -/

/-- The cursor goes through a list of blocks. -/
def Reads (cfg : SendConfig) : Cursor → List TsnBlock → Prop
  | c, [] => c.done = true
  | c, b :: B => c.done = false ∧ c.block = b ∧ Reads cfg ((c.processed cfg).choose cfg) B

/-- A block ends before the other starts. -/
def TsnBlock.Before (a b : TsnBlock) : Prop := a.uiEndTsn < b.uiStartTsn

/-- Two lists of blocks, in the order of their starts. -/
def mergeBlocks (gaps nr : List TsnBlock) : List TsnBlock :=
  List.merge gaps nr fun a b => a.uiStartTsn ≤ b.uiStartTsn

/-- Blocks are not empty, sorted and disjoint; they may touch. -/
structure Disjointed (B : List TsnBlock) : Prop where
  le : ∀ b ∈ B, b.uiStartTsn ≤ b.uiEndTsn
  sorted : B.Pairwise TsnBlock.Before

/-- The blocks of a SACK: each list is sorted, and they are pairwise disjoint. -/
structure SackBlocks (gaps nr : List TsnBlock) : Prop where
  gapBlocks : Disjointed gaps
  nrBlocks : Disjointed nr
  disjoint : ∀ g ∈ gaps, ∀ b ∈ nr, g.Before b ∨ b.Before g

theorem Disjointed.tail (h : Disjointed (b :: B)) : Disjointed B :=
  ⟨fun x hx => h.le x (List.mem_cons_of_mem b hx), (List.pairwise_cons.mp h.sorted).2⟩

theorem Disjointed.head_le (h : Disjointed (b :: B)) : b.uiStartTsn ≤ b.uiEndTsn :=
  h.le b List.mem_cons_self

theorem Disjointed.head_lt (h : Disjointed (b :: B)) : ∀ x ∈ B, b.uiEndTsn < x.uiStartTsn :=
  (List.pairwise_cons.mp h.sorted).1

theorem mem_mergeBlocks : b ∈ mergeBlocks gaps nr ↔ b ∈ gaps ∨ b ∈ nr := by
  rw [mergeBlocks, List.mem_merge]

theorem mergeBlocks_nil : mergeBlocks gaps [] = gaps := List.merge_right gaps

theorem nil_mergeBlocks : mergeBlocks [] nr = nr := List.nil_merge nr

theorem mergeBlocks_cons_lt {g : TsnBlock} (h : g.uiStartTsn < b.uiStartTsn) :
    mergeBlocks (g :: gaps) (b :: nr) = g :: mergeBlocks gaps (b :: nr) := by
  rw [mergeBlocks, List.cons_merge_cons, if_pos (by simpa using h.le)]
  rfl

theorem mergeBlocks_cons_gt {g : TsnBlock} (h : b.uiStartTsn < g.uiStartTsn) :
    mergeBlocks (g :: gaps) (b :: nr) = b :: mergeBlocks (g :: gaps) nr := by
  rw [mergeBlocks, List.cons_merge_cons, if_neg (by simpa using h)]
  rfl

/-- The blocks of a SACK are disjoint and sorted when merged. -/
theorem mergeBlocks_disjointed (h : SackBlocks gaps nr) : Disjointed (mergeBlocks gaps nr) := by
  have hle : ∀ b ∈ mergeBlocks gaps nr, b.uiStartTsn ≤ b.uiEndTsn := fun b hb =>
    (mem_mergeBlocks.mp hb).elim (h.gapBlocks.le b) (h.nrBlocks.le b)
  have hstarts {B : List TsnBlock} (hB : Disjointed B) :
      B.Pairwise fun a b => decide (a.uiStartTsn ≤ b.uiStartTsn) := by
    refine hB.sorted.imp_of_mem fun {a b} ha hb hab => ?_
    have := hB.le a ha
    simp only [TsnBlock.Before] at hab
    simp only [decide_eq_true_eq]
    omega
  have hsorted : (mergeBlocks gaps nr).Pairwise fun a b =>
      decide (a.uiStartTsn ≤ b.uiStartTsn) := by
    refine List.pairwise_merge (fun a b c hab hbc => ?_) (fun a b => ?_) gaps nr
      (hstarts h.gapBlocks) (hstarts h.nrBlocks)
    · simp only [decide_eq_true_eq] at *
      omega
    · simp only [Bool.or_eq_true, decide_eq_true_eq]
      omega
  have happart : (mergeBlocks gaps nr).Pairwise fun a b => a.Before b ∨ b.Before a := by
    refine (List.Perm.pairwise_iff (fun hab => hab.symm) (List.merge_perm_append _)).mpr ?_
    exact List.pairwise_append.mpr ⟨h.gapBlocks.sorted.imp Or.inl, h.nrBlocks.sorted.imp Or.inl,
      h.disjoint⟩
  refine ⟨hle, (hsorted.and happart).imp_of_mem fun {a b} ha hb hab => ?_⟩
  obtain ⟨hstart, hab | hba⟩ := hab
  · exact hab
  · have := hle b hb
    simp only [TsnBlock.Before] at hba
    simp only [decide_eq_true_eq] at hstart
    omega

/-! ## The cursor -/

@[simp] theorem done_choose : (c.choose cfg).done = c.done := by
  unfold Cursor.choose
  split
  · rfl
  · rfl
  · split <;> rfl
  · split_ifs <;> rfl

/-- The cursor goes through the gap ack blocks when there are no others. -/
theorem reads_gaps {x : TsnBlock} {f : Bool} :
    Reads cfg (Cursor.choose cfg ⟨gaps, [], x, f⟩) gaps := by
  induction gaps generalizing x f with
  | nil => rfl
  | cons g gaps ih =>
    refine ⟨rfl, rfl, ?_⟩
    have hprocessed : (Cursor.choose cfg ⟨g :: gaps, [], x, f⟩).processed cfg =
        ⟨gaps, [], g, true⟩ := by
      simp [Cursor.choose, Cursor.processed]
    rw [hprocessed]
    exact ih

/-- The cursor goes through the non-renegable blocks when there are no others. -/
theorem reads_nr {x : TsnBlock} {f : Bool} (hcfg : cfg.eUseNonRenegSacks = true) :
    Reads cfg (Cursor.choose cfg ⟨[], nr, x, f⟩) nr := by
  induction nr generalizing x f with
  | nil => rfl
  | cons b nr ih =>
    have hchoose : Cursor.choose cfg ⟨[], b :: nr, x, f⟩ = ⟨[], b :: nr, b, false⟩ := by
      simp [Cursor.choose, hcfg]
    have hprocessed : Cursor.processed cfg ⟨[], b :: nr, b, false⟩ = ⟨[], nr, b, false⟩ := by
      simp [Cursor.processed, hcfg]
    rw [hchoose]
    refine ⟨rfl, rfl, ?_⟩
    rw [hprocessed]
    exact ih

/-- The cursor goes through both lists of blocks of an NR-SACK, in order. -/
theorem reads_merged {x : TsnBlock} {f : Bool} (hcfg : cfg.eUseNonRenegSacks = true)
    (h : SackBlocks gaps nr) :
    Reads cfg (Cursor.choose cfg ⟨gaps, nr, x, f⟩) (mergeBlocks gaps nr) := by
  induction gaps generalizing nr x f with
  | nil =>
    rw [nil_mergeBlocks]
    exact reads_nr hcfg
  | cons g gaps ihg =>
    induction nr generalizing x f with
    | nil =>
      rw [mergeBlocks_nil]
      exact reads_gaps
    | cons b nr ihb =>
      have hne : g.uiStartTsn ≠ b.uiStartTsn := by
        have hg := h.gapBlocks.head_le
        have hb := h.nrBlocks.head_le
        rcases h.disjoint g List.mem_cons_self b List.mem_cons_self with hgb | hgb
        all_goals
          simp only [TsnBlock.Before] at hgb
          omega
      rcases lt_or_gt_of_ne hne with hlt | hgt
      · have hchoose : Cursor.choose cfg ⟨g :: gaps, b :: nr, x, f⟩ =
            ⟨g :: gaps, b :: nr, g, true⟩ := by
          simp [Cursor.choose, hlt]
        have hprocessed : Cursor.processed cfg ⟨g :: gaps, b :: nr, g, true⟩ =
            ⟨gaps, b :: nr, g, true⟩ := by
          simp [Cursor.processed]
        rw [mergeBlocks_cons_lt hlt, hchoose]
        refine ⟨rfl, rfl, ?_⟩
        rw [hprocessed]
        exact ihg ⟨h.gapBlocks.tail, h.nrBlocks, fun y hy =>
          h.disjoint y (List.mem_cons_of_mem g hy)⟩
      · have hchoose : Cursor.choose cfg ⟨g :: gaps, b :: nr, x, f⟩ =
            ⟨g :: gaps, b :: nr, b, false⟩ := by
          simp [Cursor.choose, hgt, hgt.le, hcfg]
        have hprocessed : Cursor.processed cfg ⟨g :: gaps, b :: nr, b, false⟩ =
            ⟨g :: gaps, nr, b, false⟩ := by
          simp [Cursor.processed, hcfg]
        rw [mergeBlocks_cons_gt hgt, hchoose]
        refine ⟨rfl, rfl, ?_⟩
        rw [hprocessed]
        exact ihb ⟨h.gapBlocks, h.nrBlocks.tail, fun y hy z hz =>
          h.disjoint y hy z (List.mem_cons_of_mem b hz)⟩

/-- The blocks that the marking loops go through. -/
def Sack.blocks (cfg : SendConfig) (sack : Sack) : List TsnBlock :=
  mergeBlocks sack.gapAckBlocks (if cfg.eUseNonRenegSacks then sack.nonRenegBlocks else [])

theorem reads_init {sack : Sack} (h : SackBlocks sack.gapAckBlocks sack.nonRenegBlocks) :
    Reads cfg (Cursor.init cfg sack) (sack.blocks cfg) := by
  rw [Cursor.init, Sack.blocks]
  cases hcfg : cfg.eUseNonRenegSacks with
  | true => exact reads_merged hcfg h
  | false =>
    simp only [Bool.false_eq_true, if_false, mergeBlocks_nil]
    exact reads_gaps

theorem blocks_disjointed {sack : Sack} (h : SackBlocks sack.gapAckBlocks sack.nonRenegBlocks) :
    Disjointed (sack.blocks cfg) := by
  rw [Sack.blocks]
  split
  · exact mergeBlocks_disjointed h
  · rw [mergeBlocks_nil]
    exact h.gapBlocks

theorem length_blocks_le {sack : Sack} :
    (sack.blocks cfg).length ≤ sack.gapAckBlocks.length + sack.nonRenegBlocks.length := by
  rw [Sack.blocks, mergeBlocks, List.length_merge]
  split <;> simp

/-! ## The pass over the buffer -/

instance {t : ℤ} : Decidable (t ∈ tsns B) := decidable_of_iff _ mem_tsns.symm

theorem walkList_congr {f g : SendVars → SendBufferNode → SendVars × SendBufferNode}
    (h : ∀ n ∈ l, ∀ v, f v n = g v n) : walkList f v l = walkList g v l := by
  induction l generalizing v with
  | nil => rfl
  | cons n l ih =>
    rw [walkList, walkList, h n List.mem_cons_self v,
      ih fun m hm => h m (List.mem_cons_of_mem n hm)]

/-- A pass over the nodes after `before`. -/
def passed (f : SendVars → SendBufferNode → SendVars × SendBufferNode) (v : SendVars)
    (before l : List SendBufferNode) : Option (SendVars × List SendBufferNode) :=
  some ((walkList f v l).1, before ++ (walkList f v l).2)

theorem passed_cons {f : SendVars → SendBufferNode → SendVars × SendBufferNode} :
    passed f v before (n :: l) = passed f (f v n).1 (before ++ [(f v n).2]) l := by
  simp [passed, walkList]

theorem passed_congr {f g : SendVars → SendBufferNode → SendVars × SendBufferNode}
    (h : ∀ n ∈ l, ∀ v, f v n = g v n) : passed f v before l = passed g v before l := by
  rw [passed, passed, walkList_congr h]

theorem markLoop_done (h : c.done = true) :
    markLoop cfg eNewCumAck (rounds + 1) v before l c = passed SendVars.withdraw v before l := by
  cases l with
  | nil => simp [markLoop, passed, walkList]
  | cons n l => simp [markLoop, passed, h]

theorem done_of_reads_nil (h : Reads cfg c []) : c.done = true := h

/-- What a pass does with a chunk that is reported, or not. -/
def SendVars.mark (eNewCumAck reported : Bool) (v : SendVars) (n : SendBufferNode) :
    SendVars × SendBufferNode :=
  if reported then v.gapAck eNewCumAck n else v.withdraw n

/-- The buffer is sorted by TSN. -/
def SortedByTsn (l : List SendBufferNode) : Prop := l.Pairwise fun a b => a.uiTsn < b.uiTsn

theorem SortedByTsn.head_lt (h : SortedByTsn (n :: l)) : ∀ m ∈ l, n.uiTsn < m.uiTsn :=
  (List.pairwise_cons.mp h).1

theorem SortedByTsn.tail (h : SortedByTsn (n :: l)) : SortedByTsn l := (List.pairwise_cons.mp h).2

theorem notMem_tsns_of_lt (h : Disjointed (b :: B)) {t : ℤ} (ht : t < b.uiStartTsn) :
    t ∉ tsns (b :: B) := by
  intro hmem
  obtain ⟨x, hx, hxt, -⟩ := mem_tsns.mp hmem
  have hb := h.head_le
  rcases List.mem_cons.mp hx with rfl | hx
  · omega
  · have := h.head_lt x hx
    omega

theorem mem_tsns_cons_of_gt {t : ℤ} (ht : b.uiEndTsn < t) : t ∈ tsns (b :: B) ↔ t ∈ tsns B := by
  simp only [mem_tsns, List.mem_cons, exists_eq_or_imp]
  constructor
  · rintro (⟨-, h⟩ | h)
    · omega
    · exact h
  · exact Or.inr

theorem mem_tsns_head {t : ℤ} (hs : b.uiStartTsn ≤ t) (he : t ≤ b.uiEndTsn) : t ∈ tsns (b :: B) :=
  mem_tsns.mpr ⟨b, List.mem_cons_self, hs, he⟩

/-- The step at a chunk that is not behind the block. -/
theorem markLoop_le (hB : Disjointed (b :: B)) (hc : Reads cfg c (b :: B))
    (hle : n.uiTsn ≤ b.uiEndTsn) :
    markLoop cfg eNewCumAck (rounds + 1) v before (n :: l) c =
      markLoop cfg eNewCumAck rounds (v.mark eNewCumAck (n.uiTsn ∈ tsns (b :: B)) n).1
        (before ++ [(v.mark eNewCumAck (n.uiTsn ∈ tsns (b :: B)) n).2]) l c := by
  obtain ⟨hdone, hblock, -⟩ := hc
  rw [markLoop, if_neg (by simp [hdone]), hblock]
  by_cases hlt : n.uiTsn < b.uiStartTsn
  · rw [if_pos hlt, SendVars.mark, if_neg (by simpa using notMem_tsns_of_lt hB hlt)]
  · rw [if_neg hlt, if_pos hle, SendVars.mark,
      if_pos (by simpa using mem_tsns_head (by omega) hle)]

theorem done_processed (hc : Reads cfg c (b :: B)) :
    (c.processed cfg).done = true ↔ B = [] := by
  have hchoose : ((c.processed cfg).choose cfg).done = (c.processed cfg).done := done_choose
  rw [← hchoose]
  cases B with
  | nil => simpa using done_of_reads_nil hc.2.2
  | cons b' B => simpa using hc.2.2.1

/-! ## NR-SACKs -/

/-- The first chunk behind the last block. -/
def exitNode (B : List TsnBlock) (l : List SendBufferNode) : Option SendBufferNode :=
  B.getLast?.bind fun b => l.find? fun n => b.uiEndTsn < n.uiTsn

/-- The chunks that keep their flags: the head if it lies behind the first block, since the step
back is to the head and the increment of the loop passes it, and the chunk that the loop ends
at. -/
def leftAlone : List TsnBlock → List SendBufferNode → List SendBufferNode
  | b :: B, n :: l =>
    if b.uiEndTsn < n.uiTsn then n :: (exitNode B l).toList else (exitNode (b :: B) l).toList
  | _, _ => []

/-- The pass for an NR-SACK. -/
def nrMark (eNewCumAck : Bool) (B : List TsnBlock) (E : List SendBufferNode) (v : SendVars)
    (n : SendBufferNode) : SendVars × SendBufferNode :=
  if n ∈ E then (v, n) else v.mark eNewCumAck (n.uiTsn ∈ tsns B) n

theorem Disjointed.head_end_le (h : Disjointed (b :: B)) {x : TsnBlock} (hx : x ∈ b :: B) :
    b.uiEndTsn ≤ x.uiEndTsn := by
  rcases List.mem_cons.mp hx with rfl | hx
  · exact le_rfl
  · have := h.head_lt x hx
    have := h.tail.le x hx
    omega

theorem exitNode_gt (h : Disjointed (b :: B)) {m : SendBufferNode}
    (hm : m ∈ (exitNode (b :: B) l).toList) : b.uiEndTsn < m.uiTsn := by
  obtain ⟨x, hx, hfind⟩ := Option.bind_eq_some_iff.mp (Option.mem_toList.mp hm)
  have hend := h.head_end_le (List.mem_of_getLast? hx)
  have hgt : x.uiEndTsn < m.uiTsn := by simpa using List.find?_some hfind
  omega

theorem exitNode_mem {m : SendBufferNode} (hm : m ∈ (exitNode B l).toList) : m ∈ l := by
  obtain ⟨x, -, hfind⟩ := Option.bind_eq_some_iff.mp (Option.mem_toList.mp hm)
  exact List.mem_of_find?_eq_some hfind

theorem exitNode_cons_of_le (h : Disjointed (b :: B)) (hn : n.uiTsn ≤ b.uiEndTsn) :
    exitNode (b :: B) (n :: l) = exitNode (b :: B) l := by
  obtain ⟨x, hx⟩ : ∃ x, (b :: B).getLast? = some x := ⟨_, List.getLast?_eq_some_getLast (by simp)⟩
  have hend := h.head_end_le (List.mem_of_getLast? hx)
  rw [exitNode, exitNode, hx, Option.bind_some, Option.bind_some, List.find?_cons_of_neg]
  simp only [decide_eq_true_eq]
  omega

theorem exitNode_cons_block (hB : B ≠ []) : exitNode (b :: B) l = exitNode B l := by
  obtain ⟨x, B, rfl⟩ := List.exists_cons_of_ne_nil hB
  rw [exitNode, exitNode, List.getLast?_cons_cons]

theorem exitNode_last (hn : b.uiEndTsn < n.uiTsn) : exitNode [b] (n :: l) = some n := by
  simp [exitNode, hn]

theorem nrMark_cons_of_gt {E : List SendBufferNode} (hn : b.uiEndTsn < n.uiTsn) :
    nrMark eNewCumAck (b :: B) E v n = nrMark eNewCumAck B E v n := by
  simp only [nrMark, mem_tsns_cons_of_gt hn]

/-- The loop ends at a chunk behind the last block, and leaves it alone. -/
theorem markLoop_nr_last (hcfg : cfg.eUseNonRenegSacks = true) (hB : Disjointed [b])
    (hc : Reads cfg c [b]) (hgt : b.uiEndTsn < n.uiTsn) :
    markLoop cfg eNewCumAck (rounds + 2) v before (n :: l) c =
      passed SendVars.withdraw v (before ++ [n]) l := by
  have hle := hB.head_le
  have hdone : (c.processed cfg).done = true := (done_processed hc).mpr rfl
  rw [markLoop, if_neg (by simp [hc.1]), hc.2.1, if_neg (by omega), if_neg (by omega),
    if_neg (by simp [hcfg]), if_pos hdone, markLoop_done hdone]

/-- At a chunk behind a block that is not the last the loop turns to the next block. -/
theorem markLoop_nr_next {b' : TsnBlock} (hcfg : cfg.eUseNonRenegSacks = true)
    (hB : Disjointed (b :: b' :: B)) (hc : Reads cfg c (b :: b' :: B))
    (hgt : b.uiEndTsn < n.uiTsn) :
    markLoop cfg eNewCumAck (rounds + 1) v before (n :: l) c =
      if before = [] then markLoop cfg eNewCumAck rounds v [n] l ((c.processed cfg).choose cfg)
      else markLoop cfg eNewCumAck rounds v before (n :: l) ((c.processed cfg).choose cfg) := by
  have hle := hB.head_le
  have hdone : ¬ (c.processed cfg).done = true := fun h => by simpa using (done_processed hc).mp h
  rw [markLoop, if_neg (by simp [hc.1]), hc.2.1, if_neg (by omega), if_neg (by omega),
    if_neg (by simp [hcfg]), if_neg hdone]

theorem passed_nr_last (hl : SortedByTsn (n :: l)) (hgt : b.uiEndTsn < n.uiTsn) :
    passed SendVars.withdraw v (before ++ [n]) l =
      passed (nrMark eNewCumAck [b] [n]) v before (n :: l) := by
  have hmark : nrMark eNewCumAck [b] [n] v n = (v, n) := by simp [nrMark]
  rw [passed_cons, hmark]
  refine passed_congr fun m hm v => ?_
  have hnm := hl.head_lt m hm
  have hne : m ≠ n := fun he => by simp [he] at hnm
  have hout : m.uiTsn ∉ tsns [b] := by
    rw [mem_tsns_cons_of_gt (by omega)]
    simp [tsns]
  rw [nrMark, if_neg (by simpa using hne), SendVars.mark, if_neg (by simpa using hout)]

theorem passed_nr_cons {E : List SendBufferNode} (hl : SortedByTsn (n :: l))
    (hgt : b.uiEndTsn < n.uiTsn) :
    passed (nrMark eNewCumAck B E) v before (n :: l) =
      passed (nrMark eNewCumAck (b :: B) E) v before (n :: l) := by
  refine passed_congr fun m hm v => (nrMark_cons_of_gt ?_).symm
  rcases List.mem_cons.mp hm with rfl | hm
  · exact hgt
  · have := hl.head_lt m hm
    omega

/-- The head of the buffer, when the first block ends behind it. -/
theorem nrMark_head (hB : Disjointed (b :: B)) (hle : n.uiTsn ≤ b.uiEndTsn) :
    nrMark eNewCumAck (b :: B) (exitNode (b :: B) l).toList v n =
      v.mark eNewCumAck (n.uiTsn ∈ tsns (b :: B)) n :=
  if_neg fun hmem => absurd (exitNode_gt hB hmem) (by omega)

/-- The marking loop for an NR-SACK, behind the head of the buffer. -/
theorem markLoop_nr (hcfg : cfg.eUseNonRenegSacks = true) (hB : Disjointed B) (hl : SortedByTsn l)
    (hc : Reads cfg c B) (hbefore : before ≠ []) (hrounds : l.length + B.length < rounds) :
    markLoop cfg eNewCumAck rounds v before l c =
      passed (nrMark eNewCumAck B (exitNode B l).toList) v before l := by
  induction rounds generalizing v before l c B with
  | zero => omega
  | succ rounds ih =>
    cases B with
    | nil =>
      rw [markLoop_done hc]
      refine passed_congr fun m _ v => ?_
      simp [nrMark, exitNode, SendVars.mark, tsns]
    | cons b B =>
      cases l with
      | nil => simp [markLoop, passed, walkList]
      | cons n l =>
        simp only [List.length_cons] at hrounds
        by_cases hle : n.uiTsn ≤ b.uiEndTsn
        · rw [markLoop_le hB hc hle, exitNode_cons_of_le hB hle, passed_cons, nrMark_head hB hle]
          exact ih hB hl.tail hc (by simp) (by simp only [List.length_cons]; omega)
        · have hgt : b.uiEndTsn < n.uiTsn := by omega
          cases B with
          | nil =>
            obtain ⟨rounds, rfl⟩ : ∃ k, rounds = k + 1 := ⟨rounds - 1, by omega⟩
            rw [markLoop_nr_last hcfg hB hc hgt, exitNode_last hgt]
            exact passed_nr_last hl hgt
          | cons b' B =>
            rw [markLoop_nr_next hcfg hB hc hgt, if_neg hbefore, exitNode_cons_block (by simp),
              ih hB.tail hl hc.2.2 hbefore (by simp only [List.length_cons] at *; omega)]
            exact passed_nr_cons hl hgt

/-- The marking loops for an NR-SACK. -/
theorem markLoop_nr_head (hcfg : cfg.eUseNonRenegSacks = true) (hB : Disjointed B)
    (hl : SortedByTsn l) (hc : Reads cfg c B) (hrounds : l.length + B.length < rounds) :
    markLoop cfg eNewCumAck rounds v [] l c =
      passed (nrMark eNewCumAck B (leftAlone B l)) v [] l := by
  obtain ⟨rounds, rfl⟩ : ∃ k, rounds = k + 1 := ⟨rounds - 1, by omega⟩
  cases B with
  | nil =>
    rw [markLoop_done hc]
    refine passed_congr fun m _ v => ?_
    simp [nrMark, leftAlone, SendVars.mark, tsns]
  | cons b B =>
    cases l with
    | nil => simp [markLoop, passed, walkList]
    | cons n l =>
      simp only [List.length_cons] at hrounds
      by_cases hle : n.uiTsn ≤ b.uiEndTsn
      · rw [leftAlone, if_neg (by omega), markLoop_le hB hc hle, passed_cons, nrMark_head hB hle]
        exact markLoop_nr hcfg hB hl.tail hc (by simp) (by simp only [List.length_cons]; omega)
      · have hgt : b.uiEndTsn < n.uiTsn := by omega
        rw [leftAlone, if_pos hgt]
        cases B with
        | nil =>
          obtain ⟨rounds, rfl⟩ : ∃ k, rounds = k + 1 := ⟨rounds - 1, by omega⟩
          rw [markLoop_nr_last hcfg hB hc hgt]
          exact passed_nr_last hl hgt
        | cons b' B =>
          have hmark {E : List SendBufferNode} :
              nrMark eNewCumAck (b :: b' :: B) (n :: E) v n = (v, n) :=
            if_pos List.mem_cons_self
          rw [markLoop_nr_next hcfg hB hc hgt, if_pos rfl, passed_cons, hmark,
            markLoop_nr hcfg hB.tail hl.tail hc.2.2 (by simp)
              (by simp only [List.length_cons] at *; omega)]
          refine passed_congr fun m hm v => ?_
          have hnm := hl.head_lt m hm
          have hne : m ≠ n := fun he => by simp [he] at hnm
          have hgt' : b.uiEndTsn < m.uiTsn := by omega
          simp only [nrMark, List.mem_cons, hne, false_or, mem_tsns_cons_of_gt hgt']

/-! ## SACKs -/

/-- The TSNs of the buffer are consecutive. -/
def Consecutive : ℤ → List SendBufferNode → Prop
  | _, [] => True
  | t, n :: l => n.uiTsn = t ∧ Consecutive (t + 1) l

theorem Consecutive.le {t : ℤ} (h : Consecutive t l) : ∀ m ∈ l, t ≤ m.uiTsn := by
  induction l generalizing t with
  | nil => simp
  | cons n l ih =>
    obtain ⟨rfl, h⟩ := h
    intro m hm
    rcases List.mem_cons.mp hm with rfl | hm
    · exact le_rfl
    · have := ih h m hm
      omega

/-- A sorted buffer with all TSNs of an interval. -/
theorem consecutive_of_sorted {t sent : ℤ} (hl : SortedByTsn l)
    (h : ∀ i, (∃ n ∈ l, n.uiTsn = i) ↔ t < i ∧ i ≤ sent) : Consecutive (t + 1) l := by
  induction l generalizing t with
  | nil => trivial
  | cons n l ih =>
    have hn := (h n.uiTsn).mp ⟨n, List.mem_cons_self, rfl⟩
    obtain ⟨m, hm, hmt⟩ := (h (t + 1)).mpr ⟨by omega, by omega⟩
    have hnt : n.uiTsn = t + 1 := by
      rcases List.mem_cons.mp hm with rfl | hm
      · exact hmt
      · have := hl.head_lt m hm
        omega
    refine ⟨hnt, ih hl.tail fun i => ⟨?_, ?_⟩⟩
    · rintro ⟨m, hm, rfl⟩
      have := hl.head_lt m hm
      have := (h m.uiTsn).mp ⟨m, List.mem_cons_of_mem n hm, rfl⟩
      omega
    · rintro ⟨hi, hs⟩
      obtain ⟨m, hm, rfl⟩ := (h i).mpr ⟨by omega, hs⟩
      rcases List.mem_cons.mp hm with rfl | hm
      · omega
      · exact ⟨m, hm, rfl⟩

/-- The pass for a SACK: the chunk right behind a block is not compared with the next one. -/
def plainMark (eNewCumAck : Bool) (B : List TsnBlock) (v : SendVars) (n : SendBufferNode) :
    SendVars × SendBufferNode :=
  v.mark eNewCumAck (n.uiTsn ∈ tsns B ∧ ∀ a ∈ B, a.uiEndTsn + 1 ≠ n.uiTsn) n

theorem plainMark_of_le (hB : Disjointed (b :: B)) (hle : n.uiTsn ≤ b.uiEndTsn) :
    plainMark eNewCumAck (b :: B) v n = v.mark eNewCumAck (n.uiTsn ∈ tsns (b :: B)) n := by
  have hbehind : ∀ a ∈ b :: B, a.uiEndTsn + 1 ≠ n.uiTsn := fun a ha => by
    have := hB.head_end_le ha
    omega
  rw [plainMark, decide_eq_decide.mpr (and_iff_left hbehind)]

theorem plainMark_behind (hn : n.uiTsn = b.uiEndTsn + 1) :
    plainMark eNewCumAck (b :: B) v n = v.withdraw n := by
  rw [plainMark, decide_eq_false fun h => h.2 b List.mem_cons_self hn.symm]
  rfl

theorem plainMark_of_gt (hn : b.uiEndTsn + 1 < n.uiTsn) :
    plainMark eNewCumAck (b :: B) v n = plainMark eNewCumAck B v n := by
  have hne : b.uiEndTsn + 1 ≠ n.uiTsn := by omega
  have hgt : b.uiEndTsn < n.uiTsn := by omega
  simp only [plainMark, mem_tsns_cons_of_gt hgt, List.forall_mem_cons, hne, ne_eq,
    not_false_eq_true, true_and]

/-- The marking loops for a SACK. -/
theorem markLoop_plain {t : ℤ} (hcfg : cfg.eUseNonRenegSacks = false) (hB : Disjointed B)
    (hl : Consecutive t l) (ht : ∀ b ∈ B, t ≤ b.uiEndTsn + 1) (hc : Reads cfg c B)
    (hrounds : l.length < rounds) :
    markLoop cfg eNewCumAck rounds v before l c = passed (plainMark eNewCumAck B) v before l := by
  induction rounds generalizing v before l c B t with
  | zero => omega
  | succ rounds ih =>
    cases B with
    | nil =>
      rw [markLoop_done hc]
      refine passed_congr fun m _ v => ?_
      simp [plainMark, SendVars.mark, tsns]
    | cons b B =>
      cases l with
      | nil => simp [markLoop, passed, walkList]
      | cons n l =>
        obtain ⟨rfl, hl⟩ := hl
        simp only [List.length_cons] at hrounds
        have hb := ht b List.mem_cons_self
        by_cases hle : n.uiTsn ≤ b.uiEndTsn
        · have ht' : ∀ a ∈ b :: B, n.uiTsn + 1 ≤ a.uiEndTsn + 1 := fun a ha => by
            have := hB.head_end_le ha
            omega
          rw [markLoop_le hB hc hle, passed_cons, plainMark_of_le hB hle]
          exact ih hB hl ht' hc (by omega)
        · have hn : n.uiTsn = b.uiEndTsn + 1 := by omega
          have hle' := hB.head_le
          have ht' : ∀ a ∈ B, n.uiTsn + 1 ≤ a.uiEndTsn + 1 := fun a ha => by
            have := hB.head_lt a ha
            have := hB.tail.le a ha
            omega
          rw [markLoop, if_neg (by simp [hc.1]), hc.2.1, if_neg (by omega), if_neg (by omega),
            if_pos hcfg, passed_cons, plainMark_behind hn, ih hB.tail hl ht' hc.2.2 (by omega)]
          refine passed_congr fun m hm v => (plainMark_of_gt ?_).symm
          have := hl.le m hm
          omega

/-! ## When the flags are exact -/

/-- A chunk is flagged exactly if its TSN is in a block. -/
def FlagsExact (B : List TsnBlock) (l : List SendBufferNode) : Prop :=
  ∀ n ∈ l, n.eGapAcked = true ↔ n.uiTsn ∈ tsns B

/-- No chunk that is reported lies right behind another block. -/
def NotTouched (B : List TsnBlock) (l : List SendBufferNode) : Prop :=
  ∀ n ∈ l, n.uiTsn ∈ tsns B → ∀ a ∈ B, a.uiEndTsn + 1 ≠ n.uiTsn

@[simp] theorem gapAck_eGapAcked : (v.gapAck eNewCumAck n).2.eGapAcked = true := by
  by_cases h : n.eGapAcked = false
  · rw [SendVars.gapAck, if_pos h]
  · rw [SendVars.gapAck, if_neg h]
    exact Bool.eq_true_of_not_eq_false h

@[simp] theorem gapAck_uiTsn : (v.gapAck eNewCumAck n).2.uiTsn = n.uiTsn := by
  rw [SendVars.gapAck]
  split_ifs <;> rfl

@[simp] theorem withdraw_eGapAcked : (v.withdraw n).2.eGapAcked = false := by
  rw [SendVars.withdraw]
  split_ifs with h
  · rfl
  · exact Bool.eq_false_of_not_eq_true h

@[simp] theorem withdraw_uiTsn : (v.withdraw n).2.uiTsn = n.uiTsn := by
  rw [SendVars.withdraw]
  split_ifs <;> rfl

@[simp] theorem mark_eGapAcked {reported : Bool} :
    (v.mark eNewCumAck reported n).2.eGapAcked = reported := by
  cases reported <;> simp [SendVars.mark]

@[simp] theorem mark_uiTsn {reported : Bool} : (v.mark eNewCumAck reported n).2.uiTsn = n.uiTsn := by
  cases reported <;> simp [SendVars.mark]

theorem walkList_uiTsn {f : SendVars → SendBufferNode → SendVars × SendBufferNode}
    (h : ∀ v n, (f v n).2.uiTsn = n.uiTsn) :
    (walkList f v l).2.map SendBufferNode.uiTsn = l.map SendBufferNode.uiTsn := by
  induction l generalizing v with
  | nil => rfl
  | cons n l ih => simp [walkList, h, ih]

/-- The flags after a pass are exact if each chunk is flagged as its TSN says. -/
theorem flagsExact_walkList {f : SendVars → SendBufferNode → SendVars × SendBufferNode}
    {flag : SendBufferNode → Bool} (htsn : ∀ v n, (f v n).2.uiTsn = n.uiTsn)
    (hflag : ∀ v n, (f v n).2.eGapAcked = flag n) :
    FlagsExact B (walkList f v l).2 ↔ ∀ n ∈ l, flag n = true ↔ n.uiTsn ∈ tsns B := by
  induction l generalizing v with
  | nil => simp [FlagsExact, walkList]
  | cons n l ih =>
    have hcons {x : SendBufferNode} {l : List SendBufferNode} : FlagsExact B (x :: l) ↔
        (x.eGapAcked = true ↔ x.uiTsn ∈ tsns B) ∧ FlagsExact B l := List.forall_mem_cons
    rw [walkList, hcons, ih, htsn, hflag, List.forall_mem_cons]

theorem nrMark_uiTsn {E : List SendBufferNode} : (nrMark eNewCumAck B E v n).2.uiTsn = n.uiTsn := by
  rw [nrMark]
  split_ifs <;> simp

theorem nrMark_eGapAcked {E : List SendBufferNode} :
    (nrMark eNewCumAck B E v n).2.eGapAcked =
      if n ∈ E then n.eGapAcked else decide (n.uiTsn ∈ tsns B) := by
  rw [nrMark]
  split_ifs <;> simp

/-- The chunks that are left alone are in the buffer. -/
theorem leftAlone_mem (hn : n ∈ leftAlone B l) : n ∈ l := by
  cases B with
  | nil => simp [leftAlone] at hn
  | cons b B =>
    cases l with
    | nil => simp [leftAlone] at hn
    | cons m l =>
      rw [leftAlone] at hn
      split at hn
      · rcases List.mem_cons.mp hn with rfl | hn
        · exact List.mem_cons_self
        · exact List.mem_cons_of_mem m (exitNode_mem hn)
      · exact List.mem_cons_of_mem m (exitNode_mem hn)

/-- The flags are exact after the pass for an NR-SACK if they are before on the chunks that it
leaves alone. -/
theorem flagsExact_nr :
    FlagsExact B (walkList (nrMark eNewCumAck B (leftAlone B l)) v l).2 ↔
      FlagsExact B (leftAlone B l) := by
  rw [flagsExact_walkList (fun _ _ => nrMark_uiTsn) fun _ _ => nrMark_eGapAcked]
  constructor
  · intro h n hn
    simpa [hn] using h n (leftAlone_mem hn)
  · intro h n _
    by_cases hn : n ∈ leftAlone B l
    · simpa [hn] using h n hn
    · simp [hn]

/-- The flags are exact after the pass for a SACK if no reported chunk is right behind a block. -/
theorem flagsExact_plain :
    FlagsExact B (walkList (plainMark eNewCumAck B) v l).2 ↔ NotTouched B l := by
  have htsn (v : SendVars) (n : SendBufferNode) :
      (plainMark eNewCumAck B v n).2.uiTsn = n.uiTsn := mark_uiTsn
  have hflag (v : SendVars) (n : SendBufferNode) : (plainMark eNewCumAck B v n).2.eGapAcked =
      decide (n.uiTsn ∈ tsns B ∧ ∀ a ∈ B, a.uiEndTsn + 1 ≠ n.uiTsn) := mark_eGapAcked
  rw [flagsExact_walkList htsn hflag]
  refine forall₂_congr fun n _ => ?_
  rw [decide_eq_true_eq]
  exact and_iff_left_iff_imp

namespace SendState

/-- When a SACK is applied exactly. -/
def AppliesExactly (cfg : SendConfig) (s : SendState) (sack : Sack) : Prop :=
  if cfg.eUseNonRenegSacks then
    FlagsExact (sack.blocks cfg) (leftAlone (sack.blocks cfg) s.sSendBuffer)
  else NotTouched (sack.blocks cfg) s.sSendBuffer

/-- **The marking pass of `ProcessGapAckBlocks` ends, and flags exactly the chunks in the reported
blocks if and only if the chunks that it leaves alone are flagged so before, and, for SACKs,
no reported chunk lies right behind another block.** -/
theorem markGapAcked_exact_iff (cfg : SendConfig) (s : SendState) (sack : Sack) (eNewCumAck : Bool)
    (sent : ℤ) (removed : Set ℤ) (hsorted : SortedByTsn s.sSendBuffer)
    (hbuffer : ∀ t, (∃ n ∈ s.sSendBuffer, n.uiTsn = t) ↔
      sack.uiCumAck < t ∧ t ≤ sent ∧ t ∉ removed)
    (hremoved : cfg.eUseNonRenegSacks = false → removed = ∅)
    (hblocks : SackBlocks sack.gapAckBlocks sack.nonRenegBlocks)
    (hoffsets : ∀ b ∈ sack.gapAckBlocks ++ sack.nonRenegBlocks, sack.uiCumAck ≤ b.uiStartTsn) :
    ∃ s', s.markGapAcked cfg sack eNewCumAck = some s' ∧
      s'.sSendBuffer.map SendBufferNode.uiTsn = s.sSendBuffer.map SendBufferNode.uiTsn ∧
      (FlagsExact (sack.blocks cfg) s'.sSendBuffer ↔ s.AppliesExactly cfg sack) := by
  have hB : Disjointed (sack.blocks cfg) := blocks_disjointed hblocks
  have hc : Reads cfg (Cursor.init cfg sack) (sack.blocks cfg) := reads_init hblocks
  have hlength : (sack.blocks cfg).length ≤ sack.gapAckBlocks.length + sack.nonRenegBlocks.length :=
    length_blocks_le
  cases hcfg : cfg.eUseNonRenegSacks with
  | true =>
    have hpass : markLoop cfg eNewCumAck (markRounds s sack) s.toSendVars [] s.sSendBuffer
        (Cursor.init cfg sack) = _ := markLoop_nr_head hcfg hB hsorted hc (by rw [markRounds]; omega)
    refine ⟨_, by rw [markGapAcked, hpass]; rfl, ?_, ?_⟩
    · exact walkList_uiTsn fun _ _ => nrMark_uiTsn
    · rw [AppliesExactly, if_pos hcfg]
      exact flagsExact_nr
  | false =>
    have hconsecutive : Consecutive (sack.uiCumAck + 1) s.sSendBuffer := by
      have hall (t : ℤ) : (∃ n ∈ s.sSendBuffer, n.uiTsn = t) ↔ sack.uiCumAck < t ∧ t ≤ sent := by
        rw [hbuffer t, hremoved hcfg]
        simp
      exact consecutive_of_sorted hsorted hall
    have hends : ∀ b ∈ sack.blocks cfg, sack.uiCumAck + 1 ≤ b.uiEndTsn + 1 := fun b hb => by
      have hle := hB.le b hb
      have hmem : b ∈ sack.gapAckBlocks := by
        rw [Sack.blocks, hcfg] at hb
        simpa [mergeBlocks_nil] using hb
      have := hoffsets b (List.mem_append_left _ hmem)
      omega
    have hpass : markLoop cfg eNewCumAck (markRounds s sack) s.toSendVars [] s.sSendBuffer
        (Cursor.init cfg sack) = _ :=
      markLoop_plain hcfg hB hconsecutive hends hc (by rw [markRounds]; omega)
    refine ⟨_, by rw [markGapAcked, hpass]; rfl, ?_, ?_⟩
    · exact walkList_uiTsn fun _ _ => mark_uiTsn
    · rw [AppliesExactly, if_neg (by simp [hcfg])]
      exact flagsExact_plain

end SendState

/-! ## An NR-SACK that is overtaken -/

/-- A chunk of 1000 bytes on stream 0 that was sent once, to destination 0. -/
def sentChunk (uiTsn : ℤ) (eGapAcked : Bool) : SendBufferNode where
  uiTsn := uiTsn
  usLength := 1000
  usStreamId := 0
  eAdvancedAcked := false
  eGapAcked := eGapAcked
  eAddedToPartialBytesAcked := false
  iNumMissingReports := 0
  iUnrelRtxLimit := 0
  eMarkedForRtx := .NO_RTX
  eIneligibleForFastRtx := false
  iNumTxs := 1
  spDest := 0

/-- An association with one destination, stream 1 being unreliable. -/
def oneDest (eUseNonRenegSacks : Bool) : SendConfig where
  uiMaxDataSize := 1468
  uiMaxPayloadSize := 1480
  iFastRtxTrigger := 3
  iNumDests := 1
  unreliable := fun i => i = 1
  eUseNonRenegSacks := eUseNonRenegSacks
  eUseMaxBurst := true

/-- A sender whose chunks are the given ones, with TSNs from 1. -/
def withBuffer (l : List SendBufferNode) : SendState where
  dests := fun _ => ⟨3000, 65536, 0, (((l.filter fun n => ! n.eGapAcked).map
    SendBufferNode.usLength).sum : ℕ), 0, false⟩
  uiPeerRwnd := 65536
  uiNextTsn := l.length
  uiCumAckPoint := 0
  uiAdvancedPeerAckPoint := 0
  uiHighestTsnNewlyAcked := 0
  uiHighestTsnSent := 0
  uiRecover := 0
  eMarkedChunksPending := false
  eApplyMaxBurst := false
  eFastRtxNeeded := false
  uiArwnd := 65536
  wrapped := false
  sSendBuffer := l

namespace SendState

/-- An NR-SACK with the block [2,3] has arrived. -/
def overtaken : SendState := withBuffer [sentChunk 1 false, sentChunk 2 true, sentChunk 3 true]

/-- The NR-SACK that was sent before it, with the block [2,2]. -/
def overtakenSack : Sack := ⟨0, 60000, [⟨2, 2⟩], []⟩

theorem overtaken_sorted : SortedByTsn overtaken.sSendBuffer := by
  simp [SortedByTsn, overtaken, withBuffer, sentChunk]

theorem overtaken_buffer (t : ℤ) : (∃ n ∈ overtaken.sSendBuffer, n.uiTsn = t) ↔
    overtakenSack.uiCumAck < t ∧ t ≤ 3 ∧ t ∉ (∅ : Set ℤ) := by
  simp only [overtaken, withBuffer, sentChunk, overtakenSack, List.mem_cons, List.not_mem_nil,
    or_false, exists_eq_or_imp, exists_eq_left, Set.mem_empty_iff_false, not_false_eq_true,
    and_true]
  omega

theorem overtaken_blocks :
    SackBlocks overtakenSack.gapAckBlocks overtakenSack.nonRenegBlocks where
  gapBlocks := ⟨by simp [overtakenSack], List.pairwise_singleton _ _⟩
  nrBlocks := ⟨by simp [overtakenSack], List.Pairwise.nil⟩
  disjoint := by simp [overtakenSack]

theorem markGapAcked_exact_plain :
    ∃ s', overtaken.markGapAcked (oneDest false) overtakenSack false = some s' ∧
      s'.sSendBuffer.map SendBufferNode.uiTsn = overtaken.sSendBuffer.map SendBufferNode.uiTsn ∧
      (FlagsExact (overtakenSack.blocks (oneDest false)) s'.sSendBuffer ↔
        overtaken.AppliesExactly (oneDest false) overtakenSack) :=
  markGapAcked_exact_iff (oneDest false) overtaken overtakenSack false 3 ∅ overtaken_sorted
    overtaken_buffer (fun _ => rfl) overtaken_blocks (by simp [overtakenSack])

/-- **Chunk 3 is not in the block [2,2], and stays flagged: the loop ends at it.** -/
theorem not_marked_exactly : SortedByTsn overtaken.sSendBuffer ∧
    (∀ t, (∃ n ∈ overtaken.sSendBuffer, n.uiTsn = t) ↔
      overtakenSack.uiCumAck < t ∧ t ≤ 3 ∧ t ∉ (∅ : Set ℤ)) ∧
    SackBlocks overtakenSack.gapAckBlocks overtakenSack.nonRenegBlocks ∧
    ∃ s', overtaken.markGapAcked (oneDest true) overtakenSack false = some s' ∧
      ¬ FlagsExact (overtakenSack.blocks (oneDest true)) s'.sSendBuffer := by
  refine ⟨overtaken_sorted, overtaken_buffer, overtaken_blocks, ?_⟩
  obtain ⟨s', hs', hflags⟩ : ∃ s',
      overtaken.markGapAcked (oneDest true) overtakenSack false = some s' ∧
        s'.sSendBuffer = overtaken.sSendBuffer := ⟨_, rfl, by decide⟩
  refine ⟨s', hs', fun hexact => ?_⟩
  have hone : overtakenSack.blocks (oneDest true) = [⟨2, 2⟩] := mergeBlocks_nil
  have h3 := hexact (sentChunk 3 true) (by rw [hflags]; decide)
  rw [hone] at h3
  exact absurd (h3.mp rfl) (by decide)

end SendState

end Ns2.Sctp
