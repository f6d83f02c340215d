import Ns2.Sctp.TsnBlocks

/-!
# SACK and NR-SACK chunks

What `GenChunk` writes into a SACK or an NR-SACK, and what is read back from it.  The entries that
follow the header are words of four bytes: a gap ack block is two `u_short` offsets from the
cumulative ack, as a little-endian machine keeps them, and a duplicate is a TSN.

* `appendWords` — the loops that append entries while there is room.
* `splitLoop`, `genGapBlocks` — the gap ack blocks of an NR-SACK, without the TSNs that will not be
  reneged.
* `GenSack`, `GenNonRenegSack` — the two cases of `GenChunk`.
* `sack_describes_itself_iff` — when the counts of a SACK are those of its entries.
-/

namespace Ns2.Sctp

/-- A `SctpGapAckBlock_S` with the offsets of a block from the cumulative ack. -/
def TsnBlock.word (uiCumAck : ℤ) (b : TsnBlock) : ℕ :=
  ((b.uiStartTsn - uiCumAck) % 2 ^ 16).toNat + 2 ^ 16 * ((b.uiEndTsn - uiCumAck) % 2 ^ 16).toNat

/-- The TSNs that a `SctpGapAckBlock_S` stands for. -/
def blockOf (uiCumAck : ℤ) (w : ℕ) : TsnBlock :=
  ⟨uiCumAck + (w % 2 ^ 16 : ℕ), uiCumAck + (w / 2 ^ 16 : ℕ)⟩

/-- Blocks are read one after the other; `none` when that goes beyond the chunk. -/
def readBlocks (uiCumAck : ℤ) : ℕ → List ℕ → Option (List TsnBlock)
  | 0, _ => some []
  | _ + 1, [] => none
  | n + 1, w :: ws => (readBlocks uiCumAck n ws).map (blockOf uiCumAck w :: ·)

/-- A loop that appends the entries of a list: the size it reaches, the entries, and what is left
of the list. -/
def appendWords {α : Type*} (word : α → ℕ) (uiMaxDataSize : ℕ) : ℕ → List α → ℕ × List ℕ × List α
  | iSize, [] => (iSize, [], [])
  | iSize, a :: l =>
    if iSize + 4 < uiMaxDataSize then
      let rest := appendWords word uiMaxDataSize (iSize + 4) l
      (rest.1, word a :: rest.2.1, rest.2.2)
    else (iSize, [], a :: l)

/-- `SctpSackChunk_S`, with the entries that follow it. -/
structure SackChunk where
  usLength : ℕ
  uiCumAck : ℤ
  uiArwnd : ℕ
  usNumGapAckBlocks : ℕ
  usNumDupTsns : ℕ
  entries : List ℕ
deriving DecidableEq

/-- `SctpNonRenegSackChunk_S`, with the entries that follow it. -/
structure NonRenegSackChunk extends SackChunk where
  usNumNonRenegSackBlocks : ℕ
deriving DecidableEq

/-- The gap ack blocks of a chunk, as many as the header says. -/
def SackChunk.gapAckBlocks (c : SackChunk) : Option (List TsnBlock) :=
  readBlocks c.uiCumAck c.usNumGapAckBlocks c.entries

/-- The non-renegable blocks, which follow the gap ack blocks. -/
def NonRenegSackChunk.nonRenegBlocks (c : NonRenegSackChunk) : Option (List TsnBlock) :=
  readBlocks c.uiCumAck c.usNumNonRenegSackBlocks (c.entries.drop c.usNumGapAckBlocks)

/-- The loop that splits a received block around non-renegable ones: the size it reaches, the
blocks it writes, and the non-renegable blocks from the current one on.  `none` when the rounds do
not suffice. -/
def splitLoop (uiMaxDataSize : ℕ) (gapAckBlockEndTsn : ℤ) :
    ℕ → ℕ → ℤ → List TsnBlock → Option (ℕ × List TsnBlock × List TsnBlock)
  | 0, _, _, _ => none
  | rounds + 1, iSize, divided, nonReneg =>
    if divided ≤ gapAckBlockEndTsn ∧ iSize + 4 < uiMaxDataSize then
      match nonReneg with
      | [] => some (iSize + 4, [⟨divided, gapAckBlockEndTsn⟩], [])
      | b :: l =>
        if b.uiStartTsn > gapAckBlockEndTsn then
          some (iSize + 4, [⟨divided, gapAckBlockEndTsn⟩], b :: l)
        else if divided = b.uiStartTsn then
          if l = [] then
            if b.uiEndTsn + 1 ≤ gapAckBlockEndTsn then
              some (iSize + 4, [⟨b.uiEndTsn + 1, gapAckBlockEndTsn⟩], [])
            else some (iSize, [], [])
          else splitLoop uiMaxDataSize gapAckBlockEndTsn rounds iSize (b.uiEndTsn + 1) l
        else if divided < b.uiStartTsn then
          (splitLoop uiMaxDataSize gapAckBlockEndTsn rounds (iSize + 4) b.uiStartTsn (b :: l)).map
            fun res => (res.1, ⟨divided, b.uiStartTsn - 1⟩ :: res.2.1, res.2.2)
        else splitLoop uiMaxDataSize gapAckBlockEndTsn rounds iSize divided (b :: l)
    else some (iSize, [], nonReneg)

/-- The loop over the received blocks: the size it reaches and the gap ack blocks it writes. -/
def genGapBlocks (uiMaxDataSize : ℕ) :
    ℕ → List TsnBlock → List TsnBlock → Option (ℕ × List TsnBlock)
  | iSize, [], _ => some (iSize, [])
  | iSize, g :: gaps, nonReneg =>
    if iSize + 4 < uiMaxDataSize then
      match nonReneg with
      | [] =>
        (genGapBlocks uiMaxDataSize (iSize + 4) gaps []).map fun res => (res.1, g :: res.2)
      | b :: l =>
        if g.uiEndTsn < b.uiStartTsn then
          (genGapBlocks uiMaxDataSize (iSize + 4) gaps (b :: l)).map fun res => (res.1, g :: res.2)
        else if g.uiStartTsn ≤ b.uiStartTsn ∧ b.uiStartTsn ≤ g.uiEndTsn then
          if g.uiStartTsn = b.uiStartTsn ∧ g.uiEndTsn = b.uiEndTsn then
            genGapBlocks uiMaxDataSize iSize gaps l
          else
            (splitLoop uiMaxDataSize g.uiEndTsn (2 * (b :: l).length + 1) iSize g.uiStartTsn
              (b :: l)).bind fun split =>
                (genGapBlocks uiMaxDataSize split.1 gaps split.2.2).map
                  fun res => (res.1, split.2.1 ++ res.2)
        -- the warning that should not be reached
        else genGapBlocks uiMaxDataSize iSize gaps (b :: l)
    else some (iSize, [])

namespace Receiver

/-- The gap ack blocks that are appended to a SACK, with the size reached. -/
def sackBlocks (r : Receiver) (uiMaxDataSize : ℕ) : ℕ × List ℕ × List TsnBlock :=
  appendWords (TsnBlock.word r.uiCumAck) uiMaxDataSize 16 r.sRecvTsnBlockList

/-- The duplicates that are appended behind `iSize`, with the size reached and those left. -/
def appendDups (r : Receiver) (uiMaxDataSize iSize : ℕ) : ℕ × List ℕ × List ℤ :=
  appendWords Int.toNat uiMaxDataSize iSize r.sDupTsnList

/-- `GenChunk` for a SACK; the duplicates appended are deleted from their list. -/
def GenSack (r : Receiver) (uiMaxDataSize : ℕ) : SackChunk × Receiver :=
  let blocks := r.sackBlocks uiMaxDataSize
  let dups := r.appendDups uiMaxDataSize blocks.1
  ({ usLength := dups.1 % 2 ^ 16
     uiCumAck := r.uiCumAck
     uiArwnd := r.uiMyRwnd
     usNumGapAckBlocks := r.sRecvTsnBlockList.length % 2 ^ 16
     usNumDupTsns := r.sDupTsnList.length % 2 ^ 16
     entries := blocks.2.1 ++ dups.2.1 },
   { r with sDupTsnList := dups.2.2 })

/-- `GenChunk` for an NR-SACK. -/
def GenNonRenegSack (r : Receiver) (uiMaxDataSize : ℕ) : Option (NonRenegSackChunk × Receiver) :=
  (genGapBlocks uiMaxDataSize 20 r.sRecvTsnBlockList r.sNonRenegTsnBlockList).map fun gaps =>
    let blocks :=
      appendWords (TsnBlock.word r.uiCumAck) uiMaxDataSize gaps.1 r.sNonRenegTsnBlockList
    let dups := r.appendDups uiMaxDataSize blocks.1
    ({ usLength := dups.1 % 2 ^ 16
       uiCumAck := r.uiCumAck
       uiArwnd := r.uiMyRwnd
       usNumGapAckBlocks := gaps.2.length % 2 ^ 16
       usNumNonRenegSackBlocks := r.sNonRenegTsnBlockList.length % 2 ^ 16
       usNumDupTsns := r.sDupTsnList.length % 2 ^ 16
       entries := gaps.2.map (TsnBlock.word r.uiCumAck) ++ blocks.2.1 ++ dups.2.1 },
     { r with sDupTsnList := dups.2.2 })

end Receiver

/-! ## Appending and reading back -/

variable {α : Type*} {word : α → ℕ} {l : List α} {uiMaxDataSize iSize n : ℕ} {c : ℤ} {b : TsnBlock}

/-- How many entries have room behind `iSize` bytes. -/
def room (uiMaxDataSize iSize : ℕ) : ℕ := (uiMaxDataSize - iSize - 1) / 4

/-- The loop appends as many entries as there is room for. -/
theorem appendWords_eq :
    appendWords word uiMaxDataSize iSize l =
      (iSize + 4 * min l.length (room uiMaxDataSize iSize),
        (l.take (room uiMaxDataSize iSize)).map word, l.drop (room uiMaxDataSize iSize)) := by
  induction l generalizing iSize with
  | nil => simp [appendWords]
  | cons a l ih =>
    rw [appendWords]
    by_cases h : iSize + 4 < uiMaxDataSize
    · have hroom : room uiMaxDataSize iSize = room uiMaxDataSize (iSize + 4) + 1 := by
        simp only [room]
        omega
      rw [if_pos h, ih, hroom, List.take_succ_cons, List.drop_succ_cons, List.length_cons]
      simp only [List.map_cons, Prod.mk.injEq, and_true]
      omega
    · have hroom : room uiMaxDataSize iSize = 0 := by
        simp only [room]
        omega
      rw [if_neg h, hroom]
      simp

theorem readBlocks_append {ws ws' : List ℕ} :
    readBlocks c ws.length (ws ++ ws') = some (ws.map (blockOf c)) := by
  induction ws with
  | nil => rfl
  | cons w ws ih => rw [List.length_cons, List.cons_append, readBlocks, ih, Option.map_some,
      List.map_cons]

/-- A block above the cumulative ack is read back if its end is not too far from it. -/
theorem blockOf_word_iff (hs : c < b.uiStartTsn) (he : b.uiStartTsn ≤ b.uiEndTsn) :
    blockOf c (b.word c) = b ↔ b.uiEndTsn - c < 2 ^ 16 := by
  have hw₁ : b.word c % 2 ^ 16 = ((b.uiStartTsn - c) % 2 ^ 16).toNat := by
    rw [TsnBlock.word]
    omega
  have hw₂ : b.word c / 2 ^ 16 = ((b.uiEndTsn - c) % 2 ^ 16).toNat := by
    rw [TsnBlock.word]
    omega
  rw [blockOf, hw₁, hw₂]
  constructor
  · intro h
    have hend := congrArg TsnBlock.uiEndTsn h
    simp only at hend
    omega
  · intro h
    have hend : c + (((b.uiEndTsn - c) % 2 ^ 16).toNat : ℤ) = b.uiEndTsn := by omega
    have hstart : c + (((b.uiStartTsn - c) % 2 ^ 16).toNat : ℤ) = b.uiStartTsn := by omega
    rw [hend, hstart]

/-! ## The counts of a SACK -/

namespace Receiver

variable {r : Receiver}

/-- The counts of a SACK are those of its entries, and the blocks read are the first ones of the
list. -/
structure DescribesItself (r : Receiver) (uiMaxDataSize : ℕ) : Prop where
  blocks : (r.GenSack uiMaxDataSize).1.usNumGapAckBlocks =
    (r.sackBlocks uiMaxDataSize).2.1.length
  dups : (r.GenSack uiMaxDataSize).1.usNumDupTsns =
    (r.appendDups uiMaxDataSize (r.sackBlocks uiMaxDataSize).1).2.1.length
  readBack : (r.GenSack uiMaxDataSize).1.gapAckBlocks =
    some (r.sRecvTsnBlockList.take (r.GenSack uiMaxDataSize).1.usNumGapAckBlocks)

/-- As many entries as there is room for can be told from a 16-bit count: they all have room and
are fewer than 2^16, or there are too many by a multiple of 2^16. -/
def Counted (n room : ℕ) : Prop := n ≤ room ∧ n < 2 ^ 16 ∨ room < n ∧ n % 2 ^ 16 = room

theorem counted_iff {n k : ℕ} : n % 2 ^ 16 = min n k ↔ Counted n k := by
  rw [Counted]
  omega

/-- The blocks and then the duplicates have room, and no block that has room ends further than
65535 behind the cumulative ack. -/
structure HasRoom (r : Receiver) (uiMaxDataSize : ℕ) : Prop where
  blocks : Counted r.sRecvTsnBlockList.length (room uiMaxDataSize 16)
  dups : Counted r.sDupTsnList.length
    (room uiMaxDataSize 16 - min r.sRecvTsnBlockList.length (room uiMaxDataSize 16))
  offsets : ∀ b ∈ r.sRecvTsnBlockList.take (room uiMaxDataSize 16),
    b.uiEndTsn - r.uiCumAck < 2 ^ 16

/-- **A SACK describes its own contents exactly when these have room.** -/
theorem sack_describes_itself_iff (uiMaxDataSize : ℕ)
    (habove : ∀ b ∈ r.sRecvTsnBlockList, r.uiCumAck < b.uiStartTsn ∧ b.uiStartTsn ≤ b.uiEndTsn) :
    r.DescribesItself uiMaxDataSize ↔ r.HasRoom uiMaxDataSize := by
  have hblocks : (r.sackBlocks uiMaxDataSize).2.1 =
      (r.sRecvTsnBlockList.take (room uiMaxDataSize 16)).map (TsnBlock.word r.uiCumAck) := by
    rw [sackBlocks, appendWords_eq]
  have hlen : (r.sackBlocks uiMaxDataSize).2.1.length =
      min r.sRecvTsnBlockList.length (room uiMaxDataSize 16) := by
    rw [hblocks, List.length_map, List.length_take, min_comm]
  have hdups : (r.appendDups uiMaxDataSize (r.sackBlocks uiMaxDataSize).1).2.1.length =
      min r.sDupTsnList.length
        (room uiMaxDataSize 16 - min r.sRecvTsnBlockList.length (room uiMaxDataSize 16)) := by
    have hroom : room uiMaxDataSize (r.sackBlocks uiMaxDataSize).1 =
        room uiMaxDataSize 16 - min r.sRecvTsnBlockList.length (room uiMaxDataSize 16) := by
      rw [sackBlocks, appendWords_eq]
      simp only [room]
      omega
    rw [appendDups, appendWords_eq, List.length_map, List.length_take, hroom, min_comm]
  have hread : (r.GenSack uiMaxDataSize).1.usNumGapAckBlocks =
        (r.sackBlocks uiMaxDataSize).2.1.length →
      ((r.GenSack uiMaxDataSize).1.gapAckBlocks =
          some (r.sRecvTsnBlockList.take (r.GenSack uiMaxDataSize).1.usNumGapAckBlocks) ↔
        ∀ b ∈ r.sRecvTsnBlockList.take (room uiMaxDataSize 16),
          b.uiEndTsn - r.uiCumAck < 2 ^ 16) := by
    intro hcount
    have htake : r.sRecvTsnBlockList.take (r.sackBlocks uiMaxDataSize).2.1.length =
        r.sRecvTsnBlockList.take (room uiMaxDataSize 16) := by
      rw [hlen, min_comm, ← List.take_take, List.take_length]
    have hentries : (r.GenSack uiMaxDataSize).1.entries = (r.sackBlocks uiMaxDataSize).2.1 ++
        (r.appendDups uiMaxDataSize (r.sackBlocks uiMaxDataSize).1).2.1 := rfl
    rw [SackChunk.gapAckBlocks, hcount, htake, hentries, readBlocks_append, hblocks,
      Option.some.injEq, List.map_map]
    have hcum : (r.GenSack uiMaxDataSize).1.uiCumAck = r.uiCumAck := rfl
    rw [hcum]
    have hmap : ∀ l : List TsnBlock, l.map (blockOf r.uiCumAck ∘ TsnBlock.word r.uiCumAck) = l ↔
        ∀ b ∈ l, blockOf r.uiCumAck (b.word r.uiCumAck) = b := by
      intro l
      conv_lhs => rw [← List.map_id l, List.map_map]
      exact List.map_inj_left
    rw [hmap]
    refine forall₂_congr fun b hb => ?_
    obtain ⟨h1, h2⟩ := habove b (List.mem_of_mem_take hb)
    exact blockOf_word_iff h1 h2
  constructor
  · rintro ⟨h1, h2, h3⟩
    refine ⟨counted_iff.mp (h1.trans hlen), counted_iff.mp (h2.trans hdups), (hread h1).mp h3⟩
  · rintro ⟨h1, h2, h3⟩
    have hcount : (r.GenSack uiMaxDataSize).1.usNumGapAckBlocks =
        (r.sackBlocks uiMaxDataSize).2.1.length := (counted_iff.mpr h1).trans hlen.symm
    exact ⟨hcount, (counted_iff.mpr h2).trans hdups.symm, (hread hcount).mpr h3⟩

instance (n room : ℕ) : Decidable (Counted n room) := inferInstanceAs (Decidable (_ ∨ _))

/-- A new receiver with blocks and duplicates. -/
def withBlocks (blocks : List TsnBlock) (dups : List ℤ) : Receiver :=
  { Receiver.init 131072 1 (fun _ => .reliable) false with
    sRecvTsnBlockList := blocks
    sDupTsnList := dups }

/-- A SACK with two blocks and a duplicate. -/
theorem sack_describes_itself_small : (withBlocks [⟨3, 4⟩, ⟨7, 7⟩] [3]).DescribesItself 1468 :=
  (sack_describes_itself_iff 1468 (by decide)).mpr ⟨by decide, by decide, by decide⟩

/-- Every other TSN, `n` times. -/
def everyOther (n : ℕ) : List TsnBlock := (List.range n).map fun i : ℕ => ⟨2 * i + 2, 2 * i + 2⟩

theorem length_everyOther {n : ℕ} : (everyOther n).length = n := by simp [everyOther]

theorem everyOther_above {n : ℕ} : ∀ b ∈ (withBlocks (everyOther n) []).sRecvTsnBlockList,
    (withBlocks (everyOther n) []).uiCumAck < b.uiStartTsn ∧ b.uiStartTsn ≤ b.uiEndTsn := by
  intro b hb
  obtain ⟨i, -, rfl⟩ := List.mem_map.mp hb
  exact ⟨show (0 : ℤ) < 2 * (i : ℤ) + 2 by omega, le_rfl⟩

/-- One block more than there is room for. -/
theorem not_describes_itself_long : ¬ (withBlocks (everyOther 363) []).DescribesItself 1468 := by
  intro h
  have hcounted := ((sack_describes_itself_iff 1468 everyOther_above).mp h).blocks
  have hlen : (withBlocks (everyOther 363) []).sRecvTsnBlockList.length = 363 := length_everyOther
  rw [hlen] at hcounted
  exact absurd hcounted (by decide)

end Receiver

end Ns2.Sctp
