import Ns2.Lib.ModRing

/-!
# The ring scoreboard

`ScoreBoard` of `tcp/scoreboard.cc`: what a sender knows of the packets after the cumulative ACK,
in a ring of entries that grows.  The entry of packet `i` is in the slot `i % sbsize_`.  A function
is `none` where an assertion fails, where the program exits with an error, or where a loop does not
end.

* `ScoreBoardNode`, `Sack`, `ScoreBoard` — an entry, a block of a packet, the scoreboard.
* `acknowledge`, `create`, `block` — the parts of `UpdateScoreBoard`.
* `grow`, `resizeSB` — the ring is copied to a larger one.
* `updateScoreBoard`, `markRetran`, `getNextRetran` — the operations.
-/

namespace Ns2.Tcp

/-- What is known of a packet. -/
structure ScoreBoardNode where
  /-- Packet number. -/
  seq_no_ : ℤ
  /-- Acked by cumulative ACK. -/
  ack_flag_ : Bool
  /-- Acked by SACK block. -/
  sack_flag_ : Bool
  /-- Packet retransmitted. -/
  retran_ : Bool
  /-- `snd_nxt` at time of retransmission. -/
  snd_nxt_ : ℤ
  deriving DecidableEq

namespace ScoreBoardNode

/-- A new entry. -/
def fresh (i : ℤ) : ScoreBoardNode := ⟨i, false, false, false, 0⟩

/-- The packet is acknowledged by a cumulative ACK. -/
def acked (n : ScoreBoardNode) : ScoreBoardNode :=
  { n with
    ack_flag_ := true
    sack_flag_ := true
    retran_ := false
    snd_nxt_ := if n.retran_ then 0 else n.snd_nxt_ }

/-- The packet is acknowledged by a SACK block. -/
def sacked (n : ScoreBoardNode) : ScoreBoardNode := { n with sack_flag_ := true, retran_ := false }

/-- The packet is retransmitted; one of the two functions `MarkRetran` keeps `snd_nxt`. -/
def retransmitted (n : ScoreBoardNode) (snd_nxt : Option ℤ) : ScoreBoardNode :=
  { n with retran_ := true, snd_nxt_ := snd_nxt.getD n.snd_nxt_ }

end ScoreBoardNode

open ScoreBoardNode

/-- A SACK block: the packets from `sack_left` to before `sack_right`. -/
structure SackBlock where
  sack_left : ℤ
  sack_right : ℤ
  deriving DecidableEq

/-- The block covers a packet. -/
def SackBlock.Covers (b : SackBlock) (i : ℤ) : Prop := b.sack_left ≤ i ∧ i < b.sack_right

instance (b : SackBlock) (i : ℤ) : Decidable (b.Covers i) := inferInstanceAs (Decidable (_ ∧ _))

/-- The scoreboard. -/
structure ScoreBoard where
  first_ : ℤ
  length_ : ℤ
  sbsize_ : ℤ
  changed_ : ℤ
  SBN : ℤ → ScoreBoardNode

namespace ScoreBoard

/-- The constructor; nobody has written to the ring. -/
def new (SBN : ℤ → ScoreBoardNode) (sz : ℤ) : ScoreBoard := ⟨0, 0, sz, 0, SBN⟩

/-- `SBNI`: the entry of packet `i`. -/
def SBNI (s : ScoreBoard) (i : ℤ) : ScoreBoardNode := s.SBN (i.tmod s.sbsize_)

/-- `SBNI = n`. -/
def setSBNI (s : ScoreBoard) (i : ℤ) (n : ScoreBoardNode) : ScoreBoard :=
  { s with SBN := Function.update s.SBN (i.tmod s.sbsize_) n }

/-! ## The left edge -/

/-- One packet is acknowledged. -/
def ackFirst (s : ScoreBoard) (i : ℤ) : ScoreBoard :=
  { s.setSBNI i (s.SBNI i).acked with
    first_ := s.first_ + 1
    length_ := s.length_ - 1
    changed_ := s.changed_ + 1 }

/-- The loop that advances the left edge, for `k` turns from packet `i` on.  It counts the
retransmitted packets. -/
def advance (last_ack : ℤ) : ℕ → ℤ → ScoreBoard → ℤ → Option (ScoreBoard × ℤ)
  | 0, _, s, retran_decr => some (s, retran_decr)
  | k + 1, i, s, retran_decr =>
    if (s.SBNI i).seq_no_ ≤ last_ack then
      if s.first_ = i ∧ s.length_ - 1 ≥ 0 then
        let retran_decr := if (s.SBNI i).retran_ then retran_decr + 1 else retran_decr
        if s.length_ - 1 = 0 then some (s.ackFirst i, retran_decr)
        else advance last_ack k (i + 1) (s.ackFirst i) retran_decr
      else none
    else advance last_ack k (i + 1) s retran_decr

/-- Advance the left edge of the board. -/
def acknowledge (s : ScoreBoard) (last_ack : ℤ) : Option (ScoreBoard × ℤ) :=
  let i := (s.SBNI s.first_).seq_no_
  if s.length_ ≠ 0 ∧ i ≤ last_ack then advance last_ack (last_ack + 1 - i).toNat i s 0
  else some (s, 0)

/-! ## New entries -/

/-- An entry for packet `i` is created. -/
def enterOne (s : ScoreBoard) (i : ℤ) : Option ScoreBoard :=
  if s.length_ + 1 ≥ s.sbsize_ then none
  else some { s.setSBNI i (fresh i) with
    length_ := s.length_ + 1
    changed_ := s.changed_ + 1 }

/-- If there is no scoreboard, create one. -/
def create (s : ScoreBoard) (last_ack : ℤ) (blocks : List SackBlock) : Option ScoreBoard :=
  if s.length_ = 0 ∧ blocks ≠ [] then enterOne { s with first_ := last_ack + 1 } (last_ack + 1)
  else some s

/-- `resizeSB(sz)`; `junk` is what the memory of the new ring holds. -/
def resizeSB (junk : ℤ → ScoreBoardNode) (s : ScoreBoard) (sz : ℤ) : ScoreBoard :=
  { s with
    SBN := ModRing.copy s.sbsize_ sz (s.SBNI s.first_).seq_no_ s.SBN (s.length_ + 1).toNat junk
    sbsize_ := sz }

/-- Resize the scoreboard if it is going to overrun the length, in at most `k` turns.  The memory
for a ring of `sz` entries holds `junk sz`. -/
def grow (junk : ℤ → ℤ → ScoreBoardNode) (last_ack sack_right : ℤ) :
    ℕ → ScoreBoard → Option ScoreBoard
  | 0, s => if sack_right - last_ack ≥ s.sbsize_ - 1 then none else some s
  | k + 1, s =>
    if sack_right - last_ack ≥ s.sbsize_ - 1 then
      grow junk last_ack sack_right k (s.resizeSB (junk (s.sbsize_ * 2)) (s.sbsize_ * 2))
    else some s

/-- The loop that creates `k` new entries, from packet `i` on. -/
def enter : ℕ → ℤ → ScoreBoard → Option ScoreBoard
  | 0, _, s => some s
  | k + 1, i, s => (s.enterOne i).bind (enter k (i + 1))

/-- Packet number of the last entry. -/
def lastSeq (s : ScoreBoard) : ℤ := (s.SBNI (s.first_ + s.length_ + s.sbsize_ - 1)).seq_no_

/-- Create new entries off the right side.  A ring of two slots or more is doubled at most as often
as there are packets up to the right edge. -/
def extend (junk : ℤ → ℤ → ScoreBoardNode) (s : ScoreBoard) (last_ack sack_right : ℤ) :
    Option ScoreBoard :=
  if sack_right > s.lastSeq then
    (grow junk last_ack sack_right (sack_right - last_ack).toNat s).bind fun s =>
      enter (sack_right - (s.lastSeq + 1)).toNat (s.lastSeq + 1) s
  else some s

/-! ## Blocks -/

/-- Check to see if a segment is now covered by the SACK block. -/
def coverOne (b : SackBlock) (i : ℤ) (x : ScoreBoard × ℤ) : ScoreBoard × ℤ :=
  let n := x.1.SBNI i
  if b.Covers n.seq_no_ then
    ({ x.1.setSBNI i n.sacked with
        changed_ := if n.sack_flag_ then x.1.changed_ else x.1.changed_ + 1 },
      if n.retran_ then x.2 + 1 else x.2)
  else x

/-- The loop over `k` entries, from packet `i` on. -/
def cover (b : SackBlock) : ℕ → ℤ → ScoreBoard × ℤ → ScoreBoard × ℤ
  | 0, _, x => x
  | k + 1, i, x => cover b k (i + 1) (coverOne b i x)

/-- One SACK block. -/
def block (junk : ℤ → ℤ → ScoreBoardNode) (last_ack : ℤ) (x : ScoreBoard × ℤ) (b : SackBlock) :
    Option (ScoreBoard × ℤ) :=
  (x.1.extend junk last_ack b.sack_right).map fun s =>
    let i := (s.SBNI s.first_).seq_no_
    cover b (b.sack_right - i).toNat i (s, x.2)

/-! ## The operations -/

/-- `UpdateScoreBoard(last_ack, tcph)`, with the blocks of the packet.  It returns the number of
retransmitted packets that are acknowledged. -/
def updateScoreBoard (junk : ℤ → ℤ → ScoreBoardNode) (s : ScoreBoard) (last_ack : ℤ)
    (blocks : List SackBlock) : Option (ScoreBoard × ℤ) := do
  let (s, retran_decr) ← { s with changed_ := 0 }.acknowledge last_ack
  let s ← s.create last_ack blocks
  blocks.foldlM (block junk last_ack) (s, retran_decr)

/-- `MarkRetran(retran_seqno, snd_nxt)`, and `MarkRetran(retran_seqno)`. -/
def markRetran (s : ScoreBoard) (retran_seqno : ℤ) (snd_nxt : Option ℤ) : ScoreBoard :=
  s.setSBNI retran_seqno ((s.SBNI retran_seqno).retransmitted snd_nxt)

/-- The packet is not acked and not sacked and not retransmitted. -/
def Missing (n : ScoreBoardNode) : Prop :=
  n.ack_flag_ = false ∧ n.sack_flag_ = false ∧ n.retran_ = false

instance (n : ScoreBoardNode) : Decidable (Missing n) := inferInstanceAs (Decidable (_ ∧ _ ∧ _))

/-- `GetNextRetran()`. -/
def getNextRetran (s : ScoreBoard) : ℤ :=
  if s.length_ ≠ 0 then
    let i := (s.SBNI s.first_).seq_no_
    (((List.range s.length_.toNat).map fun k : ℕ => i + k).find? fun j => Missing (s.SBNI j)).getD
      (-1)
  else -1

end ScoreBoard

end Ns2.Tcp
