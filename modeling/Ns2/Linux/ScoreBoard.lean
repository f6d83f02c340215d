import Ns2.Lib.Tiling

/-!
# The scoreboard of TCP-Linux

`ScoreBoard1` of `tcp/scoreboard1.cc`: what a sender knows of the packets that are not
acknowledged yet, as a list of blocks.  A pointer to a node of the list is the position of the
node.  A function is `none` where an assertion fails, where a pointer to a node that was deleted
would be left, or where a loop does not end.

* `ScoreBoardNode1` — a block; a packet that was retransmitted is a block of its own.
* `cleanRtxQueue`, `sortSacks` — the first steps of `UpdateScoreBoard`.
* `Pass`, `mark`, `judge`, `advance` — the traversal, and the parts of one turn of it.
* `updateScoreBoard`, `markLoss`, `getNextRetran`, `markRetran`, `clearScoreBoard` — the
  operations.
-/

namespace Ns2.Linux

/-- What is known about the packets of a block. -/
inductive SkbFlag where
  /-- In flight, new packets. -/
  | inflight
  /-- Acknowledged by a SACK block. -/
  | sacked
  /-- Lost. -/
  | lost
  /-- In flight, a retransmitted packet. -/
  | retransmitted
  deriving DecidableEq, Repr

/-- A block; the link to the next one is the order of the list. -/
structure ScoreBoardNode1 where
  /-- What is known about the packets. -/
  flag_ : SkbFlag
  /-- First packet. -/
  seq_ : ℤ
  /-- Last packet; for a retransmitted packet, `snd_nxt` at the time. -/
  nxt_ : ℤ
  /-- For a retransmitted packet, the number of the retransmission. -/
  retran_ : ℤ
  deriving DecidableEq, Repr

namespace ScoreBoardNode1

/-- The constructor.  It does not set `retran_`, which nobody reads before `MarkRetran`. -/
def new (start finish : ℤ) (flag : SkbFlag) : ScoreBoardNode1 := ⟨flag, start, finish, 0⟩

/-- `GetStart`. -/
def getStart (n : ScoreBoardNode1) : ℤ := n.seq_

/-- `GetEnd`. -/
def getEnd (n : ScoreBoardNode1) : ℤ := if n.flag_ = .retransmitted then n.seq_ else n.nxt_

/-- `GetLength`. -/
def getLength (n : ScoreBoardNode1) : ℤ :=
  if n.flag_ = .retransmitted then 1 else n.nxt_ + 1 - n.seq_

/-- `SetFlag(flag)`. -/
def setFlag (n : ScoreBoardNode1) (flag : SkbFlag) : ScoreBoardNode1 :=
  { n with nxt_ := if n.flag_ = .retransmitted then n.seq_ else n.nxt_, flag_ := flag }

/-- `Inside(seq)`. -/
def Inside (n : ScoreBoardNode1) (seq : ℤ) : Prop :=
  if n.flag_ = .retransmitted then seq = n.seq_ else n.seq_ ≤ seq ∧ seq ≤ n.nxt_

instance (n : ScoreBoardNode1) (seq : ℤ) : Decidable (n.Inside seq) :=
  inferInstanceAs (Decidable (ite _ _ _))

/-- `ShouldClean(ackseq)`. -/
def shouldClean (n : ScoreBoardNode1) (ackseq : ℤ) : ℤ :=
  if ackseq < n.seq_ then 0
  else if n.flag_ = .retransmitted ∨ ackseq ≥ n.nxt_ then -1
  else ackseq + 1 - n.seq_

/-- `Mergable()`, with the next node. -/
def Mergable (n next : ScoreBoardNode1) : Prop :=
  next.flag_ ≠ .retransmitted ∧ next.flag_ = n.flag_

instance (n next : ScoreBoardNode1) : Decidable (n.Mergable next) :=
  inferInstanceAs (Decidable (_ ∧ _))

/-- `Merge()`, with the next node. -/
def merge (n next : ScoreBoardNode1) : ScoreBoardNode1 := { n with nxt_ := next.nxt_ }

/-- What `Split(seq)` leaves of the node. -/
def front (n : ScoreBoardNode1) (seq : ℤ) : ScoreBoardNode1 := { n with nxt_ := seq - 1 }

/-- The node that `Split(seq)` puts after it. -/
def back (n : ScoreBoardNode1) (seq : ℤ) : ScoreBoardNode1 := new seq n.nxt_ n.flag_

/-- `MarkRetran(snd_nxt, retrans_id)`: the node, and the one that is put after it. -/
def markRetran (n : ScoreBoardNode1) (snd_nxt retrans_id : ℤ) : List ScoreBoardNode1 :=
  { n with flag_ := .retransmitted, nxt_ := snd_nxt, retran_ := retrans_id } ::
    if n.nxt_ > n.seq_ then [n.back (n.seq_ + 1)] else []

end ScoreBoardNode1

open ScoreBoardNode1

/-- What `UpdateScoreBoard` returns. -/
structure AckFlag where
  /-- `FLAG_UNSURE_TSTAMP`. -/
  unsure_tstamp : Bool
  /-- `FLAG_DATA_SACKED`. -/
  data_sacked : Bool
  /-- `FLAG_DATA_LOST`. -/
  data_lost : Bool
  deriving DecidableEq, Repr

/-- The scoreboard. -/
structure ScoreBoard1 where
  /-- The nodes, from `head_` on. -/
  nodes : List ScoreBoardNode1
  /-- Position of the node to retransmit from. -/
  nxt_to_retrx_ : Option ℕ
  /-- Largest retransmission acknowledged. -/
  acked_rtx_id_ : ℤ
  /-- Number of the next retransmission. -/
  rtx_id_ : ℤ
  /-- The furthest packet in a SACK block. -/
  fack_ : ℤ
  /-- Packets that are deemed to be lost. -/
  fack_out_ : ℤ
  /-- Packets acknowledged by SACK blocks. -/
  sack_out_ : ℤ
  /-- The last packet retransmitted. -/
  last_rtx_seq_ : ℤ
  deriving DecidableEq, Repr

namespace ScoreBoard1

/-- `ClearScoreBoard`. -/
def clearScoreBoard (s : ScoreBoard1) : ScoreBoard1 :=
  { s with
    nodes := []
    nxt_to_retrx_ := none
    acked_rtx_id_ := -1
    rtx_id_ := 0
    fack_ := 0
    fack_out_ := 0
    sack_out_ := 0 }

/-- The constructor. -/
def new : ScoreBoard1 where
  nodes := []
  nxt_to_retrx_ := none
  acked_rtx_id_ := -1
  rtx_id_ := 0
  fack_ := 0
  fack_out_ := 0
  sack_out_ := 0
  last_rtx_seq_ := -1

/-- `packets_in_flight(snd_una, snd_nxt)`. -/
def packetsInFlight (s : ScoreBoard1) (snd_una snd_nxt : ℤ) : ℤ :=
  snd_nxt - snd_una - s.fack_out_ - s.sack_out_

/-! ## Acknowledged packets -/

/-- The counters, when `pkt_num` packets of a block are acknowledged. -/
def discount (s : ScoreBoard1) (flag : SkbFlag) (pkt_num : ℤ) : Option ScoreBoard1 :=
  match flag with
  | .sacked =>
    if s.sack_out_ - pkt_num ≥ 0 then some { s with sack_out_ := s.sack_out_ - pkt_num } else none
  | .lost =>
    if s.fack_out_ - pkt_num ≥ 0 then some { s with fack_out_ := s.fack_out_ - pkt_num } else none
  | _ => some s

/-- A pointer to a node, when the first node is deleted and was moved on from if it pointed
there. -/
def popFront (rest : List ScoreBoardNode1) : Option ℕ → Option ℕ
  | none => none
  | some 0 => if rest = [] then none else some 0
  | some (i + 1) => some i

/-- The loop of `CleanRtxQueue`; the result is the scoreboard, whether `acked_rtx_id_` has
changed, and the flags. -/
def cleanLoop (last_ack : ℤ) :
    List ScoreBoardNode1 → ScoreBoard1 → Bool → AckFlag → Option (ScoreBoard1 × Bool × AckFlag)
  | [], s, changed, flag => some ({ s with nodes := [] }, changed, flag)
  | n :: rest, s, changed, flag =>
    let cmp := n.shouldClean last_ack
    if cmp = 0 then some ({ s with nodes := n :: rest }, changed, flag)
    else
      (s.discount n.flag_ (if cmp < 0 then n.getLength else cmp)).bind fun s =>
        if cmp < 0 then
          let newer := n.flag_ = .retransmitted ∧ n.retran_ > s.acked_rtx_id_
          cleanLoop last_ack rest
            { s with
              acked_rtx_id_ := if newer then n.retran_ else s.acked_rtx_id_
              nxt_to_retrx_ := popFront rest s.nxt_to_retrx_ }
            (changed || newer)
            { flag with unsure_tstamp := flag.unsure_tstamp || n.flag_ = .retransmitted }
        else some ({ s with nodes := { n with seq_ := last_ack + 1 } :: rest }, changed, flag)

/-- `CleanRtxQueue`. -/
def cleanRtxQueue (s : ScoreBoard1) (last_ack : ℤ) : Option (ScoreBoard1 × Bool × AckFlag) :=
  cleanLoop last_ack s.nodes s false ⟨false, false, false⟩

end ScoreBoard1

/-! ## SACK blocks -/

/-- A block is put to its place among the blocks, which are sorted by their left edges. -/
def insertSack (l : List (ℤ × ℤ)) (b : ℤ × ℤ) : List (ℤ × ℤ) :=
  l.rdropWhile (fun c => c.1 > b.1) ++ b :: l.rtakeWhile fun c => c.1 > b.1

/-- The blocks that are no D-SACK, sorted. -/
def sortSacks (last_ack : ℤ) (sacks : List (ℤ × ℤ)) : List (ℤ × ℤ) :=
  sacks.foldl (fun l b => if b.1 ≥ last_ack then insertSack l b else l) []

/-! ## The traversal -/

/-- The state of the traversal. -/
structure Pass where
  /-- The nodes before `now`, the nearest one first. -/
  before : List ScoreBoardNode1
  /-- The nodes from `now` on. -/
  after : List ScoreBoardNode1
  /-- The SACK blocks from `sack_index` on. -/
  sacks : List (ℤ × ℤ)
  /-- All nodes are to be looked at. -/
  thorough : Bool
  /-- Position of the node to retransmit from. -/
  nxt_to_retrx_ : Option ℕ
  /-- Largest retransmission acknowledged. -/
  acked_rtx_id_ : ℤ
  /-- Packets that are deemed to be lost. -/
  fack_out_ : ℤ
  /-- Packets acknowledged by SACK blocks. -/
  sack_out_ : ℤ
  /-- What is returned. -/
  flag : AckFlag
  deriving DecidableEq, Repr

namespace Pass

/-- `now` is acknowledged by a SACK block. -/
def sacked (p : Pass) (now : ScoreBoardNode1) (rest : List ScoreBoardNode1) : Pass :=
  { p with
    after := now.setFlag .sacked :: rest
    fack_out_ := if now.flag_ = .lost then p.fack_out_ - now.getLength else p.fack_out_
    acked_rtx_id_ := if now.flag_ = .retransmitted then now.retran_ else p.acked_rtx_id_
    thorough := p.thorough || now.flag_ = .retransmitted
    sack_out_ := p.sack_out_ + now.getLength
    flag :=
      { p.flag with
        unsure_tstamp := p.flag.unsure_tstamp || now.flag_ = .retransmitted
        data_sacked := true } }

/-- The first half of a turn: the SACK block that meets `now` is looked for. -/
def mark (p : Pass) : Pass :=
  match p.after with
  | [] => p
  | now :: rest =>
    let p := { p with sacks := p.sacks.dropWhile fun b => b.2 ≤ now.getStart }
    match p.sacks with
    | [] => p
    | (left, right) :: _ =>
      if left ≤ now.getEnd then
        if left > now.getStart then { p with after := now.front left :: now.back left :: rest }
        else if right ≤ now.getEnd then p.sacked (now.front right) (now.back right :: rest)
        else p.sacked now rest
      else p

/-- `if (!nxt_to_retrx_) nxt_to_retrx_ = now;` -/
def point (p : Pass) : Pass :=
  { p with nxt_to_retrx_ := if p.nxt_to_retrx_ = none then some p.before.length else p.nxt_to_retrx_ }

/-- `now` is lost. -/
def lose (p : Pass) (now : ScoreBoardNode1) (rest : List ScoreBoardNode1) : Pass :=
  { p with
    after := now.setFlag .lost :: rest
    fack_out_ := p.fack_out_ + now.getLength
    flag := { p.flag with data_lost := true } }.point

/-- No SACK block meets `now`. -/
def Uncovered (p : Pass) (now : ScoreBoardNode1) : Prop :=
  match p.sacks with
  | [] => True
  | b :: _ => b.1 > now.getEnd

instance (p : Pass) (now : ScoreBoardNode1) : Decidable (p.Uncovered now) := by
  unfold Uncovered
  split <;> infer_instance

/-- The second half of a turn: is `now` lost? -/
def judge (fack dupack_threshold : ℤ) (p : Pass) : Pass :=
  match p.after with
  | [] => p
  | now :: rest =>
    if p.Uncovered now then
      match now.flag_ with
      | .retransmitted =>
        if now.nxt_ ≤ fack ∨ now.retran_ + dupack_threshold + 1 < p.acked_rtx_id_ then
          p.lose now rest
        else p
      | .inflight =>
        let lost_seq_threshold := fack - (dupack_threshold + 1)
        if now.getStart ≤ lost_seq_threshold then
          if lost_seq_threshold < now.getEnd then
            p.lose (now.front (lost_seq_threshold + 1)) (now.back (lost_seq_threshold + 1) :: rest)
          else p.lose now rest
        else p
      | .lost => p.point
      | .sacked => p
    else p

/-- The end of a turn: `now` is merged with the node before it if it can be, and the traversal
moves on. -/
def advance (fack : ℤ) (p : Pass) : Option Pass :=
  let extend (prev : ScoreBoardNode1) (rest : List ScoreBoardNode1) : List ScoreBoardNode1 :=
    if rest = [] ∧ prev.getEnd < fack then [.new (prev.getEnd + 1) fack .inflight] else rest
  match p.after, p.before with
  | [], _ => some p
  | now :: rest, [] => some { p with before := [now], after := extend now rest }
  | now :: rest, prev :: before =>
    if prev.Mergable now then
      if p.nxt_to_retrx_ = some p.before.length then none
      else
        some { p with before := prev.merge now :: before, after := extend (prev.merge now) rest }
    else some { p with before := now :: prev :: before, after := extend now rest }

/-- One turn of the traversal. -/
def turn (fack dupack_threshold : ℤ) (p : Pass) : Option Pass :=
  match p.after with
  | [] => some p
  | now :: _ =>
    if now.flag_ ≠ .sacked then (p.mark.judge fack dupack_threshold).advance fack
    else p.advance fack

/-- The loop. -/
def loop (fack dupack_threshold : ℤ) (fuel : ℕ) (p : Pass) : Option Pass :=
  match fuel with
  | 0 => none
  | fuel + 1 =>
    if p.after ≠ [] ∧ (p.sacks ≠ [] ∨ p.thorough) then
      (p.turn fack dupack_threshold).bind (loop fack dupack_threshold fuel)
    else some p

end Pass

namespace ScoreBoard1

/-- The traversal starts at the first node. -/
def startPass (s : ScoreBoard1) (sacks : List (ℤ × ℤ)) (thorough : Bool) (flag : AckFlag) : Pass where
  before := []
  after := s.nodes
  sacks := sacks
  thorough := thorough
  nxt_to_retrx_ := none
  acked_rtx_id_ := s.acked_rtx_id_
  fack_out_ := s.fack_out_
  sack_out_ := s.sack_out_
  flag := flag

/-- What the traversal leaves. -/
def endPass (s : ScoreBoard1) (p : Pass) : ScoreBoard1 × AckFlag :=
  ({ s with
    nodes := p.before.reverse ++ p.after
    nxt_to_retrx_ := p.nxt_to_retrx_
    acked_rtx_id_ := p.acked_rtx_id_
    fack_out_ := p.fack_out_
    sack_out_ := p.sack_out_ }, p.flag)

/-- Every turn of the traversal leaves a packet behind, so there are no more turns than this. -/
def turns (s : ScoreBoard1) : ℕ :=
  (max s.fack_ (s.nodes.getLast?.elim 0 getEnd) + 1 - s.nodes.head?.elim 0 getStart).toNat + 1

/-- The traversal. -/
def traverse (s : ScoreBoard1) (dupack_threshold : ℤ) (sacks : List (ℤ × ℤ)) (thorough : Bool)
    (flag : AckFlag) : Option (ScoreBoard1 × AckFlag) :=
  ((s.startPass sacks thorough flag).loop s.fack_ dupack_threshold s.turns).map s.endPass

/-- The SACK blocks reach further than before. -/
def advanced (s : ScoreBoard1) (sorted : List (ℤ × ℤ)) : Bool :=
  (sorted.getLast?.map Prod.snd).any fun right => s.fack_ < right - 1

/-- `fack_` advances, and an empty scoreboard gets its first node. -/
def framed (s : ScoreBoard1) (last_ack : ℤ) (sorted : List (ℤ × ℤ)) : ScoreBoard1 :=
  let fack := if s.advanced sorted then (sorted.getLast?.map Prod.snd).elim 0 id - 1 else s.fack_
  { s with
    fack_ := fack
    nodes := if s.nodes = [] then [.new (last_ack + 1) fack .inflight] else s.nodes }

/-- `UpdateScoreBoard`, after `CleanRtxQueue`. -/
def updateCleaned (s : ScoreBoard1) (last_ack : ℤ) (sacks : List (ℤ × ℤ)) (dupack_threshold : ℤ)
    (thorough : Bool) (flag : AckFlag) : Option (ScoreBoard1 × AckFlag) :=
  if ¬ thorough ∧ sacks = [] then some (s, flag)
  else
    let sorted := sortSacks last_ack sacks
    if ¬ thorough ∧ sorted = [] then some (s, flag)
    else
      (s.framed last_ack sorted).traverse dupack_threshold sorted (thorough || s.advanced sorted)
        flag

/-- `UpdateScoreBoard`. -/
def updateScoreBoard (s : ScoreBoard1) (last_ack : ℤ) (sacks : List (ℤ × ℤ))
    (dupack_threshold : ℤ) : Option (ScoreBoard1 × AckFlag) :=
  (s.cleanRtxQueue last_ack).bind fun r =>
    if r.1.nodes = [] then
      r.1.clearScoreBoard.updateCleaned last_ack sacks dupack_threshold false r.2.2
    else r.1.updateCleaned last_ack sacks dupack_threshold r.2.1 r.2.2

/-! ## Losses and retransmissions -/

/-- The loop of `MarkLoss`; the nodes before `now` are given with the nearest one first. -/
def lossLoop (snd_nxt : ℤ) : ℕ → List ScoreBoardNode1 → List ScoreBoardNode1 → Bool → ScoreBoard1 →
    Option ScoreBoard1
  | 0, _, _, _, _ => none
  | _ + 1, before, [], _, s => some { s with nodes := before.reverse }
  | fuel + 1, before, now :: rest, last_lost, s =>
    let next (prev : ScoreBoardNode1) : List ScoreBoardNode1 :=
      if rest = [] ∧ prev.getEnd + 1 < snd_nxt then
        [.new (prev.getEnd + 1) (snd_nxt - 1) .inflight]
      else rest
    if now.flag_ ≠ .sacked then
      let s := { s with
        fack_out_ :=
          if now.flag_ ≠ .lost then s.fack_out_ + (now.getEnd - now.getStart + 1) else s.fack_out_ }
      let now := now.setFlag .lost
      match last_lost, before with
      | true, prev :: before =>
        let prev := prev.merge now
        lossLoop snd_nxt fuel (prev :: before) (next prev) true s
      | _, before =>
        let s := { s with
          nxt_to_retrx_ := if s.nxt_to_retrx_ = none then some before.length else s.nxt_to_retrx_ }
        lossLoop snd_nxt fuel (now :: before) (next now) true s
    else lossLoop snd_nxt fuel (now :: before) (next now) false s

/-- `MarkLoss(snd_una, snd_nxt)`. -/
def markLoss (s : ScoreBoard1) (snd_una snd_nxt : ℤ) : Option ScoreBoard1 :=
  (lossLoop snd_nxt (s.nodes.length + 2) [] s.nodes false { s with nxt_to_retrx_ := none }).map
    fun s₁ =>
      let s₂ := if s₁.nodes = [] ∧ snd_una < snd_nxt then
        { s₁ with
          nodes := [.new snd_una (snd_nxt - 1) .lost]
          nxt_to_retrx_ := some 0
          fack_out_ := s₁.fack_out_ + (snd_nxt - snd_una) } else s₁
      { s₂ with rtx_id_ := 0, acked_rtx_id_ := -1 }

/-- The loop of `GetNextRetran`, from a node at position `i` on. -/
def skipLoop : List ScoreBoardNode1 → ℕ → Option ℕ
  | [], _ => none
  | n :: l, i => if n.flag_ ≠ .lost then skipLoop l (i + 1) else some i

/-- `GetNextRetran`. -/
def getNextRetran (s : ScoreBoard1) : ScoreBoard1 × ℤ :=
  let nxt := s.nxt_to_retrx_.bind fun i => skipLoop (s.nodes.drop i) i
  ({ s with nxt_to_retrx_ := nxt }, (nxt.bind fun i => s.nodes[i]?).elim (-1) getStart)

/-- `MarkRetran(retran_seqno, snd_nxt)`. -/
def markRetran (s : ScoreBoard1) (retran_seqno snd_nxt : ℤ) : Option ScoreBoard1 :=
  s.nxt_to_retrx_.bind fun i =>
    s.nodes[i]?.bind fun n =>
      if n.Inside retran_seqno ∧ s.fack_out_ - 1 ≥ 0 then
        some { s with
          fack_out_ := s.fack_out_ - 1
          nodes := s.nodes.take i ++ n.markRetran snd_nxt s.rtx_id_ ++ s.nodes.drop (i + 1)
          rtx_id_ := s.rtx_id_ + 1
          last_rtx_seq_ := retran_seqno }
      else none

end ScoreBoard1

end Ns2.Linux
