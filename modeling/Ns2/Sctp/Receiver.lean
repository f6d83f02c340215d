import Mathlib

/-!
# The receiving side of an SCTP association

The model of the receive variables of `SctpAgent` in `sctp/sctp.cc`: the TSNs that have arrived,
and the streams in which chunks wait for their turn.

* `IsDuplicateChunk`, `updateBlocks` — what is known of the TSNs: the cumulative ack, the highest
  TSN, and the blocks of TSNs above the cumulative ack.
* `PassToStream`, `UpdateAllStreams` — chunks on their way to the upper layer.
* `buildBlocks` — the blocks of TSNs that will not be reneged.
* `ProcessDataChunk`, `ProcessForwardTsnChunk` — what arrives.

TSNs do not wrap, and are integers; stream sequence numbers are taken modulo 2^16 as in the code.
The two lists `streamed` and `passed` keep the calls of `PassToStream` and `PassToUpperLayer`.
-/

namespace Ns2.Sctp

/-- `SctpRecvTsnBlock_S`: the TSNs from the first to the second. -/
structure TsnBlock where
  uiStartTsn : ℤ
  uiEndTsn : ℤ
deriving DecidableEq

/-- `SctpDataChunkHdr_S`. -/
structure DataChunk where
  uiTsn : ℤ
  usLength : ℕ
  usStreamId : ℕ
  usStreamSeqNum : ℕ
  /-- `SCTP_DATA_FLAG_UNORDERED` is set. -/
  unordered : Bool
deriving DecidableEq

/-- `SctpStreamMode_E`. -/
inductive StreamMode where
  | reliable
  | unreliable
deriving DecidableEq

/-- `SctpInStream_S`. -/
structure InStream where
  eMode : StreamMode
  usNextStreamSeqNum : ℕ
  sBufferedChunkList : List DataChunk
deriving DecidableEq

/-- The receive variables of an agent. -/
structure Receiver where
  uiCumAck : ℤ
  uiHighestRecvTsn : ℤ
  sRecvTsnBlockList : List TsnBlock
  sDupTsnList : List ℤ
  uiMyRwnd : ℕ
  iNumInStreams : ℕ
  spInStreams : ℕ → InStream
  eUseNonRenegSacks : Bool
  sNonRenegTsnList : List ℤ
  sNonRenegTsnBlockList : List TsnBlock
  eSackChunkNeeded : Bool
  /-- The chunks given to `PassToStream`. -/
  streamed : List DataChunk
  /-- The chunks given to `PassToUpperLayer`. -/
  passed : List DataChunk

/-- A receiver before anything has arrived. -/
def Receiver.init (uiInitialRwnd iNumInStreams : ℕ) (eMode : ℕ → StreamMode)
    (eUseNonRenegSacks : Bool) : Receiver where
  uiCumAck := 0
  uiHighestRecvTsn := 0
  sRecvTsnBlockList := []
  sDupTsnList := []
  uiMyRwnd := uiInitialRwnd
  iNumInStreams := iNumInStreams
  spInStreams i := ⟨eMode i, 0, []⟩
  eUseNonRenegSacks := eUseNonRenegSacks
  sNonRenegTsnList := []
  sNonRenegTsnBlockList := []
  eSackChunkNeeded := false
  streamed := []
  passed := []

/-- The linear search for the place of `a` in a list that ascends by `key`; `a` is put there
unless its key is in the list. -/
def insertOnce {α : Type*} (key : α → ℤ) (a : α) : List α → List α
  | [] => [a]
  | b :: l =>
    if key a ≤ key b then if key b ≠ key a then a :: b :: l else b :: l
    else b :: insertOnce key a l

/-! ## The TSNs that have arrived -/

/-- The search of `IsDuplicateChunk` in the blocks. -/
def inBlocks (uiTsn : ℤ) : List TsnBlock → Bool
  | [] => false
  | b :: l =>
    if b.uiStartTsn ≤ uiTsn ∧ uiTsn ≤ b.uiEndTsn then true
    else if b.uiEndTsn > uiTsn then false
    else inBlocks uiTsn l

/-- `UpdateCumAck`. -/
def updateCumAck : ℤ → List TsnBlock → ℤ
  | uiCumAck, [] => uiCumAck
  | uiCumAck, b :: l =>
    if uiCumAck + 1 = b.uiStartTsn then updateCumAck b.uiEndTsn l else uiCumAck

/-- The cumulative ack after `UpdateCumAck`, and the blocks. -/
def withCumAck (uiCumAck : ℤ) (l : List TsnBlock) : ℤ × List TsnBlock := (updateCumAck uiCumAck l, l)

/-- The assignment `spPrevNode->uiEndTsn = uiEndTsn`, for the last node of a list. -/
def setLastEnd (uiEndTsn : ℤ) : List TsnBlock → List TsnBlock
  | [] => []
  | [b] => [{ b with uiEndTsn := uiEndTsn }]
  | b :: l => b :: setLastEnd uiEndTsn l

/-- The loop of `UpdateRecvTsnBlocks`, with the nodes it has passed and `uiLow`. -/
def updateLoop (uiCumAck uiTsn : ℤ) : List TsnBlock → ℤ → List TsnBlock → ℤ × List TsnBlock
  | before, uiLow, [] =>
    if uiTsn = uiLow then
      if uiTsn = uiCumAck + 1 then withCumAck uiTsn before
      -- `spPrevNode->uiEndTsn++`, which is `uiLow`
      else (uiCumAck, setLastEnd uiLow before)
    else (uiCumAck, before ++ [⟨uiTsn, uiTsn⟩])
  | before, uiLow, b :: l =>
    let uiHigh := b.uiStartTsn - 1
    if uiLow ≤ uiTsn ∧ uiTsn ≤ uiHigh then
      let uiGapSize := uiHigh - uiLow + 1
      if uiGapSize > 1 then
        if uiTsn = uiHigh then
          withCumAck uiCumAck (before ++ { b with uiStartTsn := uiTsn } :: l)
        else if uiTsn = uiLow then
          if uiTsn = uiCumAck + 1 then withCumAck (uiCumAck + 1) (before ++ b :: l)
          else withCumAck uiCumAck (setLastEnd uiTsn before ++ b :: l)
        else (uiCumAck, before ++ ⟨uiTsn, uiTsn⟩ :: b :: l)
      else if uiLow = uiCumAck + 1 then withCumAck b.uiEndTsn (before ++ l)
      else withCumAck uiCumAck (setLastEnd b.uiEndTsn before ++ l)
    else updateLoop uiCumAck uiTsn (before ++ [b]) (b.uiEndTsn + 1) l

/-- `UpdateRecvTsnBlocks`: the cumulative ack and the blocks. -/
def updateBlocks (uiCumAck uiTsn : ℤ) (l : List TsnBlock) : ℤ × List TsnBlock :=
  updateLoop uiCumAck uiTsn [] (uiCumAck + 1) l

namespace Receiver

/-- `UpdateHighestTsn`. -/
def UpdateHighestTsn (r : Receiver) (uiTsn : ℤ) : Receiver × Bool :=
  if uiTsn > r.uiHighestRecvTsn then ({ r with uiHighestRecvTsn := uiTsn }, true) else (r, false)

/-- `IsDuplicateChunk`. -/
def IsDuplicateChunk (r : Receiver) (uiTsn : ℤ) : Bool :=
  if uiTsn ≤ r.uiCumAck then true
  else if ¬ (r.uiCumAck < uiTsn ∧ uiTsn ≤ r.uiHighestRecvTsn) then false
  else inBlocks uiTsn r.sRecvTsnBlockList

/-- `InsertDuplicateTsn`. -/
def InsertDuplicateTsn (r : Receiver) (uiTsn : ℤ) : Receiver :=
  { r with sDupTsnList := insertOnce id uiTsn r.sDupTsnList }

/-- `UpdateRecvTsnBlocks`. -/
def UpdateRecvTsnBlocks (r : Receiver) (uiTsn : ℤ) : Receiver :=
  { r with
    uiCumAck := (updateBlocks r.uiCumAck uiTsn r.sRecvTsnBlockList).1
    sRecvTsnBlockList := (updateBlocks r.uiCumAck uiTsn r.sRecvTsnBlockList).2 }

/-! ## Streams -/

/-- `PassToUpperLayer`. -/
def PassToUpperLayer (r : Receiver) (c : DataChunk) : Receiver :=
  { r with uiMyRwnd := r.uiMyRwnd + c.usLength, passed := r.passed ++ [c] }

/-- A chunk above the cumulative ack that has been passed up will not be reneged. -/
def noteNonReneg (r : Receiver) (c : DataChunk) : Receiver :=
  if r.eUseNonRenegSacks ∧ c.uiTsn > r.uiCumAck then
    { r with sNonRenegTsnList := insertOnce id c.uiTsn r.sNonRenegTsnList }
  else r

/-- An assignment to the stream `i`. -/
def setStream (r : Receiver) (i : ℕ) (s : InStream) : Receiver :=
  { r with spInStreams := Function.update r.spInStreams i s }

/-- `InsertInStreamBuffer`. -/
def InsertInStreamBuffer (c : DataChunk) (l : List DataChunk) : List DataChunk :=
  insertOnce (fun c => (c.usStreamSeqNum : ℤ)) c l

/-- `PassToStream`. -/
def PassToStream (r : Receiver) (c : DataChunk) : Receiver :=
  let r := { r with streamed := r.streamed ++ [c] }
  if c.unordered then (r.PassToUpperLayer c).noteNonReneg c
  else
    let s := r.spInStreams c.usStreamId
    r.setStream c.usStreamId
      { s with sBufferedChunkList := InsertInStreamBuffer c s.sBufferedChunkList }

/-- The loop of `UpdateAllStreams` over the buffer of one stream: the receiver, and the rest of
the buffer. -/
def updateStream (i : ℕ) : List DataChunk → Receiver → Receiver
  | [], r => r.setStream i { r.spInStreams i with sBufferedChunkList := [] }
  | c :: l, r =>
    let s := r.spInStreams i
    if s.eMode = .unreliable ∧ c.uiTsn ≤ r.uiCumAck then
      updateStream i l
        ((r.setStream i { s with usNextStreamSeqNum := (c.usStreamSeqNum + 1) % 2 ^ 16 }).PassToUpperLayer
          c)
    else if c.usStreamSeqNum = s.usNextStreamSeqNum then
      updateStream i l
        (((r.setStream i
          { s with usNextStreamSeqNum := (s.usNextStreamSeqNum + 1) % 2 ^ 16 }).PassToUpperLayer
          c).noteNonReneg c)
    else r.setStream i { s with sBufferedChunkList := c :: l }

/-- The loop of `BuildNonRenegTsnBlockList`, with the block so far and the TSN before; 0 is for no
block.  It leaves the TSNs that stay in the list, and the blocks. -/
def buildBlocks (uiCumAck : ℤ) : ℤ → ℤ → ℤ → List ℤ → List ℤ × List TsnBlock
  | _, _, _, [] => ([], [])
  | uiStartTsn, uiEndTsn, prev, uiCurrTsn :: l =>
    if uiCurrTsn ≤ uiCumAck then buildBlocks uiCumAck 0 uiEndTsn prev l
    else if uiStartTsn = 0 then
      if l = [] then ([uiCurrTsn], [⟨uiCurrTsn, uiCurrTsn⟩])
      else
        let rest := buildBlocks uiCumAck uiCurrTsn uiCurrTsn uiCurrTsn l
        (uiCurrTsn :: rest.1, rest.2)
    else
      let uiEndTsn := if prev = uiCurrTsn - 1 then uiCurrTsn else uiEndTsn
      if prev ≠ uiCurrTsn - 1 ∨ l = [] then
        let last := if l = [] ∧ uiEndTsn ≠ uiCurrTsn then [⟨uiCurrTsn, uiCurrTsn⟩] else []
        let rest := buildBlocks uiCumAck uiCurrTsn uiCurrTsn uiCurrTsn l
        (uiCurrTsn :: rest.1, ⟨uiStartTsn, uiEndTsn⟩ :: last ++ rest.2)
      else
        let rest := buildBlocks uiCumAck uiStartTsn uiEndTsn uiCurrTsn l
        (uiCurrTsn :: rest.1, rest.2)

/-- `BuildNonRenegTsnBlockList`. -/
def BuildNonRenegTsnBlockList (r : Receiver) : Receiver :=
  { r with
    sNonRenegTsnList := (buildBlocks r.uiCumAck 0 0 0 r.sNonRenegTsnList).1
    sNonRenegTsnBlockList := (buildBlocks r.uiCumAck 0 0 0 r.sNonRenegTsnList).2 }

/-- The loop of `UpdateAllStreams` over the streams. -/
def updateStreams (r : Receiver) : Receiver :=
  (List.range r.iNumInStreams).foldl
    (fun r i => updateStream i (r.spInStreams i).sBufferedChunkList r) r

/-- `UpdateAllStreams`. -/
def UpdateAllStreams (r : Receiver) : Receiver :=
  if r.updateStreams.eUseNonRenegSacks then r.updateStreams.BuildNonRenegTsnBlockList
  else r.updateStreams

/-! ## What arrives -/

/-- `ProcessDataChunk`. -/
def ProcessDataChunk (r : Receiver) (c : DataChunk) : Receiver :=
  if c.usLength ≤ r.uiMyRwnd then
    let (r, updated) := r.UpdateHighestTsn c.uiTsn
    if updated ≠ true ∧ r.IsDuplicateChunk c.uiTsn = true then
      { r.InsertDuplicateTsn c.uiTsn with eSackChunkNeeded := true }
    else
      let r := { r with uiMyRwnd := r.uiMyRwnd - c.usLength }
      ((r.UpdateRecvTsnBlocks c.uiTsn).PassToStream c).UpdateAllStreams
  else { r with eSackChunkNeeded := false }

/-- A `u_int` as an `int`. -/
def toInt (n : ℤ) : ℤ := if n < 2 ^ 31 then n else n - 2 ^ 32

/-- The loop `for (i = uiCumAck+1; i <= (int) uiNewCum; i++)`, by the rounds that are left; `i` is
used as a `u_int` again. -/
def forwardLoop : ℕ → ℤ → Receiver → Receiver
  | 0, _, r => r
  | n + 1, i, r =>
    forwardLoop n (i + 1)
      (if r.IsDuplicateChunk (i % 2 ^ 32) = false then r.UpdateRecvTsnBlocks (i % 2 ^ 32) else r)

/-- `ProcessForwardTsnChunk`; `none` when the loop does not end, as no `int` is above
`2 ^ 31 - 1`. -/
def ProcessForwardTsnChunk (r : Receiver) (uiNewCum : ℤ) : Option Receiver :=
  if toInt uiNewCum = 2 ^ 31 - 1 then none
  else
    some (forwardLoop (toInt uiNewCum - toInt (r.uiCumAck + 1) + 1).toNat (toInt (r.uiCumAck + 1))
      r).UpdateAllStreams

end Receiver

end Ns2.Sctp
