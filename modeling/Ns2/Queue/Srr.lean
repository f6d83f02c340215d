import Mathlib

/-!
# Smoothed round robin

The model of the weight matrix in `queue/srr.cc` and of the spread sequence in `queue/wss.h`.  A node of
the matrix is a queue and a column, a column is the list of the queues of its nodes, and a row is the
list of the columns of its nodes.

* `rawScan`, `WSS.get`, `inc_ptr` — the sequence, and the pointer into it.
* `add_to_WM`, `del_from_WM` — a queue joins, a queue leaves.
* `getNextNode` — the next node.
* `Op`, `step` — what can happen to the matrix, with the weights of the queues in it.

A function returns nothing when the program exits, or uses a null pointer.
-/

namespace Ns2.Queue

open Function (update)

def MAXFLOW : ℕ := 100

def MAXWSSORDER : ℕ := 16

/-! ## The spread sequence -/

/-- `rawScan(i, j, N)`; the last argument is `N - j`. -/
def rawScan (i N : ℕ) : ℕ → ℕ
  | 0 => N
  | n + 1 => if i % 2 ^ (N - (n + 1)) ≠ 0 then N - (n + 1) else rawScan i N n

/-- The sequence that `WSS::init` makes. -/
def pwss (p : ℕ) : ℕ := rawScan (p + 1) MAXWSSORDER (MAXWSSORDER - 1)

/-- `WSS::get`. -/
def WSS.get (ptr order : ℕ) : Option ℕ := if 2 ^ order < ptr + 2 then none else some (pwss ptr)

/-- `WSS::inc_ptr`. -/
def WSS.inc_ptr (ptr order : ℕ) : ℕ := if 2 ^ order < ptr + 1 + 2 then 0 else ptr + 1

/-! ## The weight matrix -/

structure SRR where
  /-- The nodes between `wmHead` and `wmTail`. -/
  column : ℕ → List ℕ
  /-- The nodes from `pRowHead` on. -/
  row : ℕ → List ℕ
  pwmCurr : Option (ℕ × ℕ)
  wmEmptyFlag : Bool
  maxColumn : ℕ
  currMaxColumn : ℤ
  ptr : ℕ

/-- A node before that of the queue `q`. -/
def insertBefore (q queueid : ℕ) : List ℕ → List ℕ
  | [] => []
  | x :: l => if x = q then queueid :: x :: l else x :: insertBefore q queueid l

/-- The node after that of the queue `q`, unless it is the tail. -/
def nextOf (q : ℕ) : List ℕ → Option ℕ
  | [] => none
  | x :: l => if x = q then l.head? else nextOf q l

namespace SRR

/-- The constructor. -/
def new : SRR where
  column := fun _ => []
  row := fun _ => []
  pwmCurr := none
  wmEmptyFlag := true
  maxColumn := 0
  currMaxColumn := -1
  ptr := 0

variable (s : SRR)

/-- The column with a new node: before the current node, if it is there, and else at the end. -/
def columnWith (queueid i : ℕ) : List ℕ :=
  match s.pwmCurr with
  | none => s.column i ++ [queueid]
  | some (q, c) =>
    if c = i then insertBefore q queueid (s.column i) else s.column i ++ [queueid]

/-- A new node in column `i`. -/
def addNode (queueid i : ℕ) : SRR :=
  { s with
    column := update s.column i (s.columnWith queueid i)
    row := update s.row queueid (s.row queueid ++ [i])
    pwmCurr := if s.wmEmptyFlag = true ∧ s.pwmCurr = none then some (queueid, i) else s.pwmCurr
    wmEmptyFlag := false
    currMaxColumn := max s.currMaxColumn i }

/-- The loop of `add_to_WM`, from the column `n - 1` down. -/
def addNodes (queueid weight : ℕ) : ℕ → SRR → SRR
  | 0, s => s
  | n + 1, s => addNodes queueid weight n (if weight.testBit n then s.addNode queueid n else s)

/-- `add_to_WM`. -/
def add_to_WM (queueid weight : ℕ) : Option SRR :=
  if weight = 0 then none
  else if 2 ^ (s.maxColumn + 1) - 1 < weight then none
  else
    let old_colno := s.currMaxColumn
    let s := addNodes queueid weight (s.maxColumn + 1) s
    if old_colno < s.currMaxColumn ∧ 0 ≤ old_colno then
      some { s with ptr := (s.ptr + 1) * 2 ^ (s.currMaxColumn - old_colno).toNat - 1 }
    else some s

/-- The loops at `again` in `getNextNode` and at `loop` in `del_from_WM`. -/
def again : ℕ → SRR → Option SRR
  | 0, _ => none
  | n + 1, s =>
    let order := (s.currMaxColumn + 1).toNat
    (WSS.get s.ptr order).bind fun wss_term =>
      let temp := order - wss_term
      match s.column temp with
      | [] => again n { s with ptr := WSS.inc_ptr s.ptr order }
      | q :: _ => some { s with ptr := WSS.inc_ptr s.ptr order, pwmCurr := some (q, temp) }

/-- The terms that are read before the sequence begins again. -/
def terms : ℕ := 2 ^ (s.currMaxColumn + 1).toNat

/-- The highest column below `n` with a node, or -1. -/
def highest (column : ℕ → List ℕ) : ℕ → ℤ
  | 0 => -1
  | n + 1 => if column n ≠ [] then n else highest column n

/-- The matrix without the row of a queue; the current node has moved on before. -/
def withoutRow (queueid : ℕ) (curr : ℕ × ℕ) : SRR :=
  { s with
    pwmCurr :=
      if curr.1 = queueid then (nextOf curr.1 (s.column curr.2)).map fun q => (q, curr.2)
      else some curr
    column := fun i => if i ∈ s.row queueid then (s.column i).erase queueid else s.column i
    row := update s.row queueid [] }

/-- The pointer when the highest column has become lower by `old - new`. -/
def shrinkPtr (old new : ℤ) : ℕ :=
  let pc := s.ptr + 1
  let mul := 2 ^ (old - new).toNat
  let tmpc := pc / mul
  let tmpc :=
    if pc % mul ≠ 0 then
      if 2 ^ (new + 1).toNat - 1 < tmpc + 1 then 1 else tmpc + 1
    else tmpc
  tmpc - 1

/-- `del_from_WM`. -/
def del_from_WM (queueid : ℕ) : Option SRR :=
  s.pwmCurr.bind fun curr =>
    let old_colno := s.currMaxColumn
    let s := s.withoutRow queueid curr
    let i := highest s.column (old_colno + 1).toNat
    if i < 0 then
      some { s with wmEmptyFlag := true, currMaxColumn := -1, pwmCurr := none, ptr := 0 }
    else
      let s := { s with
        currMaxColumn := i
        ptr := if i < old_colno then s.shrinkPtr old_colno i else s.ptr }
      if s.pwmCurr = none then again s.terms s else some s

/-- `getNextNode`; the node is then the current one, unless there are no bytes. -/
def getNextNode (bytecnt : ℤ) : Option SRR :=
  if bytecnt = 0 then some s
  else
    s.pwmCurr.bind fun curr =>
      match nextOf curr.1 (s.column curr.2) with
      | some q => some { s with pwmCurr := some (q, curr.2) }
      | none => if s.currMaxColumn = -1 then none else again s.terms s

/-- `setrate` makes room for a higher weight. -/
def setrate (order : ℕ) : SRR := { s with maxColumn := max s.maxColumn order }

end SRR

/-! ## Runs -/

/-- What happens to the matrix. -/
inductive Op where
  | setrate (order : ℕ)
  | join (queueid weight : ℕ)
  | leave (queueid : ℕ)
  | next (bytecnt : ℤ)

/-- A matrix, and the weights of the queues in it. -/
structure Matrix where
  srr : SRR
  weight : ℕ → ℕ

/-- A queue joins when it is not in the matrix, with a weight for which there are columns, and leaves
when it is; there is a next node when there is a queue, or there are no bytes. -/
def Op.Legal (m : Matrix) : Op → Prop
  | .setrate order => order + 1 ≤ MAXWSSORDER
  | .join queueid weight =>
    queueid < MAXFLOW ∧ m.weight queueid = 0 ∧ 1 ≤ weight ∧ weight < 2 ^ (m.srr.maxColumn + 1)
  | .leave queueid => m.weight queueid ≠ 0
  | .next bytecnt => bytecnt = 0 ∨ ∃ q, m.weight q ≠ 0

def Matrix.step (m : Matrix) : Op → Option Matrix
  | .setrate order => some { m with srr := m.srr.setrate order }
  | .join queueid weight =>
    (m.srr.add_to_WM queueid weight).map fun s => ⟨s, update m.weight queueid weight⟩
  | .leave queueid => (m.srr.del_from_WM queueid).map fun s => ⟨s, update m.weight queueid 0⟩
  | .next bytecnt => (m.srr.getNextNode bytecnt).map fun s => ⟨s, m.weight⟩

/-- The matrices that queues can make by joining and leaving, in any order. -/
inductive Matrix.Reachable : Matrix → Prop where
  | new : Reachable ⟨SRR.new, fun _ => 0⟩
  | step {m m' : Matrix} {op : Op} (h : Reachable m) (hop : op.Legal m) (hstep : m.step op = some m') :
      Reachable m'

/-- The queues that consecutive calls of `getNextNode` return, and the matrix afterwards. -/
def SRR.calls (s : SRR) : List ℤ → Option (List ℕ × SRR)
  | [] => some ([], s)
  | b :: bs =>
    (s.getNextNode b).bind fun s =>
      s.pwmCurr.bind fun curr => (s.calls bs).map fun r => (curr.1 :: r.1, r.2)

/-- The next call of `getNextNode` reads the sequence: the current node is the last of its column. -/
def SRR.Reads (s : SRR) : Prop := ∃ curr, s.pwmCurr = some curr ∧ nextOf curr.1 (s.column curr.2) = none

/-- The sequence has been read since the last queue joined or left. -/
inductive Matrix.Settled : Matrix → Prop where
  | read {m : Matrix} {b : ℤ} {s : SRR} (h : m.Reachable) (hreads : m.srr.Reads) (hb : b ≠ 0)
      (hnext : m.srr.getNextNode b = some s) : Settled ⟨s, m.weight⟩
  | next {m : Matrix} {b : ℤ} {s : SRR} (h : Settled m) (hnext : m.srr.getNextNode b = some s) :
      Settled ⟨s, m.weight⟩
  | setrate {m : Matrix} {order : ℕ} (h : Settled m) (horder : order + 1 ≤ MAXWSSORDER) :
      Settled ⟨m.srr.setrate order, m.weight⟩

/-- The total weight. -/
def Matrix.total (m : Matrix) : ℕ := ∑ q ∈ Finset.range MAXFLOW, m.weight q

end Ns2.Queue
