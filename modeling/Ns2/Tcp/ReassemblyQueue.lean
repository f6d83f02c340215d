import Ns2.Lib.Linked

/-!
# The reassembly queue

`ReassemblyQueue` of `tcp/rq.cc`: the receiver's out-of-order segments, and on the
sender's side the blocks learnt from SACKs.  Each segment is a `seginfo` on two
doubly linked lists, the FIFO in sequence order and the LIFO in the order of
insertion.

The heap of `seginfo` nodes is one map per field, indexed by address; `NULL` is
`none`.  A call that would dereference `NULL`, reach `abort()` or not return is
`none` as well, so that "the call returns" is something to be proved.

* `Links` — every pointer: the four link fields of the nodes, the ends of the two
  lists, the free list; with `fremove`, `sremove`, `push` and the allocator.
* `ReassemblyQueue.add` — with `sweep` (kill what is overlapped), `merge` (the
  left-side and right-side merges), `endfast` and `coalesce`.
* `ReassemblyQueue.clearto`, `cleartonxt`, `clear`, `init`.
-/

namespace Ns2.Tcp

open Linked

/-- The address of a `seginfo`. -/
abbrev Ptr := ℕ

/-- The flags of a TCP header, a bit mask. -/
abbrev TcpFlag := ℕ

/-- Every pointer of a reassembly queue and of the nodes it owns. -/
structure Links where
  /-- Next node on the FIFO, or on the free list. -/
  next_ : Ptr → Option Ptr
  /-- Previous node on the FIFO. -/
  prev_ : Ptr → Option Ptr
  /-- Next node on the LIFO. -/
  snext_ : Ptr → Option Ptr
  /-- Previous node on the LIFO. -/
  sprev_ : Ptr → Option Ptr
  /-- Head of the FIFO. -/
  head_ : Option Ptr
  /-- Tail of the FIFO. -/
  tail_ : Option Ptr
  /-- Top of the LIFO. -/
  top_ : Option Ptr
  /-- Bottom of the LIFO. -/
  bottom_ : Option Ptr
  /-- The hint for `nexthole`. -/
  hint_ : Option Ptr
  /-- The cache of free nodes, linked through `next_`. -/
  freelist_ : Option Ptr
  /-- The next address `new` hands out. -/
  fresh : Ptr

namespace Links

/-- `newseginfo`: a node of the free list, or else a new one. -/
def newseginfo (l : Links) : Ptr × Links :=
  match l.freelist_ with
  | some s => (s, { l with freelist_ := l.next_ s })
  | none => (l.fresh, { l with fresh := l.fresh + 1 })

/-- `deleteseginfo`. -/
def deleteseginfo (l : Links) (s : Ptr) : Links :=
  { l with next_ := Function.update l.next_ s l.freelist_, freelist_ := some s }

/-- `fremove`: unlink a node from the FIFO. -/
def fremove (l : Links) (p : Ptr) : Links :=
  { l with
    hint_ := if l.hint_ = some p then none else l.hint_
    next_ := setAt l.next_ (l.prev_ p) (l.next_ p)
    head_ := if l.prev_ p = none then l.next_ p else l.head_
    prev_ := setAt l.prev_ (l.next_ p) (l.prev_ p)
    tail_ := if l.next_ p = none then l.prev_ p else l.tail_ }

/-- `sremove`: unlink a node from the LIFO. -/
def sremove (l : Links) (p : Ptr) : Links :=
  { l with
    hint_ := if l.hint_ = some p then none else l.hint_
    snext_ := setAt l.snext_ (l.sprev_ p) (l.snext_ p)
    top_ := if l.sprev_ p = none then l.snext_ p else l.top_
    sprev_ := setAt l.sprev_ (l.snext_ p) (l.sprev_ p)
    bottom_ := if l.snext_ p = none then l.sprev_ p else l.bottom_ }

/-- `push`: put a node on top of the LIFO. -/
def push (l : Links) (p : Ptr) : Links :=
  { l with
    snext_ := Function.update l.snext_ p l.top_
    sprev_ := setAt (Function.update l.sprev_ p none) l.top_ (some p)
    top_ := some p
    bottom_ := if l.top_ = none then some p else l.bottom_ }

/-- The pointer assignments after `endfast:`, putting `n` between `p` and `q` on the
FIFO and on top of the LIFO. -/
def linkIn (l : Links) (n : Ptr) (p q : Option Ptr) : Links :=
  { l.push n with
    next_ := setAt (Function.update l.next_ n q) p (some n)
    head_ := if p = none then some n else l.head_
    prev_ := setAt (Function.update l.prev_ n p) q (some n)
    tail_ := if q = none then some n else l.tail_ }

end Links

/-- A `ReassemblyQueue` with its nodes and the sequence number it refers to. -/
structure ReassemblyQueue extends Links where
  /-- Starting sequence number of a node. -/
  startseq_ : Ptr → ℤ
  /-- Ending sequence number of a node, plus one. -/
  endseq_ : Ptr → ℤ
  /-- Flags derived from the TCP headers of the segments in a node. -/
  pflags_ : Ptr → TcpFlag
  /-- Book-keeping flags of a node. -/
  rqflags_ : Ptr → ℕ
  /-- References to a node. -/
  cnt_ : Ptr → ℤ
  /-- Number of bytes in the queue. -/
  total_ : ℤ
  /-- The sequence number of the owner the queue has a reference to: `rcv_nxt_` of
  the receiver, `sack_min_` of the sender. -/
  rcv_nxt_ : ℤ

namespace ReassemblyQueue

/-- The constructor, given the owner's sequence number. -/
def new (rcvnxt : ℤ) : ReassemblyQueue where
  next_ _ := none
  prev_ _ := none
  snext_ _ := none
  sprev_ _ := none
  head_ := none
  tail_ := none
  top_ := none
  bottom_ := none
  hint_ := none
  freelist_ := none
  fresh := 0
  startseq_ _ := 0
  endseq_ _ := 0
  pflags_ _ := 0
  rqflags_ _ := 0
  cnt_ _ := 0
  total_ := 0
  rcv_nxt_ := rcvnxt

/-- `empty()`. -/
def empty (q : ReassemblyQueue) : Bool := q.head_.isNone

/-- `minseq()`. -/
def minseq (q : ReassemblyQueue) : ℤ := q.head_.elim (-1) q.startseq_

/-- A bound on the steps of a loop along one of the lists: no list is longer than
the number of nodes ever allocated. -/
def bound (q : ReassemblyQueue) : ℕ := q.toLinks.fresh + 1

/-- `if (rcv_nxt_ >= b->startseq_) rcv_nxt_ = b->endseq_;` -/
def advanceTo (q : ReassemblyQueue) (b : Ptr) : ReassemblyQueue :=
  { q with rcv_nxt_ := if q.rcv_nxt_ ≥ q.startseq_ b then q.endseq_ b else q.rcv_nxt_ }

/-! ## `clearto` and `clear` -/

/-- The loop of `clearto`: drop the nodes that end at or before `seq`.  It leaves
the first node kept and the flags of the dropped ones. -/
def clearLoop (seq : ℤ) :
    ℕ → ReassemblyQueue → Option Ptr → TcpFlag → Option (ReassemblyQueue × Option Ptr × TcpFlag)
  | 0, _, _, _ => none
  | _ + 1, q, none, flag => some (q, none, flag)
  | fuel + 1, q, some p, flag =>
    if q.endseq_ p ≤ seq then
      clearLoop seq fuel
        { q with
          toLinks := ((q.sremove p).fremove p).deleteseginfo p
          total_ := q.total_ - (q.endseq_ p - q.startseq_ p) }
        (q.next_ p) (flag ||| q.pflags_ p)
    else some (q, some p, flag)

/-- `if (p && p->startseq_ <= seq && p->endseq_ > seq)`: trim in the middle. -/
def trim (q : ReassemblyQueue) (seq : ℤ) (flag : TcpFlag) :
    Option Ptr → ReassemblyQueue × TcpFlag
  | none => (q, flag)
  | some p =>
    if q.startseq_ p ≤ seq ∧ q.endseq_ p > seq then
      ({ q with
          total_ := q.total_ - (seq - q.startseq_ p)
          startseq_ := Function.update q.startseq_ p seq }, flag ||| q.pflags_ p)
    else (q, flag)

/-- `clearto(seq)`: clear both lists up to a sequence number. -/
def clearto (q : ReassemblyQueue) (seq : ℤ) : Option (ReassemblyQueue × TcpFlag) :=
  match clearLoop seq q.bound q q.head_ 0 with
  | none => none
  | some (q', p, flag) => some (q'.trim seq flag p)

/-- `cleartonxt()`. -/
def cleartonxt (q : ReassemblyQueue) : Option (ReassemblyQueue × TcpFlag) :=
  q.clearto q.rcv_nxt_

/-- The loop of `clear`. -/
def freeAll : ℕ → Links → Option Links
  | 0, _ => none
  | fuel + 1, l =>
    match l.head_ with
    | none => some l
    | some p => freeAll fuel ({ l with head_ := l.next_ p }.deleteseginfo p)

/-- `clear()`. -/
def clear (q : ReassemblyQueue) : Option ReassemblyQueue :=
  (freeAll q.bound { q.toLinks with tail_ := none, top_ := none, bottom_ := none, hint_ := none }).map
    fun l => { q with toLinks := { l with tail_ := none }, total_ := 0 }

/-- `init(rcvnxt)`. -/
def init (q : ReassemblyQueue) (rcvnxt : ℤ) : Option ReassemblyQueue :=
  { q with rcv_nxt_ := rcvnxt }.clear

/-! ## `coalesce` -/

/-- `coalesce`, first case: the new block `n` fills the hole between `p` and `r`. -/
def fillHole (q : ReassemblyQueue) (p n r : Ptr) : ReassemblyQueue × TcpFlag :=
  let flags := q.pflags_ p ||| q.pflags_ n
  ({ q with
      toLinks := ((((q.sremove n).fremove n).sremove r).fremove r).deleteseginfo n
        |>.deleteseginfo r
      endseq_ := Function.update q.endseq_ p (q.endseq_ r)
      cnt_ := Function.update q.cnt_ p (q.cnt_ p + (q.cnt_ n + q.cnt_ r))
      pflags_ := Function.update q.pflags_ p flags }, flags)

/-- Second case: the new block `n` joins the block `p` before it. -/
def joinPrev (q : ReassemblyQueue) (p n : Ptr) : ReassemblyQueue × TcpFlag :=
  let flags := q.pflags_ p ||| q.pflags_ n
  ({ q with
      toLinks := ((q.sremove n).fremove n).deleteseginfo n
      endseq_ := Function.update q.endseq_ p (q.endseq_ n)
      cnt_ := Function.update q.cnt_ p (q.cnt_ p + q.cnt_ n)
      pflags_ := Function.update q.pflags_ p flags }, flags)

/-- Third case: the new block `n` joins the block `r` after it. -/
def joinNext (q : ReassemblyQueue) (n r : Ptr) : ReassemblyQueue × TcpFlag :=
  let flags := q.pflags_ r ||| q.pflags_ n
  ({ q with
      toLinks := ((q.sremove n).fremove n).deleteseginfo n
      startseq_ := Function.update q.startseq_ r (q.startseq_ n)
      cnt_ := Function.update q.cnt_ r (q.cnt_ r + q.cnt_ n)
      pflags_ := Function.update q.pflags_ r flags }, flags)

/-- `coalesce(p, n, q)`: join the new block with the blocks around it, and move
`rcv_nxt_` over the result. -/
def coalesce (q : ReassemblyQueue) : Option Ptr → Ptr → Option Ptr →
    Option (ReassemblyQueue × TcpFlag)
  | some p, n, some r =>
    if q.endseq_ p = q.startseq_ n then
      if q.endseq_ n = q.startseq_ r then
        some ((q.fillHole p n r).1.advanceTo p, (q.fillHole p n r).2)
      else some ((q.joinPrev p n).1.advanceTo p, (q.joinPrev p n).2)
    else if q.endseq_ n = q.startseq_ r then
      some ((q.joinNext n r).1.advanceTo r, (q.joinNext n r).2)
    else some (q.advanceTo p, 0)
  | some p, n, none =>
    if q.endseq_ p = q.startseq_ n then
      some ((q.joinPrev p n).1.advanceTo p, (q.joinPrev p n).2)
    else some (q.advanceTo p, 0)
  | none, n, some r =>
    if q.endseq_ n = q.startseq_ r then
      some ((q.joinNext n r).1.advanceTo r, (q.joinNext n r).2)
    else none
  | none, _, none => none

/-! ## `add` -/

/-- The first insertion, into an empty queue. -/
def addFirst (q : ReassemblyQueue) (start stop : ℤ) (tiflags : TcpFlag) (rqflags : ℕ) :
    ReassemblyQueue × TcpFlag :=
  let n := q.newseginfo.1
  let l := q.newseginfo.2
  ({ q with
      toLinks :=
        { l with
          head_ := some n, tail_ := some n, top_ := some n, bottom_ := some n
          prev_ := Function.update l.prev_ n none
          next_ := Function.update l.next_ n none
          snext_ := Function.update l.snext_ n none
          sprev_ := Function.update l.sprev_ n none }
      startseq_ := Function.update q.startseq_ n start
      endseq_ := Function.update q.endseq_ n stop
      pflags_ := Function.update q.pflags_ n tiflags
      rqflags_ := Function.update q.rqflags_ n rqflags
      cnt_ := Function.update q.cnt_ n 1
      total_ := stop - start
      rcv_nxt_ := if q.rcv_nxt_ ≥ start then stop else q.rcv_nxt_ }, tiflags)

/-- After `endfast:`, a new node between `p` and `r`, and its bytes counted. -/
def insertNode (q : ReassemblyQueue) (p r : Option Ptr) (start stop : ℤ) (tiflags : TcpFlag)
    (rqflags : ℕ) (initcnt : ℤ) : ReassemblyQueue :=
  let n := q.newseginfo.1
  { q with
    toLinks := q.newseginfo.2.linkIn n p r
    startseq_ := Function.update q.startseq_ n start
    endseq_ := Function.update q.endseq_ n stop
    pflags_ := Function.update q.pflags_ n tiflags
    rqflags_ := Function.update q.rqflags_ n rqflags
    cnt_ := Function.update q.cnt_ n initcnt
    total_ := q.total_ + (stop - start) }

/-- From `endfast:` to the end of `add`. -/
def endfast (q : ReassemblyQueue) (p r : Option Ptr) (start stop : ℤ) (tiflags : TcpFlag)
    (rqflags : ℕ) (initcnt : ℤ) (needmerge : Bool) : Option (ReassemblyQueue × TcpFlag) :=
  let q' := q.insertNode p r start stop tiflags rqflags initcnt
  if needmerge then q'.coalesce p q.newseginfo.1 r
  else some ({ q' with rcv_nxt_ := if q'.rcv_nxt_ ≥ start then stop else q'.rcv_nxt_ }, tiflags)

/-- How the loop that kills overlapped blocks ends. -/
inductive Swept where
  /-- The new block is there already: `add` returns the flags. -/
  | exactOverlap (q : ReassemblyQueue) (flags : TcpFlag)
  /-- The loop ran to its end; `altered` says whether it killed a block. -/
  | done (q : ReassemblyQueue) (tiflags : TcpFlag) (initcnt : ℤ) (altered : Bool)

/-- `while (r && r != q)`: kill anything that is completely overlapped. -/
def sweep (last : Option Ptr) (start stop : ℤ) :
    ℕ → ReassemblyQueue → Option Ptr → TcpFlag → ℤ → Bool → Option Swept
  | 0, _, _, _, _, _ => none
  | _ + 1, q, none, tiflags, initcnt, altered => some (.done q tiflags initcnt altered)
  | fuel + 1, q, some r, tiflags, initcnt, altered =>
    if some r = last then some (.done q tiflags initcnt altered)
    else if start = q.startseq_ r ∧ stop = q.endseq_ r then
      let flags := q.pflags_ r ||| tiflags
      some (.exactOverlap { q with pflags_ := Function.update q.pflags_ r flags } flags)
    else if start ≤ q.startseq_ r ∧ stop ≥ q.endseq_ r then
      sweep last start stop fuel
        { q with
          toLinks := ((q.fremove r).sremove r).deleteseginfo r
          total_ := q.total_ - (q.endseq_ r - q.startseq_ r) }
        (q.next_ r) (tiflags ||| q.pflags_ r) (initcnt + q.cnt_ r) true
    else sweep last start stop fuel q (q.next_ r) tiflags initcnt altered

/-- The block a left-side merge goes into, if there is to be one: `head_` when `p` is
`NULL`, else `p->next_` when it starts before the new block. -/
def leftTarget (q : ReassemblyQueue) (start : ℤ) : Option Ptr → Option (Option Ptr)
  | none => q.head_.map some
  | some p => (q.next_ p).map fun x => if q.startseq_ x < start then some x else none

/-- The block a right-side merge goes into, if there is to be one: `tail_` when `q`
is `NULL`, else `q->prev_` when it ends after the new block. -/
def rightTarget (q : ReassemblyQueue) (stop : ℤ) : Option Ptr → Option (Option Ptr)
  | none => q.tail_.map some
  | some r => (q.prev_ r).map fun x => if q.endseq_ x > stop then some x else none

/-- The left-side merge: update the start of an existing block. -/
def extendLeft (q : ReassemblyQueue) (start : ℤ) (tiflags : TcpFlag) :
    Option Ptr → ReassemblyQueue
  | none => q
  | some x =>
    { q with
      total_ := if start < q.startseq_ x then q.total_ + (q.startseq_ x - start) else q.total_
      startseq_ :=
        if start < q.startseq_ x then Function.update q.startseq_ x start else q.startseq_
      pflags_ := Function.update q.pflags_ x (q.pflags_ x ||| tiflags)
      cnt_ := Function.update q.cnt_ x (q.cnt_ x + 1) }

/-- The right-side merge: update the end of an existing block. -/
def extendRight (q : ReassemblyQueue) (stop : ℤ) (tiflags : TcpFlag) :
    Option Ptr → ReassemblyQueue
  | none => q
  | some x =>
    { q with
      total_ := if stop > q.endseq_ x then q.total_ + (stop - q.endseq_ x) else q.total_
      endseq_ := if stop > q.endseq_ x then Function.update q.endseq_ x stop else q.endseq_
      pflags_ := Function.update q.pflags_ x (q.pflags_ x ||| tiflags) }

/-- The test of the easy case: `p` and `r` are neighbours, the new block fits between
them and touches one of them. -/
def fitsBetween (q : ReassemblyQueue) (start stop : ℤ) : Option Ptr → Option Ptr → Bool
  | some p, some r =>
    q.next_ p = some r ∧ q.endseq_ p ≤ start ∧ q.startseq_ r ≥ stop ∧
      (q.endseq_ p = start ∨ q.startseq_ r = stop)
  | _, _ => false

/-- The merges of `add`, from the search result `p`, `r` on. -/
def merge (q : ReassemblyQueue) (p r : Option Ptr) (start stop : ℤ) (tiflags : TcpFlag)
    (rqflags : ℕ) (initcnt : ℤ) : Option (ReassemblyQueue × TcpFlag) :=
  (q.leftTarget start p).bind fun l =>
    let q₁ := q.extendLeft start tiflags l
    let start₁ := l.elim start q₁.endseq_
    (q₁.rightTarget stop r).bind fun m =>
      let q₂ := q₁.extendRight stop tiflags m
      let stop₂ := m.elim stop q₂.startseq_
      if stop₂ ≤ start₁ then q₂.head_.map fun h => (q₂.advanceTo h, tiflags)
      else
        q₂.endfast (l.or p) (m.or r) start₁ stop₂ tiflags rqflags
          (l.elim initcnt fun _ => initcnt - 1)
          (l.isSome || m.isSome || q₂.fitsBetween start₁ stop₂ p r)

/-- From `again2:` on.  Each round either returns or has killed a block, so that
the number of rounds is bounded by the number of nodes. -/
def again2 (start stop : ℤ) (rqflags : ℕ) :
    ℕ → ReassemblyQueue → TcpFlag → ℤ → Option (ReassemblyQueue × TcpFlag)
  | 0, _, _, _ => none
  | fuel + 1, q, tiflags, initcnt =>
    match q.tail_, q.head_ with
    | some t, some h =>
      if start ≥ q.endseq_ t then
        q.endfast (some t) none start stop tiflags rqflags initcnt (start = q.endseq_ t)
      else if stop ≤ q.startseq_ h then
        q.endfast none (some h) start stop tiflags rqflags initcnt (stop = q.startseq_ h)
      else
        (walk q.next_ (fun x => q.startseq_ x < stop) q.bound q.head_).bind fun r =>
        (walk q.prev_ (fun x => q.endseq_ x > start) q.bound q.tail_).bind fun p =>
        (sweep r start stop q.bound q (p.or q.head_) tiflags initcnt false).bind fun
          | .exactOverlap q' flags => some (q', flags)
          | .done q' tiflags' initcnt' altered =>
            if q'.empty then
              q'.endfast p r start stop tiflags' rqflags initcnt' false
            else if altered then again2 start stop rqflags fuel q' tiflags' initcnt'
            else q'.merge p r start stop tiflags' rqflags initcnt'
    | _, _ => none

/-- `add(start, end, tiflags, rqflags)`: add a segment to the queue.  The result is
the queue and the aggregate flags of the block. -/
def add (q : ReassemblyQueue) (start stop : ℤ) (tiflags : TcpFlag) (rqflags : ℕ) :
    Option (ReassemblyQueue × TcpFlag) :=
  if stop < start then none
  else match q.head_ with
    | none => if q.top_ = none then some (q.addFirst start stop tiflags rqflags) else none
    | some _ => again2 start stop rqflags q.bound q tiflags 1

/-! ## Looking at a queue -/

/-- The nodes met by following `f` from a pointer, at most `fuel` of them. -/
def follow (f : Ptr → Option Ptr) : ℕ → Option Ptr → List Ptr
  | 0, _ => []
  | _ + 1, none => []
  | fuel + 1, some p => p :: follow f fuel (f p)

/-- The blocks on the FIFO with their reference counts, as `dumplist` prints them. -/
def dumplist (q : ReassemblyQueue) : List (ℤ × ℤ × ℤ) :=
  (follow q.next_ q.bound q.head_).map fun p => (q.startseq_ p, q.endseq_ p, q.cnt_ p)

end ReassemblyQueue

end Ns2.Tcp
