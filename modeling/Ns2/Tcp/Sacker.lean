import Ns2.Tcp.Acker
import Ns2.Lib.Runs

/-!
# The acker of a SACK sink

`SackStack` and `Sacker` of `tcp/tcp-sink.cc`: an acker that remembers in a small stack the
SACK blocks it has reported, the latest one on top.

* `SackStack` — an array and a count, with `push`, `pop` and `reset`, its loops.
* `Sacker.others` — the loop of `append_ack` over the stack; one that does not come to an
  end is `none`.
* `Sacker.appendAck` — the blocks of one ACK.
* `Sacker.run` — packets as they arrive.
* `SackStack.Holds` — the array holds a list; what each operation does to the list.
* `others_spec` — the loop pops what the new block covers and reports the rest, as far as
  there is room.
-/

namespace Ns2.Tcp

/-- `NSA`, the number of SACK blocks a header has room for. -/
def nsa : ℕ := 3

/-- `Sf_Entry`, the two edges of a block. -/
structure Sf_Entry where
  /-- Left edge. -/
  left_ : ℤ
  /-- Right edge, the number after the last one. -/
  right_ : ℤ
deriving DecidableEq, Repr

/-- The edges of an entry that holds no block. -/
def Sf_Entry.unused : Sf_Entry := ⟨-1, -1⟩

/-- The stack.  `SFE_` is an array of `size_` entries. -/
structure SackStack where
  /-- Entries there are. -/
  size_ : ℕ
  /-- Entries that hold a block. -/
  cnt_ : ℕ
  /-- The entries, the top first. -/
  SFE_ : ℕ → Sf_Entry

namespace SackStack

/-- The constructor. -/
def new (sz : ℕ) : SackStack where
  size_ := sz
  cnt_ := 0
  SFE_ _ := Sf_Entry.unused

/-- `reset`. -/
def reset (s : SackStack) : SackStack :=
  { s with
    SFE_ := (List.range s.cnt_).foldl (fun f i => Function.update f i Sf_Entry.unused) s.SFE_
    cnt_ := 0 }

/-- `push`: the entries from `n` on move down; the last one is lost when the stack is full. -/
def push (s : SackStack) (n : ℕ) : SackStack :=
  let cnt := if s.cnt_ ≥ s.size_ then s.size_ - 1 else s.cnt_
  { s with
    SFE_ := (List.range' n (cnt - n)).reverse.foldl (fun f i => Function.update f (i + 1) (f i)) s.SFE_
    cnt_ := cnt + 1 }

/-- `pop`: the entries below `n` move up. -/
def pop (s : SackStack) (n : ℕ) : SackStack :=
  let entries := (List.range' n (s.cnt_ - 1 - n)).foldl
    (fun f i => Function.update f i (f (i + 1))) s.SFE_
  { s with
    SFE_ := Function.update entries (max n (s.cnt_ - 1)) Sf_Entry.unused
    cnt_ := s.cnt_ - 1 }

/-- The assignments to `head_left()` and `head_right()`. -/
def setHead (s : SackStack) (e : Sf_Entry) : SackStack :=
  { s with SFE_ := Function.update s.SFE_ 0 e }

end SackStack

/-- `Sacker`. -/
structure Sacker extends Acker where
  /-- SACK blocks an ACK may have. -/
  base_nblocks_ : ℕ
  /-- The blocks reported. -/
  sf_ : SackStack

/-- The SACK blocks of an ACK: the D-SACK block comes first in the header. -/
structure Sack where
  /-- The D-SACK block, if there is one. -/
  dsack : List Sf_Entry
  /-- The other blocks. -/
  blocks : List Sf_Entry
deriving DecidableEq, Repr

/-- `sa_length()`. -/
def Sack.saLength (k : Sack) : ℕ := k.dsack.length + k.blocks.length

/-- A packet that arrives, and whether the sink then has `generate_dsacks_` set. -/
structure Arrival where
  /-- Sequence number. -/
  seqno : ℕ
  /-- Bytes. -/
  numBytes : ℤ
  /-- `*dsacks_`. -/
  dsacks : Bool
  /-- A packet has bytes. -/
  numBytes_pos : 0 < numBytes

/-- `Seqno()`: the cumulative acknowledgment. -/
def Acker.seqno (a : Acker) : ℤ := a.next_ - 1

namespace Sacker

/-- A sacker with `base` blocks. -/
def new (base : ℕ) : Sacker := { Acker.new with base_nblocks_ := base, sf_ := SackStack.new base }

/-- `configure`, for a sink with `max_sack_blocks_ = nblocks`. -/
def configure (nblocks : ℕ) : Sacker := new (if nblocks > nsa then nsa else nblocks)

/-- The entry of the ring for packet `i` is empty. -/
def unseen (a : Acker) (i : ℕ) : Bool := a.seen_ (i &&& a.wndmask_) = 0

/-- The first hole from the packet to the right, or the next packet after all. -/
def sackRight (a : Acker) (old_seqno : ℕ) : ℕ :=
  ((List.range' old_seqno (a.maxseen_ + 1 - old_seqno)).find? (unseen a)).getD (a.maxseen_ + 1)

/-- The number after the first hole from the right edge to the left. -/
def sackLeft (a : Acker) (sack_right : ℕ) : ℤ :=
  (((List.range' a.next_ (sack_right - a.next_)).reverse.find? (unseen a)).map
    fun i : ℕ => (i : ℤ) + 1).getD (-1)

/-- The loop over the stack, from entry `k` and with `sack_index` blocks recorded: the
stack, and the blocks it records. -/
def others (base : ℕ) (maxseen : ℕ) (recent : Sf_Entry) :
    ℕ → ℕ → ℕ → SackStack → Option (SackStack × List Sf_Entry)
  | 0, _, _, _ => none
  | fuel + 1, sack_index, k, sf =>
    if sack_index < base then
      let e := sf.SFE_ k
      if e.left_ < 0 ∨ e.right_ < 0 ∨ e.right_ > maxseen + 1 then some (sf, [])
      else if recent.left_ ≤ e.left_ ∧ recent.right_ ≥ e.right_ then
        others base maxseen recent fuel sack_index k (sf.pop k)
      else (others base maxseen recent fuel (sack_index + 1) (k + 1) sf).map fun r => (r.1, e :: r.2)
    else some (sf, [])

/-- The part of `append_ack` after the D-SACK block: the first block, and the others. -/
def appendBlocks (s : Sacker) (dsack : List Sf_Entry) (old_seqno : ℕ) : Option (Sacker × Sack) :=
  let seqno := s.toAcker.seqno
  let sack_right := sackRight s.toAcker old_seqno
  let recent : Sf_Entry :=
    ⟨if old_seqno ≤ seqno then 0 else sackLeft s.toAcker sack_right, sack_right⟩
  let first := if old_seqno ≤ seqno then [] else [recent]
  (others s.base_nblocks_ s.maxseen_ recent (s.base_nblocks_ + s.sf_.cnt_ + 1)
    (dsack.length + first.length) 0 s.sf_).map fun r =>
      ({ s with sf_ := if old_seqno > seqno then (r.1.push 0).setHead recent else r.1 },
        ⟨dsack, first ++ r.2⟩)

/-- `append_ack`. -/
def appendAck (s : Sacker) (dsacks : Bool) (old_seqno : ℕ) : Option (Sacker × Sack) :=
  let seqno := s.toAcker.seqno
  if seqno ≥ s.maxseen_ ∧ s.sf_.cnt_ ≠ 0 then some ({ s with sf_ := s.sf_.reset }, ⟨[], []⟩)
  else if (seqno < s.maxseen_ ∨ s.is_dup_ = true) ∧ s.base_nblocks_ > 0 then
    let dsack := if dsacks = true ∧ s.is_dup_ = true then [⟨old_seqno, old_seqno + 1⟩] else []
    -- "can't use DSACK with less than 2 SACK blocks"
    if dsack.length ≥ s.base_nblocks_ then some (s, ⟨dsack, []⟩)
    else s.appendBlocks dsack old_seqno
  else some (s, ⟨[], []⟩)

/-- A packet arrives: `update`, and the ACK with its blocks. -/
def receive (s : Sacker) (p : Arrival) : Option (Sacker × Sack) :=
  (s.toAcker.update p.seqno p.numBytes).bind fun r =>
    appendAck { s with toAcker := r.1 } p.dsacks p.seqno

/-- Packets as they arrive, with the SACK blocks of the ACKs. -/
def run (base : ℕ) (ps : List Arrival) : Option (Sacker × List Sack) :=
  ps.foldlM (fun r p => (r.1.receive p).map fun r' => (r'.1, r.2 ++ [r'.2])) (new base, [])

end Sacker

/-! ## The stack as a list -/

namespace SackStack

variable {s : SackStack} {l A B : List Sf_Entry} {e : Sf_Entry}

/-- The stack holds the blocks `l`, the top first. -/
structure Holds (s : SackStack) (l : List Sf_Entry) : Prop where
  /-- The count is that of the blocks. -/
  cnt_ : s.cnt_ = l.length
  /-- They fit. -/
  length_le : l.length ≤ s.size_
  /-- Each is in its entry; the others are unused. -/
  entry : ∀ i, s.SFE_ i = l[i]?.getD Sf_Entry.unused

theorem holds_new (sz : ℕ) : (new sz).Holds [] := ⟨rfl, Nat.zero_le _, fun _ => rfl⟩

theorem Holds.reset (h : s.Holds l) : s.reset.Holds [] := by
  have hloop : ∀ n i, (List.range n).foldl (fun f i => Function.update f i Sf_Entry.unused) s.SFE_ i
      = if i < n then Sf_Entry.unused else s.SFE_ i := by
    intro n i
    induction n with
    | zero => rfl
    | succ n ih =>
      rw [List.range_succ, List.foldl_append]
      simp only [List.foldl_cons, List.foldl_nil]
      rcases eq_or_ne i n with rfl | hne
      · rw [Function.update_self, if_pos (Nat.lt_succ_self i)]
      · rw [Function.update_of_ne hne, ih]
        exact if_congr (by omega) rfl rfl
  refine ⟨rfl, Nat.zero_le _, fun i => ?_⟩
  show (List.range s.cnt_).foldl _ s.SFE_ i = _
  rw [hloop]
  split
  · rfl
  · rw [h.entry, List.getElem?_eq_none (by rw [← h.cnt_]; omega)]
    rfl

/-- The entries from `n` to `n + m` move down by one. -/
theorem shiftDown_apply (f : ℕ → Sf_Entry) (n m i : ℕ) :
    (List.range' n m).reverse.foldl (fun f i => Function.update f (i + 1) (f i)) f i
      = if n < i ∧ i ≤ n + m then f (i - 1) else f i := by
  induction m generalizing f with
  | zero =>
    rw [if_neg (by omega)]
    rfl
  | succ m ih =>
    rw [List.range'_concat, List.reverse_append, List.foldl_append, one_mul]
    simp only [List.reverse_cons, List.reverse_nil, List.nil_append, List.foldl_cons,
      List.foldl_nil]
    rw [ih]
    rcases eq_or_ne i (n + m + 1) with rfl | hne
    · rw [if_neg (by omega), if_pos (by omega), Function.update_self, Nat.add_sub_cancel]
    · by_cases hin : n < i ∧ i ≤ n + m
      · rw [if_pos hin, if_pos (by omega), Function.update_of_ne (by omega)]
      · rw [if_neg hin, if_neg (by omega), Function.update_of_ne hne]

/-- The entries from `n` to `n + m` move up by one. -/
theorem shiftUp_apply (f : ℕ → Sf_Entry) (n m i : ℕ) :
    (List.range' n m).foldl (fun f i => Function.update f i (f (i + 1))) f i
      = if n ≤ i ∧ i < n + m then f (i + 1) else f i := by
  induction m generalizing i with
  | zero =>
    rw [if_neg (by omega)]
    rfl
  | succ m ih =>
    rw [List.range'_concat, List.foldl_append, one_mul]
    simp only [List.foldl_cons, List.foldl_nil]
    rcases eq_or_ne i (n + m) with rfl | hne
    · rw [Function.update_self, ih, if_neg (by omega), if_pos (by omega)]
    · rw [Function.update_of_ne hne, ih]
      exact if_congr (by omega) rfl rfl

/-- A block is put on top; when the stack is full, the last one is lost. -/
theorem Holds.push (h : s.Holds l) (hsize : 0 < s.size_) (e : Sf_Entry) :
    ((s.push 0).setHead e).Holds (e :: l.take (s.size_ - 1)) := by
  have hcnt := h.cnt_
  have hle := h.length_le
  refine ⟨?_, ?_, fun i => ?_⟩
  · show (if s.cnt_ ≥ s.size_ then s.size_ - 1 else s.cnt_) + 1 = _
    rw [List.length_cons, List.length_take, hcnt]
    split <;> omega
  · show (e :: l.take (s.size_ - 1)).length ≤ s.size_
    rw [List.length_cons, List.length_take]
    omega
  · show Function.update (s.push 0).SFE_ 0 e i = _
    cases i with
    | zero => rw [Function.update_self]; rfl
    | succ i =>
      rw [Function.update_of_ne (Nat.succ_ne_zero i), List.getElem?_cons_succ, List.getElem?_take]
      -- the number of blocks that stay
      obtain ⟨c, hc⟩ : ∃ c, c = if s.cnt_ ≥ s.size_ then s.size_ - 1 else s.cnt_ := ⟨_, rfl⟩
      have hmin : c = min l.length (s.size_ - 1) := by
        rw [hc]
        split <;> omega
      show (List.range' 0 ((if s.cnt_ ≥ s.size_ then s.size_ - 1 else s.cnt_) - 0)).reverse.foldl _
        s.SFE_ (i + 1) = _
      rw [← hc, shiftDown_apply, h.entry, h.entry, Nat.add_sub_cancel]
      by_cases hin : i < c
      · rw [if_pos (by omega), if_pos (by omega)]
      · rw [if_neg (by omega), List.getElem?_eq_none (by omega)]
        split
        · rw [List.getElem?_eq_none (by omega)]
        · rfl

/-- A block is taken out. -/
theorem Holds.pop (h : s.Holds (A ++ e :: B)) : (s.pop A.length).Holds (A ++ B) := by
  have hcnt := h.cnt_
  have hle := h.length_le
  simp only [List.length_append, List.length_cons] at hcnt hle
  refine ⟨?_, ?_, fun i => ?_⟩
  · show s.cnt_ - 1 = _
    rw [List.length_append]
    omega
  · show (A ++ B).length ≤ s.size_
    rw [List.length_append]
    omega
  · show Function.update ((List.range' A.length (s.cnt_ - 1 - A.length)).foldl
      (fun f i => Function.update f i (f (i + 1))) s.SFE_) (max A.length (s.cnt_ - 1))
      Sf_Entry.unused i = _
    rcases eq_or_ne i (max A.length (s.cnt_ - 1)) with heq | hne
    · rw [heq, Function.update_self, List.getElem?_eq_none (by rw [List.length_append]; omega)]
      rfl
    · rw [Function.update_of_ne hne, shiftUp_apply, h.entry, h.entry]
      rcases lt_or_ge i A.length with hlt | hge
      · rw [if_neg (by omega), List.getElem?_append_left hlt, List.getElem?_append_left hlt]
      · rw [List.getElem?_append_right hge, List.getElem?_append_right hge,
          List.getElem?_append_right (by omega)]
        split
        · rw [show i + 1 - A.length = i - A.length + 1 by omega, List.getElem?_cons_succ]
        · rw [List.getElem?_eq_none (by rw [List.length_cons]; omega),
            List.getElem?_eq_none (by omega)]

end SackStack

/-! ## The loop over the stack -/

namespace Sacker

open SackStack

/-- The new block covers an old one. -/
def covers (recent e : Sf_Entry) : Bool := recent.left_ ≤ e.left_ ∧ recent.right_ ≥ e.right_

/-- The loop visits the blocks `V` and leaves the blocks `W`: those of `V` that the new block
covers are popped, the others recorded; it leaves some only when there is no more room. -/
theorem others_spec (base : ℕ) {maxseen : ℕ} (recent : Sf_Entry) (rest : List Sf_Entry)
    (hrest : ∀ e ∈ rest, 0 ≤ e.left_ ∧ 0 ≤ e.right_ ∧ e.right_ ≤ maxseen + 1) :
    ∀ (fuel sack_index : ℕ) (pre : List Sf_Entry) (sf : SackStack), sf.Holds (pre ++ rest) →
      rest.length < fuel →
      ∃ V W sf', rest = V ++ W ∧
        others base maxseen recent fuel sack_index pre.length sf
          = some (sf', V.filter fun e => !covers recent e) ∧
        sf'.Holds (pre ++ V.filter (fun e => !covers recent e) ++ W) ∧ sf'.size_ = sf.size_ ∧
        sack_index + (V.filter fun e => !covers recent e).length ≤ max sack_index base ∧
        (W = [] ∨ base ≤ sack_index + (V.filter fun e => !covers recent e).length) := by
  induction rest with
  | nil =>
    intro fuel sack_index pre sf hsf hfuel
    obtain ⟨fuel, rfl⟩ := Nat.exists_eq_add_of_lt hfuel
    have hnone : sf.SFE_ pre.length = Sf_Entry.unused := by
      rw [hsf.entry, List.append_nil, List.getElem?_eq_none le_rfl]
      rfl
    refine ⟨[], [], sf, rfl, ?_, by simpa using hsf, rfl, by simp, Or.inl rfl⟩
    unfold others
    split
    · rw [if_pos (Or.inl (by rw [hnone]; decide))]
      rfl
    · rfl
  | cons e rest ih =>
    intro fuel sack_index pre sf hsf hfuel
    obtain ⟨fuel, rfl⟩ : ∃ f, fuel = f + 1 := ⟨fuel - 1, by omega⟩
    rw [List.length_cons] at hfuel
    have hentry : sf.SFE_ pre.length = e := by
      rw [hsf.entry, List.getElem?_append_right le_rfl, Nat.sub_self]
      rfl
    have he := hrest e List.mem_cons_self
    have ih := ih fun x hx => hrest x (List.mem_cons_of_mem e hx)
    unfold others
    by_cases hroom : sack_index < base
    · simp only [hentry]
      rw [if_pos hroom, if_neg (by omega)]
      by_cases hcov : recent.left_ ≤ e.left_ ∧ recent.right_ ≥ e.right_
      · -- the block is covered
        have hc : covers recent e = true := by simpa [covers] using hcov
        rw [if_pos hcov]
        obtain ⟨V, W, sf', rfl, hrun, hholds, hsize, hbound, hend⟩ :=
          ih fuel sack_index pre (sf.pop pre.length) hsf.pop (by omega)
        refine ⟨e :: V, W, sf', rfl, ?_⟩
        rw [List.filter_cons_of_neg (by simp [hc])]
        exact ⟨hrun, hholds, hsize, hbound, hend⟩
      · -- the block is recorded
        have hc : covers recent e = false := by simpa [covers] using hcov
        rw [if_neg hcov]
        obtain ⟨V, W, sf', rfl, hrun, hholds, hsize, hbound, hend⟩ :=
          ih fuel (sack_index + 1) (pre ++ [e]) sf (by simpa using hsf) (by omega)
        rw [List.length_append, List.length_singleton] at hrun
        refine ⟨e :: V, W, sf', rfl, ?_⟩
        rw [List.filter_cons_of_pos (by simp [hc]), hrun, Option.map_some, List.length_cons]
        refine ⟨rfl, by simpa using hholds, hsize, by omega, ?_⟩
        exact hend.imp_right fun h => by omega
    · rw [if_neg hroom]
      refine ⟨[], e :: rest, sf, rfl, rfl, by simpa using hsf, rfl, by simp, Or.inr ?_⟩
      rw [List.filter_nil, List.length_nil]
      omega

end Sacker

end Ns2.Tcp
