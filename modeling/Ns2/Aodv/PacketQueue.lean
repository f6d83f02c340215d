import Ns2.Aodv.Table
import Ns2.Lib.Linked

/-!
# The send buffer of AODV

`aodv_rqueue` of `aodv/aodv_rqueue.cc`: a linked list of the packets that wait for a route, with
their headers as maps of the packets.

* `PacketQueue` — the fields of the queue, and those of the packets that it uses.
* `remove_head`, `findPacketWithDst`, `findAgedPacket`, `verifyQueue`, `purge` — the private
  routines.
* `enque`, `deque`, `dequeFor`, `find` — the operations.  An operation has no result when an
  assertion fails, when it follows a null pointer or when a loop takes more than `fuel` rounds.
* `PacketQueue.Holds` — the list from `head_` to `tail_`; one lemma an operation says what becomes of
  it.
* `Holds.enque_view`, `Holds.drain_view` — the linked list does what the list of the headers does.
-/

namespace Ns2.Aodv

variable {Ptr : Type} [DecidableEq Ptr]

/-! ## The queue -/

/-- Why a packet is dropped. -/
inductive DropReason where
  | DROP_RTR_QFULL
  | DROP_RTR_QTIMEOUT
  deriving DecidableEq

/-- The queue, with the fields of all packets. -/
structure PacketQueue (Ptr : Type) where
  next_ : Ptr → Option Ptr
  ts_ : Ptr → ℚ
  daddr : Ptr → ℤ
  head_ : Option Ptr
  tail_ : Option Ptr
  len_ : ℤ
  limit_ : ℤ
  timeout_ : ℚ

namespace PacketQueue

/-- The constructor. -/
def new (next_ : Ptr → Option Ptr) (ts_ : Ptr → ℚ) (daddr : Ptr → ℤ) : PacketQueue Ptr :=
  ⟨next_, ts_, daddr, none, none, 0, AODV_RTQ_MAX_LEN, AODV_RTQ_TIMEOUT⟩

/-- `p->next_ = v` -/
def setNext (s : PacketQueue Ptr) (p : Ptr) (v : Option Ptr) : PacketQueue Ptr :=
  { s with next_ := Function.update s.next_ p v }

/-- `remove_head()` -/
def remove_head (s : PacketQueue Ptr) : Option (Option Ptr × PacketQueue Ptr) :=
  match s.head_ with
  | none =>
      if s.tail_ = none then
        some (none, { s with head_ := none, tail_ := none })
      else none
  | some p =>
      if s.tail_ = some p then
        some (some p, { s with head_ := none, tail_ := none, len_ := s.len_ - 1 })
      else some (some p, { s with head_ := s.next_ p, len_ := s.len_ - 1 })

/-- `findPacketWithDst(dst, p, prev)` -/
def findPacketWithDst (fuel : ℕ) (s : PacketQueue Ptr) (dst : ℤ) :
    Option (Option Ptr × Option Ptr) :=
  Linked.search s.next_ (fun p => s.daddr p = dst) fuel s.head_ none

/-- `findAgedPacket(p, prev)`; it returns whether there is a packet. -/
def findAgedPacket (fuel : ℕ) (s : PacketQueue Ptr) (now : ℚ) : Option (Option Ptr × Option Ptr) :=
  Linked.search s.next_ (fun p => s.ts_ p < now) fuel s.head_ none

/-- The loop of `verifyQueue`: the last packet, and the number of packets. -/
def countFrom (next_ : Ptr → Option Ptr) : ℕ → Option Ptr → Option Ptr → ℤ → Option (Option Ptr × ℤ)
  | 0, _, _, _ => none
  | _ + 1, none, prev, cnt => some (prev, cnt)
  | fuel + 1, some p, _, cnt => countFrom next_ fuel (next_ p) (some p) (cnt + 1)

/-- `verifyQueue()` -/
def verifyQueue (fuel : ℕ) (s : PacketQueue Ptr) : Option Unit := do
  let (prev, cnt) ← countFrom s.next_ fuel s.head_ none 0
  guard (cnt = s.len_)
  guard (prev = s.tail_)

/-- `p == 0 || (p == head_ && prev == 0) || prev->next_ == p` -/
def Adjacent (s : PacketQueue Ptr) (p prev : Option Ptr) : Prop :=
  p = none ∨ (p = s.head_ ∧ prev = none) ∨ ∃ q ∈ prev, s.next_ q = p

instance (s : PacketQueue Ptr) (p prev : Option Ptr) : Decidable (s.Adjacent p prev) :=
  inferInstanceAs (Decidable (_ ∨ _ ∨ _))

/-- How `purge` and `deque(dst)` unlink the packet `p` behind `prev`. -/
def unlink (s : PacketQueue Ptr) (p : Ptr) (prev : Option Ptr) : Option (PacketQueue Ptr) :=
  if s.head_ = some p then s.remove_head.map Prod.snd
  else
    match prev with
    | none => none
    | some q =>
        if s.tail_ = some p then
          some { s.setNext q none with tail_ := some q, len_ := s.len_ - 1 }
        else some { s.setNext q (s.next_ p) with len_ := s.len_ - 1 }

/-- `purge()`: the packets that have timed out are unlinked. -/
def purge (rounds : ℕ) (now : ℚ) : ℕ → PacketQueue Ptr → Option (PacketQueue Ptr)
  | 0, _ => none
  | fuel + 1, s => do
      let (p, prev) ← s.findAgedPacket rounds now
      match p with
      | none => some s
      | some p =>
          guard (s.Adjacent (some p) prev)
          let s ← s.unlink p prev
          s.verifyQueue rounds
          purge rounds now fuel s

/-- The packet at the head is dropped from a full queue. -/
def dropFront (s : PacketQueue Ptr) (now : ℚ) :
    Option (Option (Ptr × DropReason) × PacketQueue Ptr) :=
  if s.len_ = s.limit_ then do
    let (p0, s) ← s.remove_head
    let p0 ← p0
    if now < s.ts_ p0 then some (some (p0, .DROP_RTR_QFULL), s)
    else some (some (p0, .DROP_RTR_QTIMEOUT), s)
  else some (none, s)

/-- The packet `p` comes behind the last one. -/
def link (s : PacketQueue Ptr) (p : Ptr) : Option (PacketQueue Ptr) :=
  match s.head_ with
  | none => some { s with head_ := some p, tail_ := some p, len_ := s.len_ + 1 }
  | some _ =>
      match s.tail_ with
      | none => none
      | some l => some { s.setNext l (some p) with tail_ := some p, len_ := s.len_ + 1 }

/-- `p->next_ = 0; ch->ts_ = CURRENT_TIME + timeout_` -/
def stamp (s : PacketQueue Ptr) (p : Ptr) (now : ℚ) : PacketQueue Ptr :=
  { s.setNext p none with ts_ := Function.update s.ts_ p (now + s.timeout_) }

/-- `enque(p)`: the packet that is dropped, if there is one, and the queue. -/
def enque (fuel : ℕ) (s : PacketQueue Ptr) (p : Ptr) (now : ℚ) :
    Option (Option (Ptr × DropReason) × PacketQueue Ptr) := do
  let s ← s.purge fuel now fuel
  let (dropped, s) ← (s.stamp p now).dropFront now
  let s ← s.link p
  s.verifyQueue fuel
  some (dropped, s)

/-- `deque()` -/
def deque (fuel : ℕ) (s : PacketQueue Ptr) (now : ℚ) : Option (Option Ptr × PacketQueue Ptr) := do
  let s ← s.purge fuel now fuel
  let (p, s) ← s.remove_head
  s.verifyQueue fuel
  some (p, s)

/-- `deque(dst)` -/
def dequeFor (fuel : ℕ) (s : PacketQueue Ptr) (dst : ℤ) (now : ℚ) :
    Option (Option Ptr × PacketQueue Ptr) := do
  let s ← s.purge fuel now fuel
  let (p, prev) ← s.findPacketWithDst fuel dst
  guard (s.Adjacent p prev)
  match p with
  | none => some (none, s)
  | some p =>
      let s ← s.unlink p prev
      s.verifyQueue fuel
      some (some p, s)

/-- `find(dst)` -/
def find (fuel : ℕ) (s : PacketQueue Ptr) (dst : ℤ) : Option Bool := do
  let (p, _) ← s.findPacketWithDst fuel dst
  some p.isSome

/-! ## The list -/

open Linked

/-- The packets from `head_` to `tail_` are `xs`, and `len_` is their number. -/
structure Holds (s : PacketQueue Ptr) (xs : List Ptr) : Prop where
  slist : IsSList s.next_ s.head_ xs
  tail : s.tail_ = xs.getLast?
  len : s.len_ = xs.length

/-- What unlinking a packet leaves: the headers and the configuration. -/
structure Same (s t : PacketQueue Ptr) : Prop where
  ts_ : t.ts_ = s.ts_
  daddr : t.daddr = s.daddr
  limit_ : t.limit_ = s.limit_
  timeout_ : t.timeout_ = s.timeout_

/-- The packets that the links reach from a packet. -/
def follow (next_ : Ptr → Option Ptr) : ℕ → Option Ptr → List Ptr
  | 0, _ => []
  | _ + 1, none => []
  | n + 1, some p => p :: follow next_ n (next_ p)

/-- The packets in the queue. -/
def packets (s : PacketQueue Ptr) : List Ptr := follow s.next_ s.len_.toNat s.head_

variable {s t u : PacketQueue Ptr} {xs A B : List Ptr} {p q : Ptr} {fuel rounds : ℕ} {now : ℚ}

omit [DecidableEq Ptr] in
theorem Same.trans (h : Same s t) (h' : Same t u) : Same s u :=
  ⟨h'.ts_.trans h.ts_, h'.daddr.trans h.daddr, h'.limit_.trans h.limit_,
    h'.timeout_.trans h.timeout_⟩

omit [DecidableEq Ptr] in
theorem follow_eq {next_ : Ptr → Option Ptr} : ∀ {xs : List Ptr} {hd : Option Ptr},
    IsSList next_ hd xs → follow next_ xs.length hd = xs := by
  intro xs
  induction xs with
  | nil => exact fun _ => rfl
  | cons x xs ih =>
      intro hd h
      rw [h.head, List.head?_cons, List.length_cons, follow, ih h.tail]

omit [DecidableEq Ptr] in
theorem Holds.packets (h : s.Holds xs) : s.packets = xs := by
  rw [PacketQueue.packets, h.len, Int.toNat_natCast, follow_eq h.slist]

omit [DecidableEq Ptr] in
theorem countFrom_eq {next_ : Ptr → Option Ptr} : ∀ {B : List Ptr} {hd prev : Option Ptr} {fuel : ℕ}
    {cnt : ℤ}, IsSList next_ hd B → B.length < fuel →
    countFrom next_ fuel hd prev cnt = some ((B.getLast?.or prev), cnt + B.length) := by
  intro B
  induction B with
  | nil =>
      intro hd prev fuel cnt h hf
      obtain ⟨fuel, rfl⟩ := Nat.exists_eq_add_one_of_ne_zero (Nat.ne_of_gt hf)
      rw [h.head]
      simp [countFrom]
  | cons b B ih =>
      intro hd prev fuel cnt h hf
      obtain ⟨fuel, rfl⟩ := Nat.exists_eq_add_one_of_ne_zero (Nat.ne_of_gt (Nat.zero_lt_of_lt hf))
      rw [h.head, List.head?_cons, countFrom, ih h.tail (Nat.lt_of_succ_lt_succ hf), List.getLast?_cons]
      cases B.getLast? <;> simp <;> omega

/-- **`verifyQueue` does not fail.** -/
theorem Holds.verifyQueue (h : s.Holds xs) (hf : xs.length < fuel) :
    s.verifyQueue fuel = some () := by
  rw [PacketQueue.verifyQueue, countFrom_eq h.slist hf]
  simp [h.tail, h.len, guard]

/-- The packet at the head goes. -/
theorem Holds.remove_head (h : s.Holds xs) :
    ∃ t, s.remove_head = some (xs.head?, t) ∧ t.Holds xs.tail ∧ Same s t ∧ t.next_ = s.next_ := by
  have hhead := h.slist.head
  have htail := h.tail
  cases xs with
  | nil =>
      refine ⟨{ s with head_ := none, tail_ := none }, ?_, ⟨IsSList.nil, rfl, h.len⟩,
        ⟨rfl, rfl, rfl, rfl⟩, rfl⟩
      rw [List.head?_nil] at hhead
      rw [List.getLast?_nil] at htail
      simp [PacketQueue.remove_head, hhead, htail]
  | cons p xs =>
      have hlen : s.len_ - 1 = (xs.length : ℤ) := by
        rw [h.len, List.length_cons]
        omega
      rw [List.head?_cons] at hhead
      by_cases hxs : xs = []
      · subst hxs
        rw [List.getLast?_singleton] at htail
        refine ⟨{ s with head_ := none, tail_ := none, len_ := s.len_ - 1 }, ?_,
          ⟨IsSList.nil, rfl, hlen⟩, ⟨rfl, rfl, rfl, rfl⟩, rfl⟩
        simp [PacketQueue.remove_head, hhead, htail]
      · have hlast : (p :: xs).getLast? = xs.getLast? := by
          obtain ⟨x, xs, rfl⟩ := List.exists_cons_of_ne_nil hxs
          exact List.getLast?_cons_cons
        have hne : s.tail_ ≠ some p := by
          rw [htail, hlast]
          exact getLast?_ne_some (List.nodup_cons.1 h.slist.nodup).1
        refine ⟨{ s with head_ := s.next_ p, len_ := s.len_ - 1 }, ?_,
          ⟨h.slist.tail, htail.trans hlast, hlen⟩, ⟨rfl, rfl, rfl, rfl⟩, rfl⟩
        simp [PacketQueue.remove_head, hhead, hne]

/-- A packet goes from anywhere in the list. -/
theorem Holds.unlink (h : s.Holds (A ++ p :: B)) :
    ∃ t, s.unlink p A.getLast? = some t ∧ t.Holds (A ++ B) ∧ Same s t := by
  have hhead := h.slist.head
  have htail := h.tail
  rcases List.eq_nil_or_concat A with rfl | ⟨A, q, rfl⟩
  · obtain ⟨t, ht, hholds, hsame, -⟩ := h.remove_head
    have hhead' : s.head_ = some p := hhead
    exact ⟨t, by simp [PacketQueue.unlink, hhead', ht], hholds, hsame⟩
  · rw [List.concat_eq_append] at *
    have hnd := notMem_of_nodup h.slist.nodup
    have hne : s.head_ ≠ some p := by
      rw [hhead, List.head?_append_of_ne_nil _ (by simp)]
      exact head?_ne_some hnd.1
    have hlen : s.len_ - 1 = ((A ++ [q] ++ B).length : ℤ) := by
      rw [h.len]
      simp only [List.length_append, List.length_cons]
      omega
    have hs : IsSList (Function.update s.next_ q (s.next_ p)) s.head_ (A ++ q :: B) :=
      IsSList.unlinkAfter (by simpa using h.slist)
    have hnext : s.next_ p = B.head? := h.slist.next (A ++ [q]) p B rfl
    by_cases hB : B = []
    · -- the packet at the tail
      subst hB
      have hlast : s.tail_ = some p := by rw [htail, List.getLast?_concat]
      refine ⟨{ s.setNext q none with tail_ := some q, len_ := s.len_ - 1 },
        by simp [PacketQueue.unlink, hne, hlast], ⟨?_, by simp, hlen⟩, rfl, rfl, rfl, rfl⟩
      rw [hnext] at hs
      simpa [setNext] using hs
    · have hlast : (A ++ [q] ++ p :: B).getLast? = B.getLast? := by
        obtain ⟨b, B, rfl⟩ := List.exists_cons_of_ne_nil hB
        rw [List.getLast?_append_cons, List.getLast?_cons_cons]
      have hne' : s.tail_ ≠ some p := by
        rw [htail, hlast]
        exact getLast?_ne_some hnd.2
      refine ⟨{ s.setNext q (s.next_ p) with len_ := s.len_ - 1 },
        by simp [PacketQueue.unlink, hne, hne'], ⟨by simpa [setNext] using hs, ?_, hlen⟩,
        rfl, rfl, rfl, rfl⟩
      rw [List.getLast?_append_of_ne_nil _ hB, ← hlast]
      exact htail

omit [DecidableEq Ptr] in
/-- The assertion before a packet is unlinked holds. -/
theorem Holds.adjacent (h : s.Holds (A ++ p :: B)) : s.Adjacent (some p) A.getLast? := by
  rcases List.eq_nil_or_concat A with rfl | ⟨A, q, rfl⟩
  · exact Or.inr (Or.inl ⟨h.slist.head.symm, rfl⟩)
  · rw [List.concat_eq_append] at *
    refine Or.inr (Or.inr ⟨q, by simp, ?_⟩)
    exact h.slist.next A q (p :: B) (by simp)

/-! ## The operations -/

/-- The packets that have not timed out. -/
def alive (s : PacketQueue Ptr) (xs : List Ptr) (now : ℚ) : List Ptr :=
  xs.filter fun p => now ≤ s.ts_ p

omit [DecidableEq Ptr] in
theorem alive_sublist (s : PacketQueue Ptr) (xs : List Ptr) (now : ℚ) :
    (s.alive xs now).Sublist xs := List.filter_sublist

/-- **What `purge` leaves**: the packets that have not timed out, in their order.  Each round takes
one packet out, so the loop ends. -/
theorem Holds.purge (rounds : ℕ) (now : ℚ) : ∀ (n : ℕ) {s : PacketQueue Ptr} {xs : List Ptr},
    s.Holds xs → xs.length < n → xs.length < rounds →
    ∃ t, s.purge rounds now n = some t ∧ t.Holds (s.alive xs now) ∧ Same s t := by
  intro n
  induction n with
  | zero => exact fun _ hn => absurd hn (Nat.not_lt_zero _)
  | succ n ih =>
      intro s xs h hn hr
      have hhead := h.slist.head
      rcases h.slist.search_spec (fun p => s.ts_ p < now) (A := []) (B := xs) hr with
        ⟨hall, hs⟩ | ⟨A, p, B, rfl, hp, hA, hs⟩
      · -- nothing has timed out
        have hfilter : s.alive xs now = xs := by
          refine List.filter_eq_self.2 fun x hx => ?_
          simpa using hall x hx
        rw [hfilter]
        refine ⟨s, ?_, h, rfl, rfl, rfl, rfl⟩
        rw [PacketQueue.purge, findAgedPacket, hhead, ← List.getLast?_nil (α := Ptr), hs]
        rfl
      · obtain ⟨t, ht, hholds, hsame⟩ := h.unlink
        have hlen : (A ++ B).length + 1 = (A ++ p :: B).length := by simp; omega
        obtain ⟨u, hu, hholds', hsame'⟩ := ih hholds (by omega) (by omega)
        have hverify : t.verifyQueue rounds = some () := hholds.verifyQueue (by omega)
        have hfilter : s.alive (A ++ p :: B) now = t.alive (A ++ B) now := by
          have hp' : s.ts_ p < now := by simpa using hp
          simp [alive, List.filter_append, hsame.ts_, hp']
        rw [hfilter]
        refine ⟨u, ?_, hholds', hsame.trans hsame'⟩
        rw [PacketQueue.purge, findAgedPacket, hhead, ← List.getLast?_nil (α := Ptr), hs]
        simp [h.adjacent, ht, hverify, hu, guard]

/-- The packet that a full queue drops, and why. -/
def dropped (s : PacketQueue Ptr) (xs : List Ptr) (now : ℚ) : Option (Ptr × DropReason) :=
  if xs.length = s.limit_ then
    xs.head?.map fun p => (p, if now < s.ts_ p then .DROP_RTR_QFULL else .DROP_RTR_QTIMEOUT)
  else none

/-- The packets that it keeps. -/
def kept (s : PacketQueue Ptr) (xs : List Ptr) : List Ptr :=
  if xs.length = s.limit_ then xs.tail else xs

/-- A full queue drops the packet at the head. -/
theorem Holds.dropFront (h : s.Holds xs) (hlimit : 0 < s.limit_) (now : ℚ) :
    ∃ t, s.dropFront now = some (s.dropped xs now, t) ∧ t.Holds (s.kept xs) ∧ Same s t ∧
      t.next_ = s.next_ := by
  rw [PacketQueue.dropFront, dropped, kept, h.len]
  by_cases hfull : (xs.length : ℤ) = s.limit_
  · obtain ⟨t, ht, hholds, hsame, hnext⟩ := h.remove_head
    cases xs with
    | nil =>
        rw [List.length_nil] at hfull
        omega
    | cons p xs =>
        refine ⟨t, ?_, by rwa [if_pos hfull], hsame, hnext⟩
        rw [if_pos hfull, if_pos hfull, ht]
        by_cases hp : now < s.ts_ p <;> simp [hsame.ts_, hp]
  · exact ⟨s, by rw [if_neg hfull, if_neg hfull], by rwa [if_neg hfull],
      ⟨rfl, rfl, rfl, rfl⟩, rfl⟩

omit [DecidableEq Ptr] in
theorem kept_sublist (s : PacketQueue Ptr) (xs : List Ptr) : (s.kept xs).Sublist xs := by
  rw [kept]
  split
  · exact List.tail_sublist xs
  · exact List.Sublist.refl xs

omit [DecidableEq Ptr] in
/-- There is room for one more packet. -/
theorem kept_length_lt (hlimit : 0 < s.limit_) (hle : (xs.length : ℤ) ≤ s.limit_) :
    ((s.kept xs).length : ℤ) < s.limit_ := by
  rw [kept]
  split
  · rw [List.length_tail]
    omega
  · omega

/-- A packet comes behind the last one. -/
theorem Holds.link (h : s.Holds xs) (hp : p ∉ xs) (hnext : s.next_ p = none) :
    ∃ t, s.link p = some t ∧ t.Holds (xs ++ [p]) ∧ Same s t := by
  have hs := h.slist.snoc hp
  have hhead := h.slist.head
  have htail := h.tail
  have hlen : s.len_ + 1 = ((xs ++ [p]).length : ℤ) := by
    rw [h.len]
    simp
  rcases List.eq_nil_or_concat xs with rfl | ⟨A, l, rfl⟩
  · rw [List.head?_nil] at hhead
    refine ⟨{ s with head_ := some p, tail_ := some p, len_ := s.len_ + 1 },
      by simp [PacketQueue.link, hhead], ⟨?_, rfl, hlen⟩, rfl, rfl, rfl, rfl⟩
    have hself : Function.update s.next_ p none = s.next_ := by rw [← hnext, Function.update_eq_self]
    simpa [hself] using hs
  · rw [List.concat_eq_append] at *
    rw [List.getLast?_concat] at htail
    obtain ⟨f, hf⟩ : ∃ f, s.head_ = some f := by
      rw [hhead]
      cases A <;> exact ⟨_, rfl⟩
    have hpl : p ≠ l := fun hpl => hp (by simp [hpl])
    refine ⟨{ s.setNext l (some p) with tail_ := some p, len_ := s.len_ + 1 },
      by simp [PacketQueue.link, hf, htail], ⟨?_, by simp, hlen⟩, rfl, rfl, rfl, rfl⟩
    have hself : Function.update (Function.update s.next_ l (some p)) p none =
        Function.update s.next_ l (some p) := by
      rw [Function.update_eq_iff]
      exact ⟨by rw [Function.update_of_ne hpl, hnext], fun _ _ => rfl⟩
    simpa [setNext, hself] using hs

/-- The packet that is put in has its header stamped first; it is not linked yet. -/
theorem Holds.stamp (h : s.Holds xs) (hp : p ∉ xs) : (s.stamp p now).Holds xs := by
  refine ⟨h.slist.congr fun x hx => ?_, h.tail, h.len⟩
  have hne : x ≠ p := fun hxp => hp (hxp ▸ hx)
  simp [PacketQueue.stamp, setNext, hne]

/-- That does not change what a full queue drops. -/
theorem dropped_stamp (hp : p ∉ xs) (hsame : Same s t) :
    (t.stamp p now).dropped xs now = s.dropped xs now := by
  rw [dropped, dropped]
  cases xs with
  | nil => simp [stamp, setNext, hsame.limit_]
  | cons x xs =>
      have hx : x ≠ p := fun hx => hp (by simp [hx])
      simp [stamp, setNext, hsame.limit_, hsame.ts_, hx]

/-- **`enque`**: the packets that have timed out go, a full queue drops its head, and the new packet
comes last. -/
theorem Holds.enque (h : s.Holds xs) (hp : p ∉ xs) (hlimit : 0 < s.limit_)
    (hle : (xs.length : ℤ) ≤ s.limit_) (hf : s.limit_ < fuel) (now : ℚ) :
    ∃ t, s.enque fuel p now = some (s.dropped (s.alive xs now) now, t) ∧
      t.Holds (s.kept (s.alive xs now) ++ [p]) ∧
      Same { s with ts_ := Function.update s.ts_ p (now + s.timeout_) } t := by
  have halive := (s.alive_sublist xs now).length_le
  have hpa : p ∉ s.alive xs now := fun hmem => hp ((s.alive_sublist xs now).subset hmem)
  have hpk : p ∉ s.kept (s.alive xs now) := fun hmem => hpa ((s.kept_sublist _).subset hmem)
  obtain ⟨t, ht, hholds, hsame⟩ := h.purge fuel now fuel (by omega) (by omega)
  have hlimit' : (t.stamp p now).limit_ = s.limit_ := hsame.limit_
  obtain ⟨u, hu, hholds', hsame', hnext⟩ := (hholds.stamp hpa).dropFront (by rwa [hlimit']) now
  have hkept : (t.stamp p now).kept (s.alive xs now) = s.kept (s.alive xs now) := by
    rw [kept, kept, hlimit']
  rw [hkept] at hholds'
  rw [dropped_stamp hpa hsame] at hu
  obtain ⟨v, hv, hholds'', hsame''⟩ := hholds'.link hpk (by
    rw [hnext]
    exact Function.update_self _ _ _)
  have hlen : (s.kept (s.alive xs now) ++ [p]).length < fuel := by
    have hroom : ((s.kept (s.alive xs now)).length : ℤ) < s.limit_ :=
      kept_length_lt hlimit (by omega)
    rw [List.length_append, List.length_singleton]
    omega
  have hstamp : Same { s with ts_ := Function.update s.ts_ p (now + s.timeout_) } (t.stamp p now) :=
    ⟨by rw [PacketQueue.stamp, hsame.ts_, hsame.timeout_], hsame.daddr, hsame.limit_, hsame.timeout_⟩
  refine ⟨v, ?_, hholds'', hstamp.trans (hsame'.trans hsame'')⟩
  rw [PacketQueue.enque, ht]
  simp [hu, hv, hholds''.verifyQueue hlen]

/-- **`deque()`**: the packets that have timed out go, and the first one is returned. -/
theorem Holds.deque (h : s.Holds xs) (hf : xs.length < fuel) (now : ℚ) :
    ∃ t, s.deque fuel now = some ((s.alive xs now).head?, t) ∧ t.Holds (s.alive xs now).tail ∧
      Same s t := by
  obtain ⟨t, ht, hholds, hsame⟩ := h.purge fuel now fuel hf hf
  obtain ⟨u, hu, hholds', hsame', -⟩ := hholds.remove_head
  have hlen : (s.alive xs now).tail.length < fuel :=
    ((List.tail_sublist _).trans (s.alive_sublist xs now)).length_le.trans_lt hf
  refine ⟨u, ?_, hholds', hsame.trans hsame'⟩
  rw [PacketQueue.deque, ht]
  simp [hu, hholds'.verifyQueue hlen]

omit [DecidableEq Ptr] in
/-- The first packet for a destination, with the packet before it. -/
theorem Holds.findPacketWithDst (h : s.Holds xs) (hf : xs.length < fuel) (dst : ℤ) :
    (xs.find? (fun p => s.daddr p = dst) = none ∧
        s.findPacketWithDst fuel dst = some (none, xs.getLast?)) ∨
      ∃ A p B, xs = A ++ p :: B ∧ s.daddr p = dst ∧ (∀ x ∈ A, s.daddr x ≠ dst) ∧
        s.findPacketWithDst fuel dst = some (some p, A.getLast?) := by
  rw [PacketQueue.findPacketWithDst, h.slist.head, ← List.getLast?_nil (α := Ptr)]
  rcases h.slist.search_spec (fun p => s.daddr p = dst) (A := []) (B := xs) hf with
    ⟨hall, hs⟩ | ⟨A, p, B, rfl, hp, hA, hs⟩
  · exact Or.inl ⟨List.find?_eq_none.2 fun x hx => by simpa using hall x hx, hs⟩
  · exact Or.inr ⟨A, p, B, rfl, by simpa using hp, fun x hx => by simpa using hA x hx, hs⟩

/-- **`deque(dst)`**: the packets that have timed out go, and the first one for the destination is
returned. -/
theorem Holds.dequeFor (h : s.Holds xs) (hf : xs.length < fuel) (dst : ℤ) (now : ℚ) :
    ∃ t, s.dequeFor fuel dst now =
        some ((s.alive xs now).find? (fun p => s.daddr p = dst), t) ∧
      t.Holds ((s.alive xs now).eraseP fun p => s.daddr p = dst) ∧ Same s t := by
  obtain ⟨t, ht, hholds, hsame⟩ := h.purge fuel now fuel hf hf
  have hlen : (s.alive xs now).length < fuel := (s.alive_sublist xs now).length_le.trans_lt hf
  rw [PacketQueue.dequeFor, ht, ← hsame.daddr]
  rcases hholds.findPacketWithDst hlen dst with ⟨hnone, hfind⟩ | ⟨A, p, B, hys, hp, hA, hfind⟩
  · refine ⟨t, by simp [hfind, hnone, Adjacent, guard], ?_, hsame⟩
    rwa [List.eraseP_of_forall_not (by simpa using List.find?_eq_none.1 hnone)]
  · rw [hys] at hholds hlen ⊢
    have hA' : ∀ x ∈ A, ¬ (decide (t.daddr x = dst) = true) := by simpa using hA
    obtain ⟨u, hu, hholds', hsame'⟩ := hholds.unlink
    have hlen' : (A ++ B).length < fuel := by
      simp only [List.length_append, List.length_cons] at hlen ⊢
      omega
    have hfirst : (A ++ p :: B).find? (fun p => t.daddr p = dst) = some p := by
      rw [List.find?_append, List.find?_eq_none.2 hA']
      simp [hp]
    rw [hfirst, eraseP_middle hA' (by simpa using hp)]
    exact ⟨u, by simp [hfind, hholds.adjacent, guard, hu, hholds'.verifyQueue hlen'], hholds',
      hsame.trans hsame'⟩

omit [DecidableEq Ptr] in
/-- **`find`** tells whether there is a packet for the destination, also one that has timed out. -/
theorem Holds.find (h : s.Holds xs) (hf : xs.length < fuel) (dst : ℤ) :
    s.find fuel dst = some (xs.any fun p => s.daddr p = dst) := by
  rw [PacketQueue.find]
  rcases h.findPacketWithDst hf dst with ⟨hnone, hfind⟩ | ⟨A, p, B, rfl, hp, hA, hfind⟩
  · have hany : (xs.any fun p => s.daddr p = dst) = false := by
      simpa using List.find?_eq_none.1 hnone
    simp [hfind, hany]
  · simp [hfind, hp]

/-! ## The list of the headers -/

/-- The packets of the queue as the list of their headers. -/
def view (s : PacketQueue Ptr) (pk : Ptr → Packet) (xs : List Ptr) : Rqueue :=
  xs.map fun p => { pk p with daddr := s.daddr p, ts_ := s.ts_ p }

variable {pk : Ptr → Packet}

omit [DecidableEq Ptr] in
theorem view_alive : s.view pk (s.alive xs now) = (s.view pk xs).purge now := by
  rw [view, view, alive, Rqueue.purge, List.filter_map]
  rfl

omit [DecidableEq Ptr] in
theorem view_kept (hlimit : s.limit_ = AODV_RTQ_MAX_LEN) :
    s.view pk (s.kept xs) =
      if (s.view pk xs).length = AODV_RTQ_MAX_LEN then (s.view pk xs).tail else s.view pk xs := by
  have hlen : (s.view pk xs).length = xs.length := List.length_map _
  rw [kept, hlimit, hlen]
  by_cases hfull : xs.length = AODV_RTQ_MAX_LEN
  · rw [if_pos (by exact_mod_cast hfull), if_pos hfull, view, view, List.map_tail]
  · rw [if_neg (by exact_mod_cast hfull), if_neg hfull]

/-- **`enque` does on the linked list what it does on the list of the headers.** -/
theorem Holds.enque_view (h : s.Holds xs) (hp : p ∉ xs) (hlimit : s.limit_ = AODV_RTQ_MAX_LEN)
    (htimeout : s.timeout_ = AODV_RTQ_TIMEOUT) (hle : xs.length ≤ AODV_RTQ_MAX_LEN)
    (hf : AODV_RTQ_MAX_LEN < fuel) (now : ℚ) :
    ∃ d t ys, s.enque fuel p now = some (d, t) ∧ t.Holds ys ∧
      t.view pk ys = (s.view pk xs).enque { pk p with daddr := s.daddr p } now := by
  have hroom : (0 : ℤ) < s.limit_ := by
    rw [hlimit]
    decide
  obtain ⟨t, ht, hholds, hsame⟩ := h.enque hp hroom (by rw [hlimit]; exact_mod_cast hle)
    (by rw [hlimit]; exact_mod_cast hf) now
  refine ⟨_, t, _, ht, hholds, ?_⟩
  have hpk : p ∉ s.kept (s.alive xs now) := fun hmem =>
    hp ((s.alive_sublist xs now).subset ((s.kept_sublist _).subset hmem))
  -- the headers of the other packets stay
  have hold : t.view pk (s.kept (s.alive xs now)) = s.view pk (s.kept (s.alive xs now)) := by
    refine List.map_congr_left fun x hx => ?_
    have hxp : x ≠ p := fun hxp => hpk (hxp ▸ hx)
    rw [hsame.ts_, hsame.daddr]
    simp [hxp]
  have hnew : t.view pk [p] =
      [{ pk p with
          daddr := s.daddr p
          ts_ := now + AODV_RTQ_TIMEOUT }] := by
    simp [view, hsame.ts_, hsame.daddr, htimeout]
  have hsplit : t.view pk (s.kept (s.alive xs now) ++ [p]) =
      t.view pk (s.kept (s.alive xs now)) ++ t.view pk [p] := List.map_append
  rw [hsplit, hold, hnew, view_kept hlimit, view_alive]
  rfl

omit [DecidableEq Ptr] in
/-- So does `find`. -/
theorem Holds.find_view (h : s.Holds xs) (hf : xs.length < fuel) (dst : ℤ) :
    s.find fuel dst = some ((s.view pk xs).find dst) := by
  rw [h.find hf, Rqueue.find, view, List.any_map]
  rfl

/-- `while ((p = rqueue.deque(dst)))`: the packets that are returned, with at most `n` calls. -/
def drain (fuel : ℕ) (dst : ℤ) (now : ℚ) : ℕ → PacketQueue Ptr → Option (List Ptr × PacketQueue Ptr)
  | 0, _ => none
  | n + 1, s => do
      let (p, s) ← s.dequeFor fuel dst now
      match p with
      | none => some ([], s)
      | some p =>
          let (ps, s) ← drain fuel dst now n s
          some (p :: ps, s)

omit [DecidableEq Ptr] in
/-- What has not timed out does not time out at the same time. -/
theorem alive_eq_self (hsame : Same s t) (h : A.Sublist (s.alive xs now)) : t.alive A now = A := by
  refine List.filter_eq_self.2 fun x hx => ?_
  have hx' := (List.mem_filter.1 (h.subset hx)).2
  rwa [hsame.ts_]

/-- The loop returns the packets for the destination in their order, and leaves the others. -/
theorem Holds.drain (dst : ℤ) (now : ℚ) : ∀ {n : ℕ} {s : PacketQueue Ptr} {xs : List Ptr},
    s.Holds xs → xs.length < fuel → xs.length < n →
    ∃ t, s.drain fuel dst now n = some ((s.alive xs now).filter (fun p => s.daddr p = dst), t) ∧
      t.Holds ((s.alive xs now).filter fun p => ! decide (s.daddr p = dst)) ∧ Same s t := by
  intro n
  induction n with
  | zero => exact fun _ _ hn => absurd hn (Nat.not_lt_zero _)
  | succ n ih =>
      intro s xs h hf hn
      obtain ⟨t, ht, hholds, hsame⟩ := h.dequeFor hf dst now
      rw [PacketQueue.drain, ht]
      have hle := (s.alive_sublist xs now).length_le
      cases hfind : (s.alive xs now).find? fun p => s.daddr p = dst with
      | none =>
          have hall := List.find?_eq_none.1 hfind
          have hnone : (s.alive xs now).filter (fun p => s.daddr p = dst) = [] :=
            List.filter_eq_nil_iff.2 hall
          have hothers : (s.alive xs now).filter (fun p => ! decide (s.daddr p = dst)) =
              s.alive xs now := List.filter_eq_self.2 (by simpa using hall)
          rw [List.eraseP_of_forall_not hall] at hholds
          rw [hnone, hothers]
          exact ⟨t, rfl, hholds, hsame⟩
      | some p =>
          obtain ⟨hp, A, B, hys, hA⟩ := List.find?_eq_some_iff_append.1 hfind
          have hp' : s.daddr p = dst := by simpa using hp
          have hA' : ∀ x ∈ A, s.daddr x ≠ dst := by simpa using hA
          have herase : (s.alive xs now).eraseP (fun p => s.daddr p = dst) = A ++ B := by
            rw [hys]
            exact eraseP_middle (by simpa using hA') (by simpa using hp')
          have hsub : (A ++ B).Sublist (s.alive xs now) := by
            rw [hys]
            exact (List.sublist_cons_self p B).append_left A
          have hrest : t.alive (A ++ B) now = A ++ B := alive_eq_self hsame hsub
          have hlen : (A ++ B).length + 1 = (s.alive xs now).length := by
            rw [hys]
            simp
            omega
          rw [herase] at hholds
          obtain ⟨u, hu, hholds', hsame'⟩ := ih hholds (by omega) (by omega)
          rw [hrest, hsame.daddr] at hu hholds'
          have hAnil : A.filter (fun p => s.daddr p = dst) = [] := by
            simpa [List.filter_eq_nil_iff] using hA'
          refine ⟨u, ?_, ?_, hsame.trans hsame'⟩
          · simp [hu, hys, List.filter_append, hAnil, hp']
          · simpa [hys, List.filter_append, hp'] using hholds'

/-- **The loop does on the linked list what `dequeAll` does on the list of the headers.** -/
theorem Holds.drain_view (h : s.Holds xs) (hf : xs.length < fuel) (dst : ℤ) (now : ℚ) :
    ∃ ps t ys, s.drain fuel dst now fuel = some (ps, t) ∧ t.Holds ys ∧
      (t.view pk ps, t.view pk ys) = (s.view pk xs).dequeAll dst now := by
  obtain ⟨t, ht, hholds, hsame⟩ := h.drain dst now hf hf
  refine ⟨_, t, _, ht, hholds, ?_⟩
  rw [Rqueue.dequeAll, ← view_alive, List.partition_eq_filter_filter, view, view, view, hsame.ts_,
    hsame.daddr, List.filter_map, List.filter_map]
  rfl

end PacketQueue

end Ns2.Aodv
