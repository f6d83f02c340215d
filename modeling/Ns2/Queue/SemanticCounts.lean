import Mathlib
import Ns2.Lib.Linked
import Ns2.Queue.SemanticQueue

/-!
# The counters of acknowledgment-aware queues

* `Holds hdr s xs` — the invariant of the base class: the pointers of `s` represent the
  packets `xs`, and `len_` and `bytes_` are theirs.
* `Counted hdr s xs` — the four counters of the derived class are those of `xs`.
* `enqueNow_exact`, `deque_exact`, `remove_exact` — one operation, if `enque` meets no
  packet to purge and `remove` is not for the head.
* `counters_exact` — every run of such operations.
-/

namespace Ns2.Queue

open Linked

namespace SemanticPacketQueue

variable (hdr : ℕ → Header)

/-- The base class holds the packets `xs`. -/
structure Holds (s : SemanticPacketQueue) (xs : List ℕ) : Prop where
  list : IsSList s.next_ s.head_ xs
  tail : s.tail_ = xs.getLast?
  len : s.len_ = xs.length
  bytes : s.bytes_ = (xs.map fun p => (hdr p).size).sum
  alive : ∀ p ∈ xs, p ∉ s.freed

/-- The counters of the derived class are those of the packets `xs`. -/
structure Counted (s : SemanticPacketQueue) (xs : List ℕ) : Prop where
  acks : s.ack_count = xs.countP fun p => (hdr p).isAck
  data : s.data_count = xs.countP fun p => !(hdr p).isAck
  marked : s.marked_count_ = xs.countP fun p => (hdr p).fs
  unmarked : s.unmarked_count_ = xs.countP fun p => !(hdr p).fs

/-- The queue holds the packets `xs` and all its counters are right. -/
structure Exact (s : SemanticPacketQueue) (xs : List ℕ) : Prop extends
  Holds hdr s xs, Counted hdr s xs

variable {hdr} {s : SemanticPacketQueue} {xs A B : List ℕ} {p q : ℕ}

theorem Exact.empty : Exact hdr empty [] :=
  ⟨⟨IsSList.nil, rfl, rfl, rfl, by simp⟩, ⟨rfl, rfl, rfl, rfl⟩⟩

/-- The counters of the derived class are left alone, and no packet is freed. -/
structure SameCounts (s s' : SemanticPacketQueue) : Prop where
  freed : s'.freed = s.freed
  acks : s'.ack_count = s.ack_count
  data : s'.data_count = s.data_count
  marked : s'.marked_count_ = s.marked_count_
  unmarked : s'.unmarked_count_ = s.unmarked_count_

theorem Counted.congr (h : Counted hdr s xs) {s' : SemanticPacketQueue} (hs : SameCounts s s') :
    Counted hdr s' xs :=
  ⟨hs.acks.trans h.acks, hs.data.trans h.data, hs.marked.trans h.marked,
    hs.unmarked.trans h.unmarked⟩

/-! ## The base class -/

namespace Holds

theorem nextOf (h : Holds hdr s (A ++ p :: B)) : s.nextOf p = some B.head? := by
  rw [SemanticPacketQueue.nextOf, if_neg (h.alive p (by simp)), h.list.next A p B rfl]

theorem access (h : Holds hdr s xs) (hp : p ∈ xs) : s.access hdr p = some (hdr p) :=
  if_neg (h.alive p hp)

/-- `enque` puts a fresh packet at the end. -/
theorem baseEnque (h : Holds hdr s xs) (hp : p ∉ xs) (hf : p ∉ s.freed) :
    Holds hdr (s.baseEnque hdr p) (xs ++ [p]) := by
  have hlist := h.list.snoc hp
  refine ⟨?_, ?_, ?_, ?_, ?_⟩
  · rw [← h.tail] at hlist
    cases ht : s.tail_ with
    | none => simpa [SemanticPacketQueue.baseEnque, ht] using hlist
    | some t => simpa [SemanticPacketQueue.baseEnque, ht] using hlist
  · cases ht : s.tail_ <;> simp [SemanticPacketQueue.baseEnque, ht]
  · cases ht : s.tail_ <;> simp [SemanticPacketQueue.baseEnque, ht, h.len]
  · cases ht : s.tail_ <;> simp [SemanticPacketQueue.baseEnque, ht, h.bytes]
  · have hfreed : (s.baseEnque hdr p).freed = s.freed := by
      cases ht : s.tail_ <;> simp [SemanticPacketQueue.baseEnque, ht]
    rw [hfreed]
    intro x hx
    rcases List.mem_append.mp hx with hx | hx
    · exact h.alive x hx
    · exact List.mem_singleton.mp hx ▸ hf

/-- `deque` takes the first packet. -/
theorem baseDeque (h : Holds hdr s (p :: xs)) :
    ∃ s', s.baseDeque hdr = some (s', some p) ∧ Holds hdr s' xs ∧ SameCounts s s' := by
  have hhead : s.head_ = some p := h.list.head
  have hnext : s.nextOf p = some xs.head? := h.nextOf (A := [])
  have hacc : s.access hdr p = some (hdr p) := h.access List.mem_cons_self
  have hlist := h.list.tail
  rw [h.list.next [] p xs rfl] at hlist
  rw [SemanticPacketQueue.baseDeque, hhead]
  simp only [hnext, hacc, Option.bind_eq_bind, Option.bind_some]
  refine ⟨_, rfl, ?_⟩
  have halive : ∀ x ∈ xs, x ∉ s.freed := fun x hx => h.alive x (List.mem_cons_of_mem _ hx)
  have hlen := h.len
  have hbytes := h.bytes
  simp only [List.length_cons, List.map_cons, List.sum_cons] at hlen hbytes
  cases xs with
  | nil =>
    have htail : s.tail_ = some p := h.tail
    rw [if_pos htail]
    exact ⟨⟨IsSList.nil, rfl, by simp [hlen], by simp [hbytes], by simp⟩, ⟨rfl, rfl, rfl, rfl, rfl⟩⟩
  | cons y ys =>
    have hne : s.tail_ ≠ some p := by
      rw [h.tail, List.getLast?_cons_cons]
      exact getLast?_ne_some (notMem_of_nodup (A := []) h.list.nodup).2
    rw [if_neg hne]
    exact ⟨⟨hlist, by simpa using h.tail, by simp [hlen], by simp [hbytes], halive⟩,
      ⟨rfl, rfl, rfl, rfl, rfl⟩⟩

theorem baseDeque_nil (h : Holds hdr s []) : s.baseDeque hdr = some (s, none) := by
  rw [SemanticPacketQueue.baseDeque, show s.head_ = none from h.list.head]

/-- The packet behind `q` is taken out. -/
theorem unlinkAfter (h : Holds hdr s (A ++ q :: p :: B)) :
    ∃ s', s.unlinkAfter hdr p q = some s' ∧ Holds hdr s' (A ++ q :: B) ∧ SameCounts s s' := by
  have h' : Holds hdr s ((A ++ [q]) ++ p :: B) := by simpa using h
  have hp := h'.nextOf
  have hnext : s.next_ p = B.head? := h'.list.next _ p B rfl
  have hlist := h.list.unlinkAfter
  rw [hnext] at hlist
  have hpB : p ∉ B := (notMem_of_nodup h'.list.nodup).2
  have hlen := h.len
  have hbytes := h.bytes
  simp only [List.length_append, List.length_cons, List.map_append, List.map_cons,
    List.sum_append, List.sum_cons, Nat.cast_add, Nat.cast_one] at hlen hbytes
  rw [SemanticPacketQueue.unlinkAfter]
  simp only [hp, h.access (p := p) (by simp), h.nextOf, Option.bind_eq_bind, Option.bind_some]
  refine ⟨_, rfl, ⟨hlist, ?_, ?_, ?_, ?_⟩, ⟨rfl, rfl, rfl, rfl, rfl⟩⟩
  · have htail := h.tail
    cases B with
    | nil =>
      rw [List.getLast?_append_of_ne_nil _ (by simp)] at htail
      simp [htail]
    | cons b B =>
      rw [List.getLast?_append_of_ne_nil _ (by simp), List.getLast?_cons_cons,
        List.getLast?_cons_cons] at htail
      have hne : s.tail_ ≠ some p := htail ▸ getLast?_ne_some hpB
      rw [if_neg hne, htail, List.getLast?_append_of_ne_nil _ (by simp), List.getLast?_cons_cons]
  · simp only [List.length_append, List.length_cons, Nat.cast_add, Nat.cast_one]
    omega
  · simp only [List.map_append, List.map_cons, List.sum_append, List.sum_cons]
    omega
  · intro x hx
    refine h.alive x ?_
    simp only [List.mem_append, List.mem_cons] at hx ⊢
    tauto

/-- `remove(pkt, prev)` of a packet and the one in front of it. -/
theorem removeAfter (h : Holds hdr s (A ++ p :: B)) :
    ∃ s', s.removeAfter hdr (some p) A.getLast? = some s' ∧ Holds hdr s' (A ++ B) ∧
      SameCounts s s' := by
  rcases List.eq_nil_or_concat A with rfl | ⟨A, q, rfl⟩
  · obtain ⟨s', hs', hh, hc⟩ := h.baseDeque
    have hhead : s.head_ = some p := h.list.head
    refine ⟨s', ?_, hh, hc⟩
    rw [SemanticPacketQueue.removeAfter, if_pos hhead, hs']
    rfl
  · rw [List.concat_eq_append] at h ⊢
    have hne : s.head_ ≠ some p := by
      rw [h.list.head, List.head?_append_of_ne_nil _ (by simp)]
      exact head?_ne_some (notMem_of_nodup h.list.nodup).1
    obtain ⟨s', hs', hh, hc⟩ := unlinkAfter (A := A) (q := q) (p := p) (B := B) (by simpa using h)
    refine ⟨s', ?_, by simpa using hh, hc⟩
    rw [SemanticPacketQueue.removeAfter, if_neg hne, List.getLast?_concat, Option.bind_some, hs']

/-- The search of `remove(target)` finds the packet in front of the target. -/
theorem findBefore {C D : List ℕ} {n : ℕ} (h : Holds hdr s (A ++ (C ++ p :: D)))
    (hn : C.length < n) :
    s.findBefore p n A.getLast? (C ++ p :: D).head? = some (A ++ C).getLast? := by
  induction C generalizing A n with
  | nil =>
    obtain ⟨n, rfl⟩ := Nat.exists_eq_succ_of_ne_zero (Nat.ne_of_gt (Nat.zero_lt_of_lt hn))
    simp [SemanticPacketQueue.findBefore]
  | cons c C ih =>
    obtain ⟨n, rfl⟩ := Nat.exists_eq_succ_of_ne_zero (Nat.ne_of_gt (Nat.zero_lt_of_lt hn))
    have hcp : c ≠ p := by
      rintro rfl
      have := (List.nodup_append.mp h.list.nodup).2.1
      simp at this
    have hnext : s.nextOf c = some (C ++ p :: D).head? := h.nextOf
    rw [List.cons_append, List.head?_cons, SemanticPacketQueue.findBefore, if_neg hcp, hnext,
      Option.bind_some]
    have := ih (A := A ++ [c]) (n := n) (by simpa using h) (by simpa using hn)
    simpa using this

/-- The search of `deque_acksfirst` finds the first acknowledgment. -/
theorem findAck {C D : List ℕ} {n : ℕ} (h : Holds hdr s (A ++ (C ++ p :: D)))
    (hC : ∀ c ∈ C, (hdr c).isAck = false) (hp : (hdr p).isAck = true) (hn : C.length < n) :
    s.findAck hdr n A.getLast? (C ++ p :: D).head? = some (some p, (A ++ C).getLast?) := by
  induction C generalizing A n with
  | nil =>
    obtain ⟨n, rfl⟩ := Nat.exists_eq_succ_of_ne_zero (Nat.ne_of_gt (Nat.zero_lt_of_lt hn))
    rw [List.nil_append, List.head?_cons, SemanticPacketQueue.findAck]
    simp [h.access (p := p) (by simp), hp]
  | cons c C ih =>
    obtain ⟨n, rfl⟩ := Nat.exists_eq_succ_of_ne_zero (Nat.ne_of_gt (Nat.zero_lt_of_lt hn))
    have hnext : s.nextOf c = some (C ++ p :: D).head? := h.nextOf
    have hacc : s.access hdr c = some (hdr c) := h.access (by simp)
    have hc : (hdr c).isAck = false := hC c List.mem_cons_self
    rw [List.cons_append, List.head?_cons, SemanticPacketQueue.findAck, hacc]
    simp only [Option.bind_eq_bind, Option.bind_some, hc, Bool.false_eq_true, if_false, hnext]
    have := ih (A := A ++ [c]) (n := n) (by simpa using h)
      (fun x hx => hC x (List.mem_cons_of_mem _ hx)) (by simpa using hn)
    simpa using this

end Holds

/-! ## Counting -/

/-- A packet that has left is taken off the counters. -/
theorem Exact.uncount (hh : Holds hdr s (A ++ B)) (hc : Counted hdr s (A ++ p :: B))
    (hp : p ∉ s.freed) : ∃ s', s.uncount hdr p = some s' ∧ Exact hdr s' (A ++ B) := by
  obtain ⟨hlist, htail, hlen, hbytes, halive⟩ := hh
  obtain ⟨ha, hd, hm, hu⟩ := hc
  have hacc : s.access hdr p = some (hdr p) := if_neg hp
  simp only [List.countP_append, List.countP_cons] at ha hd hm hu
  rw [SemanticPacketQueue.uncount, hacc, Option.map_some]
  refine ⟨_, rfl, ?_⟩
  cases hack : (hdr p).isAck <;> cases hfs : (hdr p).fs <;> simp [hack, hfs] at ha hd hm hu <;>
    refine ⟨⟨hlist, htail, hlen, hbytes, halive⟩, ⟨?_, ?_, ?_, ?_⟩⟩ <;>
    simp [ha, hd, hm, hu, List.countP_append] <;> omega

theorem count_freed : (s.count hdr p).freed = s.freed := by
  unfold count
  split_ifs <;> rfl

theorem Holds.count (h : Holds hdr s xs) : Holds hdr (s.count hdr p) xs := by
  obtain ⟨hlist, htail, hlen, hbytes, halive⟩ := h
  unfold SemanticPacketQueue.count
  split_ifs <;> exact ⟨hlist, htail, hlen, hbytes, halive⟩

/-- A new packet is put on the counters. -/
theorem Counted.count (h : Counted hdr s xs) : Counted hdr (s.count hdr p) (xs ++ [p]) := by
  obtain ⟨ha, hd, hm, hu⟩ := h
  unfold SemanticPacketQueue.count
  cases hack : (hdr p).isAck <;> cases hfs : (hdr p).fs <;>
    refine ⟨?_, ?_, ?_, ?_⟩ <;> simp [ha, hd, hm, hu, hack, hfs, List.countP_append]

theorem sameCounts_baseEnque : SameCounts s (s.baseEnque hdr p) := by
  unfold SemanticPacketQueue.baseEnque
  cases s.tail_ <;> exact ⟨rfl, rfl, rfl, rfl, rfl⟩

/-! ## The operations -/

/-- `filterAcks` goes through the queue and changes nothing if no other packet is to be
purged. -/
theorem Holds.filterLoop {o : Options} {m n : ℕ} (h : Holds hdr s (A ++ B))
    (hpkt : (hdr p).isAck = true ∧ p ∉ s.freed)
    (hB : ∀ x ∈ B, older o.replace_head_ (hdr x) (hdr p) = true → x = p) (hn : B.length < n)
    (pp : Option ℕ) : s.filterLoop hdr o m p n false pp B.head? = some s := by
  induction B generalizing A n pp with
  | nil =>
    obtain ⟨n, rfl⟩ := Nat.exists_eq_succ_of_ne_zero (Nat.ne_of_gt (Nat.zero_lt_of_lt hn))
    rw [List.head?_nil, SemanticPacketQueue.filterLoop]
  | cons b B ih =>
    obtain ⟨n, rfl⟩ := Nat.exists_eq_succ_of_ne_zero (Nat.ne_of_gt (Nat.zero_lt_of_lt hn))
    have hnext : s.nextOf b = some B.head? := h.nextOf
    have hacc : s.access hdr b = some (hdr b) := h.access (by simp)
    have hacc' : s.access hdr p = some (hdr p) := if_neg hpkt.2
    have hrest := ih (A := A ++ [b]) (n := n) (by simpa using h)
      (fun x hx => hB x (List.mem_cons_of_mem _ hx)) (by simpa using hn) (some b)
    rw [List.head?_cons, SemanticPacketQueue.filterLoop, hacc, hacc']
    simp only [Option.bind_eq_bind, Option.bind_some, hnext]
    by_cases ho : older o.replace_head_ (hdr b) (hdr p) = true
    · -- only the new packet itself passes the test, and it stays
      have hbp : b = p := hB b List.mem_cons_self ho
      subst hbp
      simp [ho, hrest]
    · rw [if_neg ho, hrest]

theorem enqueNow_exact {o : Options} (h : Exact hdr s xs) (hp : p ∉ xs) (hf : p ∉ s.freed)
    (hq : o.filteracks_ = true → (hdr p).isAck = true →
      ∀ x ∈ xs, older o.replace_head_ (hdr x) (hdr p) = false) :
    ∃ s', (∀ n > xs.length + 1, s.enqueNow hdr o n p = some s') ∧ Exact hdr s' (xs ++ [p]) := by
  have hf' : p ∉ (s.count hdr p).freed := by rwa [count_freed]
  have hh : Holds hdr ((s.count hdr p).baseEnque hdr p) (xs ++ [p]) :=
    h.toHolds.count.baseEnque hp hf'
  have hc : Counted hdr ((s.count hdr p).baseEnque hdr p) (xs ++ [p]) :=
    h.toCounted.count.congr sameCounts_baseEnque
  refine ⟨_, fun n hn => ?_, ⟨hh, hc⟩⟩
  rw [SemanticPacketQueue.enqueNow]
  by_cases ho : o.filteracks_ = true ∧ (hdr p).isAck = true
  · rw [if_pos ho, SemanticPacketQueue.filterAcks, hh.list.head]
    refine Holds.filterLoop (A := []) hh ⟨ho.2, hh.alive p (by simp)⟩ ?_ (by simpa using hn) _
    intro x hx hold
    rcases List.mem_append.mp hx with hx | hx
    · exact Bool.noConfusion (hold.symm.trans (hq ho.1 ho.2 x hx))
    · exact List.mem_singleton.mp hx
  · rw [if_neg ho]

/-- The first acknowledgment of a queue, with what is in front of it. -/
theorem exists_first_ack (h : ∃ x ∈ xs, (hdr x).isAck = true) :
    ∃ C q D, xs = C ++ q :: D ∧ (∀ c ∈ C, (hdr c).isAck = false) ∧ (hdr q).isAck = true := by
  induction xs with
  | nil => simp at h
  | cons x xs ih =>
    cases hx : (hdr x).isAck with
    | true => exact ⟨[], x, xs, rfl, by simp, hx⟩
    | false =>
      obtain ⟨y, hy, hya⟩ := h
      have hne : y ≠ x := by
        rintro rfl
        exact Bool.noConfusion (hx.symm.trans hya)
      obtain ⟨C, q, D, rfl, hC, hq⟩ := ih ⟨y, (List.mem_cons.mp hy).resolve_left hne, hya⟩
      refine ⟨x :: C, q, D, rfl, ?_, hq⟩
      rintro c hc
      rcases List.mem_cons.mp hc with rfl | hc
      · exact hx
      · exact hC c hc

/-- `deque_acksfirst` takes one packet, if there is one. -/
theorem deque_acksfirst_holds (h : Exact hdr s xs) :
    (xs = [] ∧ ∀ n, s.deque_acksfirst hdr n = some (s, none)) ∨
    ∃ A p B s', xs = A ++ p :: B ∧
      (∀ n > xs.length, s.deque_acksfirst hdr n = some (s', some p)) ∧
      Holds hdr s' (A ++ B) ∧ SameCounts s s' := by
  by_cases hack : s.ack_count > 0
  · have hpos : 0 < xs.countP fun p => (hdr p).isAck := by
      have := h.acks
      omega
    obtain ⟨C, q, D, rfl, hC, hq⟩ := exists_first_ack (List.countP_pos_iff.mp hpos)
    obtain ⟨s', hs', hh, hc⟩ := h.toHolds.removeAfter
    refine Or.inr ⟨C, q, D, s', rfl, fun n hn => ?_, hh, hc⟩
    have hfind := Holds.findAck (A := []) (n := n) h.toHolds hC hq (by simp at hn; omega)
    rw [deque_acksfirst, if_pos hack, h.list.head]
    simp only [List.getLast?_nil, List.nil_append] at hfind
    simp only [hfind, hs', Option.bind_eq_bind, Option.bind_some]
  · simp only [deque_acksfirst, if_neg hack]
    cases xs with
    | nil => exact Or.inl ⟨rfl, fun _ => h.toHolds.baseDeque_nil⟩
    | cons p xs =>
      obtain ⟨s', hs', hh, hc⟩ := h.toHolds.baseDeque
      exact Or.inr ⟨[], p, xs, s', rfl, fun _ _ => hs', hh, hc⟩

/-- `deque` takes one packet, if there is one. -/
theorem deque_exact (o : Options) (h : Exact hdr s xs) :
    (xs = [] ∧ ∀ n, s.deque hdr o n = some (s, none)) ∨
    ∃ A p B s', xs = A ++ p :: B ∧ (∀ n > xs.length, s.deque hdr o n = some (s', some p)) ∧
      Exact hdr s' (A ++ B) := by
  have hbase : (xs = [] ∧ ∀ n, s.takeOut hdr o n = some (s, none)) ∨
      ∃ A p B s', xs = A ++ p :: B ∧ (∀ n > xs.length, s.takeOut hdr o n = some (s', some p)) ∧
        Holds hdr s' (A ++ B) ∧ SameCounts s s' := by
    by_cases ho : o.acksfirst_ = true
    · simp only [takeOut, if_pos ho]
      exact deque_acksfirst_holds h
    · simp only [takeOut, if_neg ho]
      cases xs with
      | nil => exact Or.inl ⟨rfl, fun _ => h.toHolds.baseDeque_nil⟩
      | cons p xs =>
        obtain ⟨s', hs', hh, hc⟩ := h.toHolds.baseDeque
        exact Or.inr ⟨[], p, xs, s', rfl, fun _ _ => hs', hh, hc⟩
  rcases hbase with ⟨rfl, hs'⟩ | ⟨A, p, B, s', rfl, hs', hh, hc⟩
  · refine Or.inl ⟨rfl, fun n => ?_⟩
    rw [SemanticPacketQueue.deque]
    simp only [hs', Option.bind_eq_bind, Option.bind_some]
  · have hp : p ∉ s'.freed := hc.freed ▸ h.alive p (by simp)
    obtain ⟨s'', hs'', he⟩ := Exact.uncount hh (h.toCounted.congr hc) hp
    refine Or.inr ⟨A, p, B, s'', rfl, fun n hn => ?_, he⟩
    rw [SemanticPacketQueue.deque]
    simp only [hs' n hn, hs'', Option.bind_eq_bind, Option.bind_some, Option.map_some]

/-- `remove` takes out the packet, if it is not the head. -/
theorem remove_exact (o : Options) (h : Exact hdr s xs) (hp : p ∈ xs)
    (hhead : s.head_ ≠ some p) :
    ∃ s', (∀ n > xs.length, s.remove hdr o n p = some s') ∧ Exact hdr s' (xs.erase p) := by
  obtain ⟨A, B, rfl⟩ := List.append_of_mem hp
  have hpA : p ∉ A := (notMem_of_nodup h.list.nodup).1
  rcases List.eq_nil_or_concat A with rfl | ⟨A, q, rfl⟩
  · exact absurd h.list.head hhead
  · rw [List.concat_eq_append] at h hpA ⊢
    obtain ⟨s', hs', hh, hc⟩ := Holds.unlinkAfter (A := A) (q := q) (p := p) (B := B)
      (by simpa using h.toHolds)
    have hfreed : p ∉ s'.freed := hc.freed ▸ h.alive p (by simp)
    obtain ⟨s'', hs'', he⟩ := Exact.uncount (A := A ++ [q]) (B := B) (by simpa using hh)
      (h.toCounted.congr hc) hfreed
    refine ⟨s'', fun n hn => ?_, ?_⟩
    · have hfind := Holds.findBefore (A := []) (n := n) h.toHolds (by simp at hn ⊢; omega)
      rw [List.getLast?_nil, List.nil_append, List.getLast?_concat] at hfind
      rw [SemanticPacketQueue.remove, baseRemove, h.list.head]
      simp only [hfind, hs', hs'', Option.bind_eq_bind, Option.bind_some]
    · rw [List.erase_append_right _ hpA, List.erase_cons_head]
      exact he

/-! ## Runs -/

variable (hdr)

/-- The operations of the queue; the options may have changed in between. -/
inductive Op where
  | enque (o : Options) (through : Bool) (p : ℕ)
  | deque (o : Options)
  | remove (o : Options) (p : ℕ)

/-- One operation, with `n` rounds for each loop. -/
def step (n : ℕ) (s : SemanticPacketQueue) : Op → Option SemanticPacketQueue
  | .enque o through p => s.enque hdr o through n p
  | .deque o => (s.deque hdr o n).map Prod.fst
  | .remove o p => s.remove hdr o n p

/-- What the callers see to: a packet that arrives is not in the queue and not freed, a
packet to be removed is in the queue. -/
def Op.Proper (s : SemanticPacketQueue) : Op → Prop
  | .enque _ _ p => ¬ Reachable s.next_ s.head_ p ∧ p ∉ s.freed
  | .deque _ => True
  | .remove _ p => Reachable s.next_ s.head_ p

/-- No queued acknowledgment is to be purged for the packet that arrives, and the packet to be
removed is not the head. -/
def Op.Harmless (s : SemanticPacketQueue) : Op → Prop
  | .enque o through p => o.filteracks_ = true → (hdr p).isAck = true →
      (o.reconsAcks_ = true → through = true) →
      ∀ x, Reachable s.next_ s.head_ x → older o.replace_head_ (hdr x) (hdr p) = false
  | .deque _ => True
  | .remove _ p => s.head_ ≠ some p

/-- The operation returns with the state `s'`, when its loops have enough rounds. -/
def Returns (s : SemanticPacketQueue) (op : Op) (s' : SemanticPacketQueue) : Prop :=
  ∃ N, ∀ n ≥ N, step hdr n s op = some s'

/-- One step of a run of harmless operations. -/
def Step (s s' : SemanticPacketQueue) : Prop :=
  ∃ op, Op.Proper s op ∧ Op.Harmless hdr s op ∧ Returns hdr s op s'

variable {hdr}

theorem Returns.unique {op : Op} {s₁ s₂ : SemanticPacketQueue} (h₁ : Returns hdr s op s₁)
    (h₂ : Returns hdr s op s₂) : s₁ = s₂ := by
  obtain ⟨N₁, h₁⟩ := h₁
  obtain ⟨N₂, h₂⟩ := h₂
  have hstep := h₁ (max N₁ N₂) (le_max_left _ _)
  rw [h₂ (max N₁ N₂) (le_max_right _ _)] at hstep
  exact (Option.some.inj hstep).symm

/-- One harmless operation returns, and leaves a queue with the right counters; `remove p` has
taken out `p` and nothing else. -/
theorem returns_exact {op : Op} (h : Exact hdr s xs) (hp : op.Proper s)
    (hs : op.Harmless hdr s) :
    ∃ s' ys, Returns hdr s op s' ∧ Exact hdr s' ys ∧ ∀ o p, op = .remove o p → ys = xs.erase p := by
  cases op with
  | enque o through p =>
    have hpx : p ∉ xs := fun hx => hp.1 (h.list.reachable_iff.mpr hx)
    by_cases ht : o.reconsAcks_ = true ∧ (hdr p).isAck = true ∧ ¬ through = true
    · refine ⟨{ s with freed := p :: s.freed }, xs, ⟨0, fun n _ => ?_⟩, ?_, by simp⟩
      · rw [step, SemanticPacketQueue.enque, if_pos ht]
      · refine ⟨⟨h.list, h.tail, h.len, h.bytes, ?_⟩, ⟨h.acks, h.data, h.marked, h.unmarked⟩⟩
        intro x hx hxf
        rcases List.mem_cons.mp hxf with rfl | hxf
        · exact hpx hx
        · exact h.alive x hx hxf
    · have hq : o.filteracks_ = true → (hdr p).isAck = true →
          ∀ x ∈ xs, older o.replace_head_ (hdr x) (hdr p) = false := by
        intro hf ha x hx
        refine hs hf ha (fun hr => ?_) x (h.list.reachable_iff.mpr hx)
        by_contra hthrough
        exact ht ⟨hr, ha, hthrough⟩
      obtain ⟨s', hs', he⟩ := enqueNow_exact h hpx hp.2 hq
      refine ⟨s', xs ++ [p], ⟨xs.length + 2, fun n hn => ?_⟩, he, by simp⟩
      rw [step, SemanticPacketQueue.enque, if_neg ht, hs' n hn]
  | deque o =>
    rcases deque_exact o h with ⟨rfl, hs'⟩ | ⟨A, p, B, s', -, hs', he⟩
    · refine ⟨s, [], ⟨0, fun n _ => ?_⟩, h, by simp⟩
      rw [step, hs' n, Option.map_some]
    · refine ⟨s', A ++ B, ⟨xs.length + 1, fun n hn => ?_⟩, he, by simp⟩
      rw [step, hs' n hn, Option.map_some]
  | remove o p =>
    obtain ⟨s', hs', he⟩ := remove_exact o h (h.list.reachable_iff.mp hp) hs
    refine ⟨s', xs.erase p, ⟨xs.length + 1, fun n hn => hs' n hn⟩, he, ?_⟩
    rintro o' p' heq
    injection heq with _ hpp
    rw [hpp]

/-- Every state of a run of harmless operations has the right counters. -/
theorem reachable_exact (h : Relation.ReflTransGen (Step hdr) empty s) : ∃ xs, Exact hdr s xs := by
  induction h with
  | refl => exact ⟨[], Exact.empty⟩
  | tail _ hstep ih =>
    obtain ⟨xs, he⟩ := ih
    obtain ⟨op, hp, hs, hret⟩ := hstep
    obtain ⟨s', ys, hret', he', -⟩ := returns_exact he hp hs
    exact ⟨ys, hret.unique hret' ▸ he'⟩

/-- **The counters are exact.**  In every run of harmless operations the list and the counters
are right after every operation, the next harmless operation returns, and `remove p` takes
out `p` and no other packet. -/
theorem counters_exact (h : Relation.ReflTransGen (Step hdr) empty s) :
    ∃ xs, Exact hdr s xs ∧ ∀ op : Op, op.Proper s → op.Harmless hdr s →
      ∃ s' ys, Returns hdr s op s' ∧ Exact hdr s' ys ∧
        ∀ o p, op = .remove o p → ys = xs.erase p := by
  obtain ⟨xs, he⟩ := reachable_exact h
  exact ⟨xs, he, fun op hp hs => returns_exact he hp hs⟩

/-- A data packet and the acknowledgments of one flow, with the sequence numbers 1, 2, … -/
def oneFlow (p : ℕ) : Header := ⟨1, 1, 2, 2, p != 0, p, false, 40⟩

/-- Acknowledgments are filtered. -/
def filtering : Options := ⟨false, true, false, false⟩

/-- The queue with one acknowledgment. -/
def oneAck : SemanticPacketQueue := (empty.count oneFlow 1).baseEnque oneFlow 1

theorem returns_oneAck : Returns oneFlow empty (.enque filtering false 1) oneAck := by
  refine ⟨2, fun n hn => ?_⟩
  obtain ⟨k, rfl⟩ := Nat.exists_eq_add_of_le' hn
  rfl

theorem proper_oneAck : (Op.enque filtering false 1).Proper empty := by
  have hlist : IsSList empty.next_ empty.head_ [] := IsSList.nil
  refine ⟨?_, List.not_mem_nil⟩
  rw [hlist.reachable_iff]
  exact List.not_mem_nil

theorem harmless_oneAck : (Op.enque filtering false 1).Harmless oneFlow empty :=
  fun _ _ _ _ hx => absurd (IsSList.nil.reachable_iff.mp hx) List.not_mem_nil

theorem counters_exact_oneAck : ∃ xs, Exact oneFlow oneAck xs ∧
    ∀ op : Op, op.Proper oneAck → op.Harmless oneFlow oneAck →
      ∃ s' ys, Returns oneFlow oneAck op s' ∧ Exact oneFlow s' ys ∧
        ∀ o p, op = .remove o p → ys = xs.erase p :=
  counters_exact (Relation.ReflTransGen.single
    ⟨.enque filtering false 1, proper_oneAck, harmless_oneAck, returns_oneAck⟩)

/-- **A purged acknowledgment stays in `unmarked_count_`.**  Of two acknowledgments the older one
is purged; one packet is left, and two are counted. -/
theorem purged_still_counted : ∃ s₁ s₂ : SemanticPacketQueue,
    (Op.enque filtering false 1).Proper empty ∧
    Returns oneFlow empty (.enque filtering false 1) s₁ ∧
    (Op.enque filtering false 2).Proper s₁ ∧
    Returns oneFlow s₁ (.enque filtering false 2) s₂ ∧ ¬ ∃ xs, Exact oneFlow s₂ xs := by
  have hlist : IsSList oneAck.next_ oneAck.head_ [1] := IsSList.nil.cons List.not_mem_nil
  refine ⟨oneAck, (step oneFlow 3 oneAck (.enque filtering false 2)).getD empty, proper_oneAck,
    returns_oneAck, ⟨?_, ?_⟩, ⟨3, fun n hn => ?_⟩, ?_⟩
  · rw [hlist.reachable_iff]
    decide
  · decide
  · obtain ⟨k, rfl⟩ := Nat.exists_eq_add_of_le' hn
    rfl
  · rintro ⟨xs, h⟩
    have hlen : (1 : ℤ) = xs.length := h.len
    have hunmarked : (2 : ℤ) = xs.countP fun p => !(oneFlow p).fs := h.unmarked
    have := List.countP_le_length (p := fun p => !(oneFlow p).fs) (l := xs)
    omega

end SemanticPacketQueue

end Ns2.Queue
