import Mathlib

/-!
# Cumulative acknowledgments that echo a mark

A receiver takes a stream in segments, each with a mark, and acknowledges everything
below a number; the acknowledgment has a mark of its own.  Acknowledgments may be
delayed.  The numbers are any linear order, the marks any type.

* `Receiver` — what was received, and the acknowledgments sent.
* `Faithful` — the first acknowledgment of each number has the mark of its segment.
* `ack`, `ackTimes`, `accept`, `turn`, `skip` — the operations.
* `Live` — the invariant: what is not acknowledged yet has the mark that is sent next.
* `Settled` — everything received is acknowledged.
-/

namespace Echo

/-- A stretch of the stream, with the mark it came with. -/
structure Segment (ι α : Type*) where
  /-- First number. -/
  start : ι
  /-- First number after it. -/
  stop : ι
  /-- Mark. -/
  mark : α
  deriving DecidableEq

/-- An acknowledgment of everything below a number. -/
structure Ack (ι α : Type*) where
  /-- What is acknowledged lies below. -/
  number : ι
  /-- Mark. -/
  mark : α
  deriving DecidableEq

/-- A receiver. -/
structure Receiver (ι α : Type*) where
  /-- The number expected next. -/
  next : ι
  /-- The last number acknowledged. -/
  last : ι
  /-- The mark of the acknowledgments. -/
  mark : α
  /-- History: the segments received. -/
  received : List (Segment ι α)
  /-- History: the acknowledgments sent. -/
  acks : List (Ack ι α)

variable {ι α : Type*}

namespace Receiver

/-- Send an acknowledgment of `n` with the mark `m`. -/
def ackAt (s : Receiver ι α) (n : ι) (m : α) : Receiver ι α :=
  { s with last := n, acks := s.acks ++ [⟨n, m⟩] }

/-- Acknowledge what was received. -/
def ack (s : Receiver ι α) : Receiver ι α := s.ackAt s.next s.mark

/-- Acknowledge `k` times. -/
def ackTimes (s : Receiver ι α) : ℕ → Receiver ι α
  | 0 => s
  | k + 1 => s.ack.ackTimes k

/-- Receive the numbers up to `stop`, with the mark `m`. -/
def accept (s : Receiver ι α) (stop : ι) (m : α) : Receiver ι α :=
  { s with next := stop, received := s.received ++ [⟨s.next, stop, m⟩] }

/-- Change the mark of the acknowledgments. -/
def turn (s : Receiver ι α) (m : α) : Receiver ι α := { s with mark := m }

/-- Expect `n` next, though nothing was received. -/
def skip (s : Receiver ι α) (n : ι) : Receiver ι α := { s with next := n }

@[simp] theorem turn_turn (s : Receiver ι α) (m n : α) : (s.turn m).turn n = s.turn n := rfl

@[simp] theorem turn_mark (s : Receiver ι α) : s.turn s.mark = s := rfl

/-! ## Many acknowledgments -/

@[simp] theorem ackTimes_next (s : Receiver ι α) (k : ℕ) : (s.ackTimes k).next = s.next := by
  induction k generalizing s with
  | zero => rfl
  | succ k ih => exact ih s.ack

@[simp] theorem ackTimes_mark (s : Receiver ι α) (k : ℕ) : (s.ackTimes k).mark = s.mark := by
  induction k generalizing s with
  | zero => rfl
  | succ k ih => exact ih s.ack

@[simp] theorem ackTimes_received (s : Receiver ι α) (k : ℕ) :
    (s.ackTimes k).received = s.received := by
  induction k generalizing s with
  | zero => rfl
  | succ k ih => exact ih s.ack

theorem ackTimes_acks (s : Receiver ι α) (k : ℕ) :
    (s.ackTimes k).acks = s.acks ++ List.replicate k ⟨s.next, s.mark⟩ := by
  induction k generalizing s with
  | zero => simp [ackTimes]
  | succ k ih =>
    rw [ackTimes, ih s.ack, List.replicate_succ]
    simp [ack, ackAt]

theorem ackTimes_add (s : Receiver ι α) (k l : ℕ) :
    (s.ackTimes k).ackTimes l = s.ackTimes (k + l) := by
  induction k generalizing s with
  | zero => rw [ackTimes, Nat.zero_add]
  | succ k ih => rw [ackTimes, ih, Nat.succ_add, ackTimes]

/-- After an acknowledgment nothing is left to be acknowledged. -/
theorem ackTimes_succ_last (s : Receiver ι α) (k : ℕ) : (s.ackTimes (k + 1)).last = s.next := by
  induction k generalizing s with
  | zero => rfl
  | succ k ih => exact ih s.ack

end Receiver

/-! ## The first acknowledgment -/

variable [LinearOrder ι]

/-- The first acknowledgment that covers `x`. -/
def firstOver (x : ι) (acks : List (Ack ι α)) : Option (Ack ι α) :=
  acks.find? fun a => x < a.number

theorem firstOver_append (x : ι) (l₁ l₂ : List (Ack ι α)) :
    firstOver x (l₁ ++ l₂) = (firstOver x l₁).or (firstOver x l₂) := List.find?_append

/-- A later acknowledgment does not change the first one. -/
theorem firstOver_append_of_some {x : ι} {l₁ : List (Ack ι α)} {a : Ack ι α}
    (h : firstOver x l₁ = some a) (l₂ : List (Ack ι α)) : firstOver x (l₁ ++ l₂) = some a := by
  rw [firstOver_append, h, Option.some_or]

theorem firstOver_eq_none {x : ι} {l : List (Ack ι α)} :
    firstOver x l = none ↔ ∀ a ∈ l, a.number ≤ x := by simp [firstOver]

/-- **The echo.**  The first acknowledgment of each number received has the mark of the
segment that carried it. -/
def Faithful (received : List (Segment ι α)) (acks : List (Ack ι α)) : Prop :=
  ∀ d ∈ received, ∀ x, d.start ≤ x → x < d.stop → ∀ a ∈ firstOver x acks, a.mark = d.mark

namespace Receiver

/-! ## The invariant -/

/-- What is not acknowledged yet has the mark that is sent next. -/
structure Live (s : Receiver ι α) : Prop where
  /-- What is acknowledged was acknowledged with its own mark. -/
  faithful : Faithful s.received s.acks
  /-- What is not acknowledged lies between `last` and `next`, and has the mark that is
  sent next. -/
  pending : ∀ d ∈ s.received, ∀ x, d.start ≤ x → x < d.stop → firstOver x s.acks = none →
    s.last ≤ x ∧ x < s.next ∧ d.mark = s.mark
  /-- Nothing was acknowledged that was not received. -/
  acks_le : ∀ a ∈ s.acks, a.number ≤ s.next
  /-- The last number acknowledged is at most the one expected next. -/
  last_le : s.last ≤ s.next

/-- Everything received is acknowledged, and with its own mark. -/
structure Settled (s : Receiver ι α) : Prop where
  /-- What is acknowledged was acknowledged with its own mark. -/
  faithful : Faithful s.received s.acks
  /-- Everything is acknowledged. -/
  acked : ∀ d ∈ s.received, ∀ x, d.start ≤ x → x < d.stop → firstOver x s.acks ≠ none

variable {s : Receiver ι α}

/-- A receiver that has received nothing. -/
theorem Live.of_received_nil (hr : s.received = []) (ha : ∀ a ∈ s.acks, a.number ≤ s.next)
    (hl : s.last ≤ s.next) : s.Live where
  faithful := by simp [Faithful, hr]
  pending := by simp [hr]
  acks_le := ha
  last_le := hl

/-- Before anything is received, any number that is not too large may be acknowledged. -/
theorem Live.ackAt (h : s.Live) (hr : s.received = []) {n : ι} (hn : n ≤ s.next) (m : α) :
    (s.ackAt n m).Live := by
  refine .of_received_nil hr ?_ hn
  intro a ha
  rcases List.mem_append.mp ha with ha | ha
  · exact h.acks_le a ha
  · rw [List.mem_singleton.mp ha]
    exact hn

/-- An acknowledgment keeps the invariant. -/
theorem Live.ack (h : s.Live) : s.ack.Live where
  faithful := by
    intro d hd x hx hx' a ha
    cases hf : firstOver x s.acks with
    | some b =>
      have hb : firstOver x s.ack.acks = some b := firstOver_append_of_some hf _
      rw [hb] at ha
      obtain rfl := Option.some.inj ha
      exact h.faithful d hd x hx hx' b hf
    | none =>
      -- the number was pending: it is acknowledged now
      obtain ⟨-, hlt, hmark⟩ := h.pending d hd x hx hx' hf
      have hb : firstOver x s.ack.acks = some ⟨s.next, s.mark⟩ := by
        rw [Receiver.ack, Receiver.ackAt, firstOver_append, hf]
        simp [firstOver, hlt]
      rw [hb] at ha
      obtain rfl := Option.some.inj ha
      exact hmark.symm
  pending := by
    intro d hd x hx hx' hf
    have hall := firstOver_eq_none.mp hf
    have hlast : s.next ≤ x := hall ⟨s.next, s.mark⟩ (by simp [Receiver.ack, Receiver.ackAt])
    have hold : firstOver x s.acks = none :=
      firstOver_eq_none.mpr fun a ha => hall a (List.mem_append_left _ ha)
    exact absurd (h.pending d hd x hx hx' hold).2.1 (not_lt.mpr hlast)
  acks_le := by
    intro a ha
    rcases List.mem_append.mp ha with ha | ha
    · exact h.acks_le a ha
    · rw [List.mem_singleton.mp ha]
      exact le_rfl
  last_le := le_rfl

theorem Live.ackTimes (h : s.Live) (k : ℕ) : (s.ackTimes k).Live := by
  induction k generalizing s with
  | zero => exact h
  | succ k ih => exact ih h.ack

/-- A segment with the mark that is sent next keeps the invariant. -/
theorem Live.accept (h : s.Live) {stop : ι} (hs : s.next ≤ stop) {m : α}
    (hm : s.next < stop → m = s.mark) : (s.accept stop m).Live where
  faithful := by
    intro d hd x hx hx' a ha
    rcases List.mem_append.mp hd with hd | hd
    · exact h.faithful d hd x hx hx' a ha
    · -- what is new is not acknowledged yet
      obtain rfl := List.mem_singleton.mp hd
      have hnone : firstOver x s.acks = none :=
        firstOver_eq_none.mpr fun b hb => (h.acks_le b hb).trans hx
      have ha' : firstOver x s.acks = some a := ha
      rw [hnone] at ha'
      cases ha'
  pending := by
    intro d hd x hx hx' hf
    rcases List.mem_append.mp hd with hd | hd
    · obtain ⟨hl, hlt, hmark⟩ := h.pending d hd x hx hx' hf
      exact ⟨hl, hlt.trans_le hs, hmark⟩
    · obtain rfl := List.mem_singleton.mp hd
      exact ⟨h.last_le.trans hx, hx', hm (lt_of_le_of_lt hx hx')⟩
  acks_le a ha := (h.acks_le a ha).trans hs
  last_le := h.last_le.trans hs

theorem Live.skip (h : s.Live) {n : ι} (hn : s.next ≤ n) : (s.skip n).Live where
  faithful := h.faithful
  pending := by
    intro d hd x hx hx' hf
    obtain ⟨hle, hlt, hmark⟩ := h.pending d hd x hx hx' hf
    exact ⟨hle, hlt.trans_le hn, hmark⟩
  acks_le a ha := (h.acks_le a ha).trans hn
  last_le := h.last_le.trans hn

/-- Nothing is left to be acknowledged. -/
theorem Live.settled (h : s.Live) (hl : s.last = s.next) : s.Settled where
  faithful := h.faithful
  acked := by
    intro d hd x hx hx' hf
    obtain ⟨hle, hlt, -⟩ := h.pending d hd x hx hx' hf
    exact absurd hlt (not_lt.mpr (hl ▸ hle))

/-- The mark may change once everything is acknowledged. -/
theorem Live.turn_of_settled (h : s.Live) (hs : s.Settled) (m : α) : (s.turn m).Live where
  faithful := h.faithful
  pending d hd x hx hx' hf := absurd hf (hs.acked d hd x hx hx')
  acks_le := h.acks_le
  last_le := h.last_le

theorem Live.turn (h : s.Live) (hl : s.last = s.next) (m : α) : (s.turn m).Live :=
  h.turn_of_settled (h.settled hl) m

/-- A receiver that has received nothing. -/
theorem Settled.of_received_nil (hr : s.received = []) : s.Settled :=
  ⟨by simp [Faithful, hr], by simp [hr]⟩

/-- Once everything is acknowledged, further acknowledgments change nothing. -/
theorem Settled.of_append {t : Receiver ι α} (h : s.Settled) (hr : t.received = s.received)
    {l : List (Ack ι α)} (ha : t.acks = s.acks ++ l) : t.Settled where
  faithful := by
    intro d hd x hx hx' a hf
    rw [hr] at hd
    obtain ⟨b, hb⟩ := Option.ne_none_iff_exists'.mp (h.acked d hd x hx hx')
    rw [ha, firstOver_append_of_some hb] at hf
    obtain rfl := Option.some.inj hf
    exact h.faithful d hd x hx hx' b hb
  acked := by
    intro d hd x hx hx'
    rw [hr] at hd
    obtain ⟨b, hb⟩ := Option.ne_none_iff_exists'.mp (h.acked d hd x hx hx')
    rw [ha, firstOver_append_of_some hb]
    exact Option.some_ne_none b

theorem Settled.ackTimes (h : s.Settled) (k : ℕ) : (s.ackTimes k).Settled :=
  h.of_append (ackTimes_received s k) (ackTimes_acks s k)

theorem Settled.turn (h : s.Settled) (m : α) : (s.turn m).Settled :=
  h.of_append rfl (List.append_nil _).symm

end Receiver

end Echo
