import Mathlib

/-!
# Mappings between the data stream and a subflow

A mapping says which bytes of the data sequence space some bytes of a subflow carry.
The sender of a subflow keeps the mappings it has made in `mptcp_dsnmap_`, the receiver
those it was told in `mptcp_recv_dsnmap_`.

* `DsnMapping` — `struct dsn_mapping`, with the bytes it is about and the data sequence
  number it gives to each of them.
* `attach` — the loop of `sendpacket` that looks for the mapping to put on a packet.
* `scan` — the loop of `mptcp_recv_getack`, which erases what it has passed.
* `removeFirst` — the loop of `mptcp_remove_mapping`.
-/

namespace Ns2.Mptcp

/-- `struct dsn_mapping`. -/
structure DsnMapping where
  /-- First sequence number on the subflow. -/
  sseqnum : ℤ
  /-- First sequence number in the data stream. -/
  dseqnum : ℤ
  /-- Number of bytes. -/
  length : ℤ
  /-- Sequence number of the packet the mapping was sent on; zero before that. -/
  sentseq : ℤ
  deriving DecidableEq, Repr

namespace DsnMapping

/-- The constructor. -/
def new (dseq curseq len : ℤ) : DsnMapping := ⟨curseq, dseq, len, 0⟩

/-- `p->sseqnum + p->length`. -/
def stop (p : DsnMapping) : ℤ := p.sseqnum + p.length

/-- The bytes of the subflow the mapping is about. -/
def bytes (p : DsnMapping) : Set ℤ := Set.Ico p.sseqnum p.stop

/-- The data sequence number the mapping gives to a byte of the subflow. -/
def dsn (p : DsnMapping) (s : ℤ) : ℤ := p.dseqnum + (s - p.sseqnum)

/-- The bytes of the data stream the mapping is about. -/
def dataBytes (p : DsnMapping) : Set ℤ := Set.Ico p.dseqnum (p.dseqnum + p.length)

/-- The same mapping, whether it has been sent or not. -/
def Same (p q : DsnMapping) : Prop :=
  p.sseqnum = q.sseqnum ∧ p.dseqnum = q.dseqnum ∧ p.length = q.length

instance (p q : DsnMapping) : Decidable (p.Same q) := inferInstanceAs (Decidable (_ ∧ _ ∧ _))

/-- The test of `sendpacket`: the mapping is for this packet. -/
def Starts (p : DsnMapping) (seqno : ℤ) : Prop := p.sseqnum ≤ seqno ∧ seqno < p.stop

/-- The test of `mptcp_recv_getack`. -/
def Meets (p : DsnMapping) (ackno : ℤ) : Prop := p.sseqnum ≤ ackno ∧ ackno ≤ p.stop

instance (p : DsnMapping) (n : ℤ) : Decidable (p.Starts n) := inferInstanceAs (Decidable (_ ∧ _))

instance (p : DsnMapping) (n : ℤ) : Decidable (p.Meets n) := inferInstanceAs (Decidable (_ ∧ _))

variable {p q : DsnMapping} {n : ℤ}

@[simp] theorem new_sseqnum (d c l : ℤ) : (new d c l).sseqnum = c := rfl

@[simp] theorem new_stop (d c l : ℤ) : (new d c l).stop = c + l := rfl

@[simp] theorem new_sentseq (d c l : ℤ) : (new d c l).sentseq = 0 := rfl

theorem mem_bytes : n ∈ p.bytes ↔ p.sseqnum ≤ n ∧ n < p.stop := Iff.rfl

theorem Same.symm (h : p.Same q) : q.Same p := ⟨h.1.symm, h.2.1.symm, h.2.2.symm⟩

theorem Same.trans {r : DsnMapping} (h : p.Same q) (h' : q.Same r) : p.Same r :=
  ⟨h.1.trans h'.1, h.2.1.trans h'.2.1, h.2.2.trans h'.2.2⟩

theorem Same.stop (h : p.Same q) : p.stop = q.stop := by
  unfold DsnMapping.stop
  rw [h.1, h.2.2]

theorem Same.bytes (h : p.Same q) : p.bytes = q.bytes := by
  unfold DsnMapping.bytes
  rw [h.stop, h.1]

theorem Same.dsn (h : p.Same q) (s : ℤ) : p.dsn s = q.dsn s := by
  unfold DsnMapping.dsn
  rw [h.1, h.2.1]

end DsnMapping

/-! ## The loop of `sendpacket` -/

/-- The loop of `sendpacket` over `mptcp_dsnmap_`: the first mapping that is for the
packet and is either sent for the first time or was sent on a packet with this sequence
number.  Its `sentseq` is set. -/
def attach (seqno : ℤ) : List DsnMapping → List DsnMapping × Option DsnMapping
  | [] => ([], none)
  | p :: rest =>
    if p.Starts seqno ∧ (p.sentseq = 0 ∨ p.sentseq = seqno) then
      ({ p with sentseq := seqno } :: rest, some p)
    else ((p :: (attach seqno rest).1), (attach seqno rest).2)

variable {seqno : ℤ} {l : List DsnMapping} {p m : DsnMapping}

/-- Nothing is attached when no mapping will do. -/
theorem attach_eq_none (h : (attach seqno l).2 = none) :
    (attach seqno l).1 = l ∧ ∀ p ∈ l, p.Starts seqno → p.sentseq ≠ 0 ∧ p.sentseq ≠ seqno := by
  induction l with
  | nil => exact ⟨rfl, by simp⟩
  | cons p rest ih =>
    unfold attach at h ⊢
    split at h
    · cases h
    · rename_i hp
      rw [if_neg hp]
      obtain ⟨h1, h2⟩ := ih h
      refine ⟨by rw [h1], ?_⟩
      intro x hx hs
      cases hx with
      | head => exact not_or.mp fun h' => hp ⟨hs, h'⟩
      | tail _ hx => exact h2 x hx hs

/-- The mapping attached will do, and is the only one that changes. -/
theorem attach_eq_some (h : (attach seqno l).2 = some m) :
    m.Starts seqno ∧ (m.sentseq = 0 ∨ m.sentseq = seqno) ∧
      ∃ A B, l = A ++ m :: B ∧ (attach seqno l).1 = A ++ { m with sentseq := seqno } :: B := by
  induction l with
  | nil => cases h
  | cons p rest ih =>
    unfold attach at h ⊢
    split at h
    · rename_i hp
      cases h
      rw [if_pos hp]
      exact ⟨hp.1, hp.2, [], rest, rfl, rfl⟩
    · rename_i hp
      rw [if_neg hp]
      obtain ⟨h1, h2, A, B, h3, h4⟩ := ih h
      refine ⟨h1, h2, p :: A, B, by rw [h3, List.cons_append], ?_⟩
      show p :: (attach seqno rest).1 = _
      rw [h4, List.cons_append]

/-- The loop leaves the bytes of the mappings alone. -/
theorem attach_bytes :
    (attach seqno l).1.map DsnMapping.bytes = l.map DsnMapping.bytes := by
  induction l with
  | nil => rfl
  | cons p rest ih =>
    unfold attach
    split
    · rfl
    · rw [List.map_cons, List.map_cons, ih]

/-- A mapping after the loop is one from before it; only the one attached has a new
`sentseq`. -/
theorem exists_of_mem_attach (h : m ∈ (attach seqno l).1) :
    ∃ m₀ ∈ l, m.Same m₀ ∧ (m.sentseq = m₀.sentseq ∨ (attach seqno l).2 = some m₀) := by
  cases ha : (attach seqno l).2 with
  | none =>
    rw [(attach_eq_none ha).1] at h
    exact ⟨m, h, ⟨rfl, rfl, rfl⟩, Or.inl rfl⟩
  | some m₁ =>
    obtain ⟨-, -, A, B, rfl, h'⟩ := attach_eq_some ha
    rw [h'] at h
    have hmid : m₁ ∈ A ++ m₁ :: B := List.mem_append_right _ List.mem_cons_self
    rcases List.mem_append.mp h with hA | hB
    · exact ⟨m, List.mem_append_left _ hA, ⟨rfl, rfl, rfl⟩, Or.inl rfl⟩
    · rcases List.mem_cons.mp hB with rfl | hB
      · exact ⟨m₁, hmid, ⟨rfl, rfl, rfl⟩, Or.inr rfl⟩
      · exact ⟨m, List.mem_append_right _ (List.mem_cons_of_mem _ hB), ⟨rfl, rfl, rfl⟩, Or.inl rfl⟩

/-- Every mapping from before the loop is still there. -/
theorem exists_mem_attach (h : m ∈ l) : ∃ m' ∈ (attach seqno l).1, m'.Same m := by
  cases ha : (attach seqno l).2 with
  | none =>
    rw [(attach_eq_none ha).1]
    exact ⟨m, h, rfl, rfl, rfl⟩
  | some m₁ =>
    obtain ⟨-, -, A, B, rfl, h'⟩ := attach_eq_some ha
    rw [h']
    rcases List.mem_append.mp h with hA | hB
    · exact ⟨m, List.mem_append_left _ hA, rfl, rfl, rfl⟩
    · rcases List.mem_cons.mp hB with rfl | hB
      · exact ⟨{ m with sentseq := seqno }, List.mem_append_right _ List.mem_cons_self, rfl, rfl, rfl⟩
      · exact ⟨m, List.mem_append_right _ (List.mem_cons_of_mem _ hB), rfl, rfl, rfl⟩

/-! ## The loop of `mptcp_recv_getack` -/

/-- The loop of `mptcp_recv_getack`: the first mapping that `ackno` is in or at the end
of, and what is left of the vector.  Mappings that end before `ackno` are erased on the
way.  `none` is the call of `abort()`. -/
def scan (ackno : ℤ) : List DsnMapping → Option (List DsnMapping × DsnMapping)
  | [] => none
  | p :: rest =>
    if p.Meets ackno then some (p :: rest, p)
    else if ackno > p.stop then scan ackno rest
    else (scan ackno rest).map fun r => (p :: r.1, r.2)

variable {ackno : ℤ}

/-- The loop comes to an end without `abort()` when there is a mapping for `ackno`. -/
theorem scan_isSome_iff : (scan ackno l).isSome = true ↔ ∃ p ∈ l, p.Meets ackno := by
  induction l with
  | nil => simp [scan]
  | cons p rest ih =>
    unfold scan
    split
    · rename_i hp
      exact iff_of_true rfl ⟨p, List.mem_cons_self, hp⟩
    · rename_i hp
      have hcons : (∃ x ∈ p :: rest, x.Meets ackno) ↔ ∃ x ∈ rest, x.Meets ackno := by
        simp [hp]
      rw [hcons, ← ih]
      split
      · rfl
      · rw [Option.isSome_map]

/-- The mapping found is the first for `ackno`; what is left is what was there, less
some mappings that end before `ackno`. -/
theorem scan_eq_some {l' : List DsnMapping} (h : scan ackno l = some (l', p)) :
    l.find? (fun x => x.Meets ackno) = some p ∧ l'.Sublist l ∧
      ∀ x ∈ l, x ∈ l' ∨ x.stop < ackno := by
  induction l generalizing l' with
  | nil => cases h
  | cons q rest ih =>
    unfold scan at h
    split at h
    · rename_i hq
      cases h
      exact ⟨List.find?_cons_of_pos (by simpa using hq), List.Sublist.refl _,
        fun x hx => Or.inl hx⟩
    · rename_i hq
      rw [List.find?_cons_of_neg (by simpa using hq)]
      split at h
      · rename_i hlt
        obtain ⟨h1, h2, h3⟩ := ih h
        refine ⟨h1, h2.cons q, ?_⟩
        intro x hx
        cases hx with
        | head => exact Or.inr hlt
        | tail _ hx => exact h3 x hx
      · obtain ⟨⟨r, p'⟩, hr, heq⟩ := Option.map_eq_some_iff.mp h
        cases heq
        obtain ⟨h1, h2, h3⟩ := ih hr
        refine ⟨h1, h2.cons_cons q, ?_⟩
        intro x hx
        cases hx with
        | head => exact Or.inl List.mem_cons_self
        | tail _ hx => exact (h3 x hx).imp_left (List.mem_cons_of_mem q)

/-! ## The loop of `mptcp_remove_mapping` -/

/-- The loop of `mptcp_remove_mapping`: the first mapping that ends before `seqnum` in
the data stream is erased, and the function returns. -/
def removeFirst (seqnum : ℤ) (l : List DsnMapping) : List DsnMapping :=
  l.eraseP fun p => seqnum > p.dseqnum + p.length

/-- A mapping is still there, or it was the first that ends before `seqnum`. -/
theorem mem_removeFirst_or_find {seqnum : ℤ} (h : m ∈ l) :
    m ∈ removeFirst seqnum l ∨ l.find? (fun p => seqnum > p.dseqnum + p.length) = some m := by
  unfold removeFirst
  induction l with
  | nil => cases h
  | cons p rest ih =>
    by_cases hp : seqnum > p.dseqnum + p.length
    · rw [List.eraseP_cons_of_pos (by simpa using hp), List.find?_cons_of_pos (by simpa using hp)]
      cases h with
      | head => exact Or.inr rfl
      | tail _ h => exact Or.inl h
    · rw [List.eraseP_cons_of_neg (by simpa using hp), List.find?_cons_of_neg (by simpa using hp)]
      cases h with
      | head => exact Or.inl List.mem_cons_self
      | tail _ h => exact (ih h).imp_left (List.mem_cons_of_mem p)

end Ns2.Mptcp
