import Ns2.Lib.Run
import Ns2.Tcp.ScoreBoardRing

/-!
# Runs of the ring scoreboard

* `Ledger` — a scoreboard, with the blocks that were received and the packets that were
  retransmitted.
* `Exact` — the entries are the ones of the packets after the cumulative ACK, with the right flags,
  and `GetNextRetran` returns the first hole.
* `Fits` — the packet that creates a board has a block above the cumulative ACK, and the packets
  that are marked are in the board.
* `Inv.step` — one operation.
* `scoreboard_exact` — **the scoreboard is exact in runs of operations that fit.**
-/

namespace Ns2.Tcp

open ScoreBoardNode

/-- An operation. -/
inductive ScoreBoardOp where
  /-- `UpdateScoreBoard` for a packet with these blocks. -/
  | update (last_ack : ℤ) (blocks : List SackBlock)
  /-- `MarkRetran`. -/
  | mark (retran_seqno : ℤ) (snd_nxt : Option ℤ)

namespace ScoreBoard

/-- The scoreboard has an entry for a packet. -/
def HasEntry (s : ScoreBoard) (i : ℤ) : Prop := s.first_ ≤ i ∧ i < s.first_ + s.length_

instance (s : ScoreBoard) (i : ℤ) : Decidable (s.HasEntry i) := inferInstanceAs (Decidable (_ ∧ _))

/-- A scoreboard and its history. -/
structure Ledger where
  board : ScoreBoard
  last_ack : ℤ
  /-- The blocks that were received. -/
  received : List SackBlock
  /-- The blocks that were received since the entry of a packet was created. -/
  since : ℤ → List SackBlock
  /-- The packets that were retransmitted. -/
  marked : List ℤ

namespace Ledger

/-- A new scoreboard of a sender that has received no ACK. -/
def init (SBN : ℤ → ScoreBoardNode) (sz : ℤ) : Ledger := ⟨new SBN sz, -1, [], fun _ => [], []⟩

/-- An ACK has been received. -/
def updated (l : Ledger) (board : ScoreBoard) (last_ack : ℤ) (blocks : List SackBlock) :
    Ledger where
  board := board
  last_ack := last_ack
  received := l.received ++ blocks
  since i := if l.board.HasEntry i then l.since i ++ blocks else blocks
  marked := l.marked

/-- One operation. -/
def step (junk : ℤ → ℤ → ScoreBoardNode) (l : Ledger) : ScoreBoardOp → Option Ledger
  | .update last_ack blocks => (l.board.updateScoreBoard junk last_ack blocks).map fun x =>
      l.updated x.1 last_ack blocks
  | .mark retran_seqno snd_nxt =>
      some { l with
        board := l.board.markRetran retran_seqno snd_nxt
        marked := retran_seqno :: l.marked }

/-- One operation of a run; nothing is left of a run that has failed. -/
def exec (junk : ℤ → ℤ → ScoreBoardNode) (l? : Option Ledger) (e : ScoreBoardOp) :
    Option Ledger := l?.bind (step junk · e)

/-- The cumulative ACK does not decrease, and blocks are not empty. -/
def Legal (l : Ledger) : ScoreBoardOp → Prop
  | .update last_ack blocks => l.last_ack ≤ last_ack ∧ ∀ b ∈ blocks, b.sack_left < b.sack_right
  | .mark retran_seqno _ => 0 ≤ retran_seqno

instance (l : Ledger) : ∀ e, Decidable (l.Legal e)
  | .update _ _ => inferInstanceAs (Decidable (_ ∧ _))
  | .mark _ _ => inferInstanceAs (Decidable (_ ≤ _))

/-- An ACK for which a board is created has a block above the first packet that is not
acknowledged; a packet that is marked has an entry, or it is acknowledged and its slot is not the
one of an entry that is not sacked. -/
def Fits (l : Ledger) : ScoreBoardOp → Prop
  | .update last_ack blocks => l.board.first_ + l.board.length_ ≤ last_ack + 1 →
      blocks = [] ∨ ∃ b ∈ blocks, last_ack + 1 < b.sack_right
  | .mark retran_seqno _ => l.board.HasEntry retran_seqno ∨ retran_seqno ≤ l.last_ack ∧
      ∀ i, l.board.first_ ≤ i → i < l.board.first_ + l.board.length_ →
        i.tmod l.board.sbsize_ = retran_seqno.tmod l.board.sbsize_ →
        (l.board.SBNI i).sack_flag_ = true

instance (l : Ledger) : ∀ e, Decidable (l.Fits e)
  | .update _ _ => inferInstanceAs (Decidable (_ → _))
  | .mark _ _ => inferInstanceAs (Decidable (_ ∨ _))

/-- A block that was received covers the packet. -/
def Sacked (l : Ledger) (i : ℤ) : Prop := ∃ b ∈ l.received, b.Covers i

/-- The packet is not acknowledged, not sacked and not retransmitted, and a packet after it is
sacked. -/
def Hole (l : Ledger) (i : ℤ) : Prop :=
  l.last_ack < i ∧ ¬ l.Sacked i ∧ i ∉ l.marked ∧ ∃ j, i < j ∧ l.Sacked j

/-- The scoreboard is exact. -/
structure Exact (l : Ledger) : Prop where
  /-- The entries are within the ring. -/
  capacity : 0 ≤ l.board.length_ ∧ l.board.length_ < l.board.sbsize_
  /-- They start after the cumulative ACK. -/
  start : l.board.length_ ≠ 0 → l.board.first_ = l.last_ack + 1
  /-- They are contiguous. -/
  contiguous : ∀ i, l.board.HasEntry i →
    (l.board.SBNI i).seq_no_ = i ∧ (l.board.SBNI i).ack_flag_ = false
  /-- An entry is sacked if a block covered it since it was created, and only then. -/
  sacked : ∀ i, l.board.HasEntry i →
    ((l.board.SBNI i).sack_flag_ = true ↔ ∃ b ∈ l.since i, b.Covers i)
  /-- The entries that are not sacked are the retransmitted ones that were marked. -/
  retransmitted : ∀ i, l.board.HasEntry i → (l.board.SBNI i).sack_flag_ = false →
    ((l.board.SBNI i).retran_ = true ↔ i ∈ l.marked)
  /-- The next packet to retransmit is the first hole. -/
  next : (l.Hole l.board.getNextRetran ∧ ∀ i, l.Hole i → l.board.getNextRetran ≤ i) ∨
    (l.board.getNextRetran = -1 ∧ ∀ i, ¬ l.Hole i)

end Ledger

open Ledger

/-! ## What blocks tell -/

variable {blocks : List SackBlock} {n : ScoreBoardNode} {hi : ℤ}

theorem report_ack (b : SackBlock) (n : ScoreBoardNode) : (report b n).ack_flag_ = n.ack_flag_ := by
  unfold report
  split <;> rfl

theorem report_sack (b : SackBlock) (n : ScoreBoardNode) :
    (report b n).sack_flag_ = true ↔ n.sack_flag_ = true ∨ b.Covers n.seq_no_ := by
  unfold report
  split
  · rename_i hb
    exact iff_of_true rfl (.inr hb)
  · rename_i hb
    exact ⟨.inl, fun h => h.resolve_right hb⟩

theorem report_retran (b : SackBlock) (n : ScoreBoardNode) (h : (report b n).sack_flag_ = false) :
    (report b n).retran_ = n.retran_ := by
  unfold report at h ⊢
  split at h
  · cases h
  · rename_i hb
    rw [if_neg hb]

theorem reports_ack : (reports blocks n).ack_flag_ = n.ack_flag_ := by
  induction blocks generalizing n with
  | nil => rfl
  | cons b l ih => exact ih.trans (report_ack b n)

/-- A packet is sacked that was sacked, or that a block covers. -/
theorem reports_sack : (reports blocks n).sack_flag_ = true ↔
    n.sack_flag_ = true ∨ ∃ b ∈ blocks, b.Covers n.seq_no_ := by
  induction blocks generalizing n with
  | nil => simp [reports]
  | cons b l ih =>
    have hrec : reports (b :: l) n = reports l (report b n) := rfl
    rw [hrec, ih, report_sack, report_seq, List.exists_mem_cons_iff, or_assoc]

theorem reports_sack_of (h : (reports blocks n).sack_flag_ = false) : n.sack_flag_ = false := by
  rw [← Bool.not_eq_true] at h ⊢
  exact fun hn => h (reports_sack.mpr (.inl hn))

/-- A packet that is not sacked is retransmitted if it was. -/
theorem reports_retran (h : (reports blocks n).sack_flag_ = false) :
    (reports blocks n).retran_ = n.retran_ := by
  induction blocks generalizing n with
  | nil => rfl
  | cons b l ih => exact (ih h).trans (report_retran b n (reports_sack_of h))

theorem le_edge : hi ≤ edge hi blocks := by
  induction blocks generalizing hi with
  | nil => exact le_rfl
  | cons b l ih => exact (le_max_left hi b.sack_right).trans ih

theorem right_le_edge {b : SackBlock} (hb : b ∈ blocks) : b.sack_right ≤ edge hi blocks := by
  induction blocks generalizing hi with
  | nil => cases hb
  | cons c l ih =>
    cases hb with
    | head => exact (le_max_right hi b.sack_right).trans le_edge
    | tail _ hb => exact ih hb

/-- The right edge is the one of a block, if it has moved. -/
theorem edge_eq : edge hi blocks = hi ∨ ∃ b ∈ blocks, edge hi blocks = b.sack_right := by
  induction blocks generalizing hi with
  | nil => exact .inl rfl
  | cons b l ih =>
    obtain heq | ⟨c, hc, heq⟩ : edge (max hi b.sack_right) l = max hi b.sack_right ∨
        ∃ c ∈ l, edge (max hi b.sack_right) l = c.sack_right := ih
    · rcases le_total hi b.sack_right with hle | hle
      · exact .inr ⟨b, List.mem_cons_self, heq.trans (max_eq_right hle)⟩
      · exact .inl (heq.trans (max_eq_left hle))
    · exact .inr ⟨c, List.mem_cons_of_mem b hc, heq⟩

/-! ## The invariant -/

variable {l : Ledger} {lo last_ack i : ℤ} {v : ℤ → ScoreBoardNode}
  {junk : ℤ → ℤ → ScoreBoardNode}

/-- The board holds the entries of `v` from `lo` to before `hi`, and `v` agrees with the history. -/
structure Inv (l : Ledger) (lo hi : ℤ) (v : ℤ → ScoreBoardNode) : Prop where
  ring : Ring l.board lo hi v
  ack_ge : -1 ≤ l.last_ack
  left : lo ≤ l.last_ack + 1
  /-- The entries start after the cumulative ACK. -/
  left_eq : lo < hi → lo = l.last_ack + 1
  ack : ∀ i, (v i).ack_flag_ = false
  sack : ∀ i, (v i).sack_flag_ = true ↔ l.Sacked i
  retran : ∀ i, l.last_ack < i → (v i).sack_flag_ = false → ((v i).retran_ = true ↔ i ∈ l.marked)
  /-- The last entry is sacked. -/
  top : lo < hi → l.Sacked (hi - 1)
  since : ∀ i, lo ≤ i → i < hi → ((∃ b ∈ l.since i, b.Covers i) ↔ l.Sacked i)

theorem Inv.init {SBN : ℤ → ScoreBoardNode} {sz : ℤ} (hsz : 2 ≤ sz) :
    Inv (init SBN sz) 0 0 fresh where
  ring := Ring.new hsz
  ack_ge := le_rfl
  left := le_rfl
  left_eq := fun h => absurd h (lt_irrefl 0)
  ack := fun _ => rfl
  sack := by simp [fresh, Sacked, Ledger.init]
  retran := by simp [fresh, Ledger.init]
  top := fun h => absurd h (lt_irrefl 0)
  since := by simp [Sacked, Ledger.init]

namespace Inv

theorem hasEntry_iff (h : Inv l lo hi v) : l.board.HasEntry i ↔ lo ≤ i ∧ i < hi := by
  have hhi : l.board.first_ + l.board.length_ = hi := by
    rw [h.ring.first, h.ring.length]
    omega
  rw [HasEntry, hhi, h.ring.first]

/-- What is sacked is before the right edge. -/
theorem lt_of_sacked (h : Inv l lo hi v) (hi' : l.Sacked i) : i < hi := by
  by_contra hle
  have hsack := (h.sack i).mpr hi'
  rw [h.ring.beyond i (not_lt.mp hle)] at hsack
  cases hsack

/-- The holes are the entries that are missing. -/
theorem hole_iff (h : Inv l lo hi v) : l.Hole i ↔ lo ≤ i ∧ i < hi ∧ Missing (v i) := by
  unfold Hole Missing
  constructor
  · rintro ⟨hack, hsack, hmark, j, hij, hj⟩
    have hjhi := h.lt_of_sacked hj
    have hleft := h.left
    rw [← h.sack i, Bool.not_eq_true] at hsack
    rw [← h.retran i hack hsack, Bool.not_eq_true] at hmark
    exact ⟨by omega, by omega, h.ack i, hsack, hmark⟩
  · rintro ⟨h₁, h₂, -, hsack, hmark⟩
    have hlo := h.left_eq (by omega)
    have hack : l.last_ack < i := by omega
    have hnot : ¬ l.Sacked i := by
      rw [← h.sack i, hsack]
      exact Bool.false_ne_true
    have htop := h.top (by omega)
    refine ⟨hack, hnot, ?_, hi - 1, ?_, htop⟩
    · rw [← h.retran i hack hsack, hmark]
      exact Bool.false_ne_true
    · -- the last entry is sacked, and this one is not
      have hne : i ≠ hi - 1 := fun heq => hnot (heq ▸ htop)
      omega

/-- The scoreboard is exact. -/
theorem exact (h : Inv l lo hi v) : l.Exact where
  capacity := by
    have hle := h.ring.le
    have hlt := h.ring.lt
    rw [h.ring.length]
    omega
  start := by
    intro hlen
    have hle := h.ring.le
    rw [h.ring.length] at hlen
    rw [h.ring.first, h.left_eq (by omega)]
  contiguous := by
    intro i hentry
    obtain ⟨h₁, h₂⟩ := h.hasEntry_iff.mp hentry
    rw [h.ring.SBNI h₁ h₂]
    exact ⟨h.ring.seq i, h.ack i⟩
  sacked := by
    intro i hentry
    obtain ⟨h₁, h₂⟩ := h.hasEntry_iff.mp hentry
    rw [h.ring.SBNI h₁ h₂, h.sack, h.since i h₁ h₂]
  retransmitted := by
    intro i hentry hsack
    obtain ⟨h₁, h₂⟩ := h.hasEntry_iff.mp hentry
    have hlo := h.left_eq (by omega)
    rw [h.ring.SBNI h₁ h₂] at hsack ⊢
    exact h.retran i (by omega) hsack
  next := by
    rcases h.ring.getNextRetran with ⟨h₁, h₂, hmissing, hbefore⟩ | ⟨hnone, hall⟩
    · refine .inl ⟨h.hole_iff.mpr ⟨h₁, h₂, hmissing⟩, fun i hhole => ?_⟩
      obtain ⟨hlo, -, hi'⟩ := h.hole_iff.mp hhole
      by_contra hlt
      exact hbefore i hlo (not_le.mp hlt) hi'
    · refine .inr ⟨hnone, fun i hhole => ?_⟩
      obtain ⟨hlo, hlt, hi'⟩ := h.hole_iff.mp hhole
      exact hall i hlo hlt hi'

end Inv

/-! ## One operation -/

variable {s s' : ScoreBoard}

/-- Packets that share a slot are marked in the same way. -/
theorem markRetran_congr {p : ℤ} {snd_nxt : Option ℤ} (h : i.tmod s.sbsize_ = p.tmod s.sbsize_) :
    s.markRetran i snd_nxt = s.markRetran p snd_nxt := by
  simp only [markRetran, setSBNI, SBNI, h]

theorem sacked_updated :
    (l.updated s' last_ack blocks).Sacked i ↔ l.Sacked i ∨ ∃ b ∈ blocks, b.Covers i := by
  simp only [Sacked, updated, List.mem_append, or_and_right, exists_or]

namespace Inv

/-- All entries are acknowledged, by a packet without blocks. -/
theorem updated_empty (h : Inv l lo hi v) (hle : l.last_ack ≤ last_ack) (hhi : hi ≤ last_ack + 1)
    (hring : Ring s' hi hi v) : Inv (l.updated s' last_ack []) hi hi v where
  ring := hring
  ack_ge := h.ack_ge.trans hle
  left := hhi
  left_eq := fun hlt => absurd hlt (lt_irrefl hi)
  ack := h.ack
  sack := by
    intro i
    rw [h.sack i, sacked_updated]
    simp
  retran := fun i hi' hsack => h.retran i (hle.trans_lt hi') hsack
  top := fun hlt => absurd hlt (lt_irrefl hi)
  since := fun i h₁ h₂ => absurd h₁ (not_le.mpr h₂)

/-- The board has entries after the packet. -/
theorem updated_blocks (h : Inv l lo hi v) (hle : l.last_ack ≤ last_ack)
    (hleft : ∀ b ∈ blocks, b.sack_left < b.sack_right)
    (hfits : hi ≤ last_ack + 1 → ∃ b ∈ blocks, last_ack + 1 < b.sack_right)
    (hring : Ring s' (last_ack + 1) (edge (max hi (last_ack + 2)) blocks)
      fun i => reports blocks (v i)) :
    Inv (l.updated s' last_ack blocks) (last_ack + 1) (edge (max hi (last_ack + 2)) blocks)
      fun i => reports blocks (v i) where
  ring := hring
  ack_ge := h.ack_ge.trans hle
  left := le_rfl
  left_eq := fun _ => rfl
  ack := fun i => reports_ack.trans (h.ack i)
  sack := by
    intro i
    rw [reports_sack, h.sack i, h.ring.seq, sacked_updated]
  retran := by
    intro i hi' hsack
    rw [reports_retran hsack]
    exact h.retran i (hle.trans_lt hi') (reports_sack_of hsack)
  top := by
    intro _
    have hlt : max hi (last_ack + 2) ≤ edge (max hi (last_ack + 2)) blocks := le_edge
    -- the right edge is the one of a block, or it has not moved
    have hright : (∃ b ∈ blocks, edge (max hi (last_ack + 2)) blocks = b.sack_right) →
        (l.updated s' last_ack blocks).Sacked (edge (max hi (last_ack + 2)) blocks - 1) := by
      rintro ⟨b, hb, heq⟩
      have := hleft b hb
      refine sacked_updated.mpr (.inr ⟨b, hb, ?_, ?_⟩) <;> omega
    have hedge : edge (max hi (last_ack + 2)) blocks = max hi (last_ack + 2) ∨
        ∃ b ∈ blocks, edge (max hi (last_ack + 2)) blocks = b.sack_right := edge_eq
    by_cases hhi : hi ≤ last_ack + 1
    · obtain ⟨b, hb, hlast⟩ := hfits hhi
      have hb' : b.sack_right ≤ edge (max hi (last_ack + 2)) blocks := right_le_edge hb
      rcases hedge with heq | hex
      · exact hright ⟨b, hb, by omega⟩
      · exact hright hex
    · rcases hedge with heq | hex
      · have hmax : max hi (last_ack + 2) = hi := by omega
        rw [heq, hmax]
        exact sacked_updated.mpr (.inl (h.top (by have := h.left; omega)))
      · exact hright hex
  since := by
    intro i h₁ h₂
    rw [sacked_updated]
    simp only [updated]
    by_cases hentry : l.board.HasEntry i
    · obtain ⟨hlo, hhi⟩ := h.hasEntry_iff.mp hentry
      rw [if_pos hentry, ← h.since i hlo hhi]
      simp only [List.mem_append, or_and_right, exists_or]
    · -- the entry is new, and no block has covered the packet yet
      have hnew : ¬ l.Sacked i := by
        intro hsacked
        have hhi := h.lt_of_sacked hsacked
        have hleft := h.left
        exact hentry (h.hasEntry_iff.mpr ⟨by omega, hhi⟩)
      rw [if_neg hentry, or_iff_right hnew]

/-- An ACK is received. -/
theorem update (h : Inv l lo hi v) (hlegal : l.Legal (.update last_ack blocks))
    (hfits : l.Fits (.update last_ack blocks)) :
    ∃ l' lo' hi' v', step junk l (.update last_ack blocks) = some l' ∧ Inv l' lo' hi' v' := by
  obtain ⟨hle, hleft⟩ := hlegal
  have hhi : l.board.first_ + l.board.length_ = hi := by
    rw [h.ring.first, h.ring.length]
    omega
  have hfits' : hi ≤ last_ack + 1 → blocks = [] ∨ ∃ b ∈ blocks, last_ack + 1 < b.sack_right := by
    rw [← hhi]
    exact hfits
  obtain ⟨s', r', hs', hcases⟩ := h.ring.updateScoreBoard blocks junk
    (h.left.trans (add_le_add_left hle 1))
  rw [step, hs', Option.map_some]
  rcases hcases with ⟨⟨hempty, rfl⟩, hring⟩ | ⟨hnot, hring⟩
  · exact ⟨_, hi, hi, v, rfl, h.updated_empty hle hempty hring⟩
  · refine ⟨_, _, _, _, rfl, h.updated_blocks hle hleft (fun hempty => ?_) hring⟩
    exact (hfits' hempty).resolve_left fun hnil => hnot ⟨hempty, hnil⟩

/-- An entry is marked: the one of the packet, or a sacked one for a packet that is acknowledged. -/
theorem mark_entry {p : ℤ} {snd_nxt : Option ℤ} (h : Inv l lo hi v) (h₁ : lo ≤ i) (h₂ : i < hi)
    (hp : i = p ∨ p ≤ l.last_ack ∧ (v i).sack_flag_ = true) :
    Inv { l with board := l.board.markRetran i snd_nxt, marked := p :: l.marked } lo hi
      (Function.update v i ((v i).retransmitted snd_nxt)) := by
  have hflags : ∀ j, (Function.update v i ((v i).retransmitted snd_nxt) j).ack_flag_ =
      (v j).ack_flag_ ∧ (Function.update v i ((v i).retransmitted snd_nxt) j).sack_flag_ =
      (v j).sack_flag_ := by
    intro j
    by_cases hji : j = i
    · subst hji
      rw [Function.update_self]
      exact ⟨rfl, rfl⟩
    · rw [Function.update_of_ne hji]
      exact ⟨rfl, rfl⟩
  constructor
  case ring => exact h.ring.markRetran h₁ h₂
  case ack_ge => exact h.ack_ge
  case left => exact h.left
  case left_eq => exact h.left_eq
  case ack => exact fun j => (hflags j).1.trans (h.ack j)
  case sack =>
    intro j
    rw [(hflags j).2]
    exact h.sack j
  case retran =>
    intro j hj hsack
    rw [(hflags j).2] at hsack
    rw [List.mem_cons]
    by_cases hji : j = i
    · subst hji
      rw [Function.update_self]
      refine iff_of_true rfl (.inl (hp.resolve_right fun hc => ?_))
      rw [hsack] at hc
      exact Bool.false_ne_true hc.2
    · have hjp : j ≠ p := by
        rcases hp with rfl | ⟨hack, -⟩
        · exact hji
        · exact (hack.trans_lt hj).ne'
      rw [Function.update_of_ne hji, h.retran j hj hsack, or_iff_right hjp]
  case top => exact h.top
  case since => exact h.since

/-- A packet that is acknowledged is marked, in a slot of no entry. -/
theorem mark_away {p : ℤ} {snd_nxt : Option ℤ} (h : Inv l lo hi v) (hp : p ≤ l.last_ack)
    (hslot : ∀ i, lo ≤ i → i < hi → i.tmod l.board.sbsize_ ≠ p.tmod l.board.sbsize_) :
    Inv { l with board := l.board.markRetran p snd_nxt, marked := p :: l.marked } lo hi v where
  ring := h.ring.markRetran_away hslot
  ack_ge := h.ack_ge
  left := h.left
  left_eq := h.left_eq
  ack := h.ack
  sack := h.sack
  retran := by
    intro i hi' hsack
    have hip : i ≠ p := (hp.trans_lt hi').ne'
    rw [List.mem_cons, h.retran i hi' hsack, or_iff_right hip]
  top := h.top
  since := h.since

/-- A packet is retransmitted. -/
theorem mark {p : ℤ} {snd_nxt : Option ℤ} (h : Inv l lo hi v) (hfits : l.Fits (.mark p snd_nxt)) :
    ∃ l' lo' hi' v', step junk l (.mark p snd_nxt) = some l' ∧ Inv l' lo' hi' v' := by
  rcases hfits with hentry | ⟨hack, hslot⟩
  · obtain ⟨h₁, h₂⟩ := h.hasEntry_iff.mp hentry
    exact ⟨_, lo, hi, _, rfl, h.mark_entry h₁ h₂ (.inl rfl)⟩
  · by_cases hex : ∃ i, lo ≤ i ∧ i < hi ∧ i.tmod l.board.sbsize_ = p.tmod l.board.sbsize_
    · obtain ⟨i, h₁, h₂, heq⟩ := hex
      obtain ⟨hfirst, hlast⟩ := h.hasEntry_iff.mpr ⟨h₁, h₂⟩
      have hsack := hslot i hfirst hlast heq
      rw [h.ring.SBNI h₁ h₂] at hsack
      rw [Ledger.step, ← markRetran_congr heq]
      exact ⟨_, lo, hi, _, rfl, h.mark_entry h₁ h₂ (.inr ⟨hack, hsack⟩)⟩
    · push Not at hex
      exact ⟨_, lo, hi, v, rfl, h.mark_away hack hex⟩

/-- An operation keeps the invariant, if it fits. -/
theorem step {e : ScoreBoardOp} (h : Inv l lo hi v) (hlegal : l.Legal e) (hfits : l.Fits e) :
    ∃ l' lo' hi' v', Ledger.step junk l e = some l' ∧ Inv l' lo' hi' v' := by
  cases e with
  | update last_ack blocks => exact h.update hlegal hfits
  | mark p snd_nxt => exact h.mark hfits

end Inv

/-! ## Runs -/

/-- **The ring scoreboard is exact.**  In every run of ACKs and retransmissions that fit, with any
memory, no operation fails, and in every state reached the entries are contiguous and have the
right flags, and `GetNextRetran` returns the first hole. -/
theorem scoreboard_exact (SBN : ℤ → ScoreBoardNode) (sz : ℤ) (hsz : 2 ≤ sz)
    (junk : ℤ → ℤ → ScoreBoardNode) (es : List ScoreBoardOp)
    (hes : Run.AllSteps (exec junk) (fun l? e => ∀ l ∈ l?, l.Legal e ∧ l.Fits e)
      (some (init SBN sz)) es) :
    ∀ p, p <+: es → ∃ l, p.foldl (exec junk) (some (init SBN sz)) = some l ∧ l.Exact := by
  rintro p ⟨t, rfl⟩
  rw [Run.allSteps_append] at hes
  obtain ⟨l, lo, hi, v, hl, hinv⟩ := Run.foldl_invariant
    (I := fun _ l? => ∃ l lo hi v, l? = some l ∧ Inv l lo hi v) (by
      rintro - - e ⟨l, lo, hi, v, rfl, hinv⟩ hok
      obtain ⟨hlegal, hfits⟩ := hok l rfl
      exact hinv.step hlegal hfits) p [] _ ⟨_, 0, 0, fresh, rfl, Inv.init hsz⟩ hes.1
  exact ⟨l, hl, hinv.exact⟩

/-- Two ACKs with blocks, and a retransmission, in a ring that grows. -/
theorem scoreboard_exact_four :
    ∃ l, [ScoreBoardOp.update (-1) [⟨2, 4⟩], .mark 0 none, .update 1 [⟨4, 6⟩],
      .update 1 [⟨2, 3⟩]].foldl (exec fun _ => fresh) (some (init fresh 4)) = some l ∧ l.Exact :=
  scoreboard_exact fresh 4 (by decide) (fun _ => fresh) _ (by decide +kernel) _
    (List.prefix_refl _)

/-- A block of packets that are acknowledged already, for an empty board: `GetNextRetran` returns
the packet after the cumulative ACK, and nothing above it is sacked. -/
theorem not_exact_stale : ¬ ∀ SBN sz, 2 ≤ sz → ∀ junk es,
    Run.AllSteps (exec junk) (fun l? e => ∀ l ∈ l?, l.Legal e) (some (init SBN sz)) es →
      ∀ p, p <+: es → ∃ l, p.foldl (exec junk) (some (init SBN sz)) = some l ∧ l.Exact := by
  intro hclaim
  obtain ⟨l, hl, hexact⟩ := hclaim fresh 64 (by decide) (fun _ => fresh) [.update 5 [⟨2, 4⟩]]
    (by decide +kernel) _ (List.prefix_refl _)
  have hrun : (([.update 5 [⟨2, 4⟩]] : List ScoreBoardOp).foldl (exec fun _ => fresh)
      (some (init fresh 64))).map (fun l => (l.board.getNextRetran, l.received)) =
        some (6, [⟨2, 4⟩]) := by decide +kernel
  rw [hl, Option.map_some, Option.some_inj, Prod.mk.injEq] at hrun
  obtain ⟨hnext, hreceived⟩ := hrun
  rcases hexact.next with ⟨⟨-, -, -, j, hj, b, hb, hcovers⟩, -⟩ | ⟨hnone, -⟩
  · rw [hreceived, List.mem_singleton] at hb
    subst hb
    rw [hnext] at hj
    exact absurd (hj.trans hcovers.2) (by decide)
  · rw [hnext] at hnone
    exact absurd hnone (by decide)

end ScoreBoard

end Ns2.Tcp
