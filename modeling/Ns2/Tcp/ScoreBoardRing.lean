import Ns2.Tcp.ScoreBoard

/-!
# The ring of the scoreboard, as a window of an endless array

What is known of all packets is an array `v` over the integers, which knows nothing of the packets
that no entry was created for.  The ring holds the entries of the array from the left edge `lo` to
before the right edge `hi`.

* `Ring` — the scoreboard holds this window of the array.
* `Ring.acknowledge` — the left edge moves.
* `Ring.create`, `Ring.grow`, `Ring.enter` — the right edge moves, within a ring that is copied.
* `Ring.cover`, `Ring.block` — the packets that a block covers are sacked in the array.
* `Ring.updateScoreBoard` — **what `UpdateScoreBoard` does to the window and to the array.**
* `Ring.markRetran`, `Ring.getNextRetran` — the other operations.
-/

namespace Ns2.Tcp

open ModRing ScoreBoardNode

namespace ScoreBoard

variable {s : ScoreBoard} {x : ScoreBoard × ℤ} {lo hi last_ack i r : ℤ} {v : ℤ → ScoreBoardNode}
  {b : SackBlock} {blocks : List SackBlock}

/-- The scoreboard holds the entries of `v` from `lo` to before `hi`. -/
structure Ring (s : ScoreBoard) (lo hi : ℤ) (v : ℤ → ScoreBoardNode) : Prop where
  first : s.first_ = lo
  length : s.length_ = hi - lo
  le : lo ≤ hi
  /-- A slot is free. -/
  lt : hi - lo < s.sbsize_
  size : 2 ≤ s.sbsize_
  /-- The slots hold the entries. -/
  window : Window s.sbsize_ s.SBN lo hi v
  /-- Each entry is the one of its packet. -/
  seq : ∀ i, (v i).seq_no_ = i
  /-- Nothing is known of the packets after the last entry. -/
  beyond : ∀ i, hi ≤ i → v i = fresh i

namespace Ring

theorem SBNI (h : Ring s lo hi v) (h₁ : lo ≤ i) (h₂ : i < hi) : s.SBNI i = v i :=
  h.window.entry i h₁ h₂

theorem firstSeq (h : Ring s lo hi v) (hlt : lo < hi) : (s.SBNI s.first_).seq_no_ = lo := by
  rw [h.first, h.SBNI le_rfl hlt, h.seq]

/-- A scoreboard that nobody has written to. -/
theorem new {SBN : ℤ → ScoreBoardNode} {sz : ℤ} (hsz : 2 ≤ sz) :
    Ring (new SBN sz) 0 0 fresh where
  first := rfl
  length := rfl
  le := le_rfl
  lt := by
    rw [sub_self]
    exact lt_of_lt_of_le zero_lt_two hsz
  size := hsz
  window := ⟨le_rfl, by rw [zero_add]; exact le_trans zero_le_two hsz, fun i h₁ h₂ => by omega⟩
  seq := fun _ => rfl
  beyond := fun _ _ => rfl

/-- Only the counter of changes differs. -/
theorem congr {t : ScoreBoard} (h : Ring s lo hi v) (hfirst : t.first_ = s.first_)
    (hlength : t.length_ = s.length_) (hsize : t.sbsize_ = s.sbsize_) (hSBN : t.SBN = s.SBN) :
    Ring t lo hi v where
  first := hfirst.trans h.first
  length := hlength.trans h.length
  le := h.le
  lt := hsize ▸ h.lt
  size := hsize ▸ h.size
  window := by
    rw [hsize, hSBN]
    exact h.window
  seq := h.seq
  beyond := h.beyond

/-! ## The left edge -/

/-- The first entry is acknowledged. -/
theorem ackFirst (h : Ring s lo hi v) (hlt : lo < hi) : Ring (s.ackFirst lo) (lo + 1) hi v where
  first := by
    show s.first_ + 1 = lo + 1
    rw [h.first]
  length := by
    show s.length_ - 1 = hi - (lo + 1)
    rw [h.length]
    omega
  le := hlt
  lt := by
    have := h.lt
    show hi - (lo + 1) < s.sbsize_
    omega
  size := h.size
  window := by
    refine ((h.window.set le_rfl hlt (s.SBNI lo).acked).drop (by omega)).congr ?_
    intro i h₁ h₂
    exact Function.update_of_ne (by omega) _ _
  seq := h.seq
  beyond := h.beyond

theorem advance {k : ℕ} (h : Ring s lo hi v) (hlt : lo < hi) (hk : last_ack + 1 - lo = k) :
    ∃ s' r', advance last_ack k lo s r = some (s', r') ∧
      Ring s' (min hi (last_ack + 1)) hi v := by
  induction k generalizing s lo r with
  | zero =>
    have hmin : min hi (last_ack + 1) = lo := by omega
    exact ⟨s, r, rfl, hmin ▸ h⟩
  | succ k ih =>
    push_cast at hk
    have hseq : (s.SBNI lo).seq_no_ ≤ last_ack := by
      rw [h.SBNI le_rfl hlt, h.seq]
      omega
    have hassert : s.first_ = lo ∧ s.length_ - 1 ≥ 0 := by
      rw [h.first, h.length]
      omega
    have h' := h.ackFirst hlt
    rw [ScoreBoard.advance, if_pos hseq, if_pos hassert]
    dsimp only
    split
    · rename_i hlast
      have hmin : min hi (last_ack + 1) = lo + 1 := by
        rw [h.length] at hlast
        omega
      exact ⟨_, _, rfl, hmin ▸ h'⟩
    · rename_i hlast
      rw [h.length] at hlast
      exact ih h' (by omega) (by omega)

/-- The packets up to `last_ack` leave the board. -/
theorem acknowledge (h : Ring s lo hi v) (hlo : lo ≤ last_ack + 1) :
    ∃ s' r', s.acknowledge last_ack = some (s', r') ∧ Ring s' (min hi (last_ack + 1)) hi v := by
  have hle := h.le
  unfold ScoreBoard.acknowledge
  by_cases hlt : lo < hi
  · rw [h.firstSeq hlt]
    have hlen : s.length_ ≠ 0 := by
      rw [h.length]
      omega
    by_cases hack : lo ≤ last_ack
    · rw [if_pos ⟨hlen, hack⟩]
      exact h.advance hlt (by omega)
    · rw [if_neg fun hc => hack hc.2]
      have hmin : min hi (last_ack + 1) = lo := by omega
      exact ⟨s, 0, rfl, hmin ▸ h⟩
  · have hlen : s.length_ = 0 := by
      rw [h.length]
      omega
    have hmin : min hi (last_ack + 1) = lo := by omega
    rw [if_neg fun hc => hc.1 hlen]
    exact ⟨s, 0, rfl, hmin ▸ h⟩

/-! ## The right edge -/

/-- An entry is created for the next packet. -/
theorem enterOne (h : Ring s lo hi v) (hroom : hi + 1 - lo < s.sbsize_) :
    ∃ s', s.enterOne hi = some s' ∧ s'.sbsize_ = s.sbsize_ ∧ Ring s' lo (hi + 1) v := by
  have hfull : ¬ s.length_ + 1 ≥ s.sbsize_ := by
    rw [h.length]
    omega
  rw [ScoreBoard.enterOne, if_neg hfull]
  refine ⟨_, rfl, rfl, ?_⟩
  constructor
  case first => exact h.first
  case length =>
    show s.length_ + 1 = hi + 1 - lo
    rw [h.length]
    omega
  case le => exact h.le.trans (by omega)
  case lt => exact hroom
  case size => exact h.size
  case window =>
    have hpush := h.window.push h.le (by omega) (fresh hi)
    refine hpush.congr fun i h₁ h₂ => ?_
    by_cases hi' : i = hi
    · subst hi'
      rw [Function.update_self, h.beyond i le_rfl]
    · rw [Function.update_of_ne hi']
  case seq => exact h.seq
  case beyond => exact fun i hi' => h.beyond i (by omega)

theorem enter {k : ℕ} (h : Ring s lo hi v) (hroom : hi + k - lo < s.sbsize_) :
    ∃ s', enter k hi s = some s' ∧ Ring s' lo (hi + k) v := by
  induction k generalizing s hi with
  | zero => exact ⟨s, rfl, by simpa using h⟩
  | succ k ih =>
    push_cast at hroom
    obtain ⟨s₁, hs₁, hsize, h₁⟩ := h.enterOne (by omega)
    obtain ⟨s', hs', h'⟩ := ih h₁ (by omega)
    rw [ScoreBoard.enter, hs₁, Option.bind_some]
    refine ⟨s', hs', ?_⟩
    push_cast
    rwa [add_comm (k : ℤ) 1, ← add_assoc]

/-- An empty board starts again after the cumulative ACK. -/
theorem create (h : Ring s lo lo v) (hack : lo ≤ last_ack + 1) (hne : blocks ≠ []) :
    ∃ s', s.create last_ack blocks = some s' ∧ Ring s' (last_ack + 1) (last_ack + 2) v := by
  have hempty : Ring { s with first_ := last_ack + 1 } (last_ack + 1) (last_ack + 1) v := by
    have hsize := h.size
    have hnonneg := h.window.nonneg
    constructor
    case first => rfl
    case length => exact h.length.trans (by omega)
    case le => exact le_rfl
    case lt =>
      show last_ack + 1 - (last_ack + 1) < s.sbsize_
      omega
    case size => exact hsize
    case window =>
      refine ⟨by omega, ?_, fun i h₁ h₂ => by omega⟩
      show last_ack + 1 ≤ last_ack + 1 + s.sbsize_
      omega
    case seq => exact h.seq
    case beyond => exact fun i hi => h.beyond i (hack.trans hi)
  have hlen : s.length_ = 0 := by rw [h.length, sub_self]
  have hsize := h.size
  rw [ScoreBoard.create, if_pos ⟨hlen, hne⟩]
  obtain ⟨s', hs', -, h'⟩ := hempty.enterOne (by dsimp only; omega)
  refine ⟨s', hs', ?_⟩
  rwa [add_assoc] at h'

/-- Nothing is created on a board that is not empty, or for a packet without blocks. -/
theorem create_of_not (h : Ring s lo hi v) (hnot : lo < hi ∨ blocks = []) :
    s.create last_ack blocks = some s := by
  rw [ScoreBoard.create]
  refine if_neg ?_
  rintro ⟨hlen, hne⟩
  rw [h.length] at hlen
  rcases hnot with hlt | hnil
  · omega
  · exact hne hnil

/-- The ring is copied to one of twice the size. -/
theorem resizeSB {junk : ℤ → ScoreBoardNode} (h : Ring s lo hi v) (hlt : lo < hi) :
    Ring (s.resizeSB junk (s.sbsize_ * 2)) lo hi v := by
  have hroom := h.lt
  have hsize := h.size
  constructor
  case first => exact h.first
  case length => exact h.length
  case le => exact h.le
  case lt =>
    show hi - lo < s.sbsize_ * 2
    omega
  case size =>
    show 2 ≤ s.sbsize_ * 2
    omega
  case window =>
    show Window (s.sbsize_ * 2)
      (copy s.sbsize_ (s.sbsize_ * 2) (s.SBNI s.first_).seq_no_ s.SBN (s.length_ + 1).toNat junk)
      lo hi v
    rw [h.firstSeq hlt, h.length]
    exact h.window.copy h.window.nonneg le_rfl (by omega) (by omega)
  case seq => exact h.seq
  case beyond => exact h.beyond

/-- The ring grows until the packets up to the right edge of the block fit. -/
theorem grow {junk : ℤ → ℤ → ScoreBoardNode} {right : ℤ} {k : ℕ} (h : Ring s lo hi v)
    (hlt : lo < hi) (hk : right - last_ack < s.sbsize_ - 1 + k) :
    ∃ s', grow junk last_ack right k s = some s' ∧ right - last_ack < s'.sbsize_ - 1 ∧
      Ring s' lo hi v := by
  induction k generalizing s with
  | zero =>
    have hfits : ¬ right - last_ack ≥ s.sbsize_ - 1 := by omega
    exact ⟨s, if_neg hfits, by omega, h⟩
  | succ k ih =>
    rw [ScoreBoard.grow]
    by_cases hfits : right - last_ack ≥ s.sbsize_ - 1
    · rw [if_pos hfits]
      refine ih (h.resizeSB hlt) ?_
      have hsize := h.size
      show right - last_ack < s.sbsize_ * 2 - 1 + k
      push_cast at hk
      omega
    · rw [if_neg hfits]
      exact ⟨s, rfl, by omega, h⟩

theorem lastSeq (h : Ring s lo hi v) (hlt : lo < hi) : s.lastSeq = hi - 1 := by
  have hnonneg := h.window.nonneg
  have hslot : (s.first_ + s.length_ + s.sbsize_ - 1).tmod s.sbsize_ = (hi - 1).tmod s.sbsize_ := by
    have hsize := h.size
    have hsum : s.first_ + s.length_ + s.sbsize_ - 1 = hi - 1 + s.sbsize_ := by
      rw [h.first, h.length]
      omega
    rw [hsum, Int.tmod_eq_emod_of_nonneg (by omega), Int.tmod_eq_emod_of_nonneg (by omega),
      Int.add_emod_right]
  have hlast : s.SBNI (s.first_ + s.length_ + s.sbsize_ - 1) = s.SBNI (hi - 1) := by
    rw [ScoreBoard.SBNI, hslot, ScoreBoard.SBNI]
  rw [ScoreBoard.lastSeq, hlast, h.SBNI (by omega) (by omega), h.seq]

/-- The right edge is at least the one of the block. -/
theorem extend {junk : ℤ → ℤ → ScoreBoardNode} {right : ℤ} (h : Ring s (last_ack + 1) hi v)
    (hlt : last_ack + 1 < hi) : ∃ s', s.extend junk last_ack right = some s' ∧
      Ring s' (last_ack + 1) (max hi right) v := by
  rw [ScoreBoard.extend]
  by_cases hright : right > s.lastSeq
  · rw [if_pos hright]
    rw [h.lastSeq hlt] at hright
    have hsize := h.size
    obtain ⟨s₁, hs₁, hfits, h₁⟩ : ∃ s₁, ScoreBoard.grow junk last_ack right
        (right - last_ack).toNat s = some s₁ ∧ right - last_ack < s₁.sbsize_ - 1 ∧
        Ring s₁ (last_ack + 1) hi v := h.grow hlt (by omega)
    rw [hs₁, Option.bind_some, h₁.lastSeq hlt, sub_add_cancel]
    have hmax : hi + ((right - hi).toNat : ℤ) = max hi right := by omega
    have hlo := h.le
    obtain ⟨s', hs', h'⟩ := h₁.enter (k := (right - hi).toNat) (by omega)
    exact ⟨s', hs', hmax ▸ h'⟩
  · rw [if_neg hright]
    rw [h.lastSeq hlt] at hright
    have hmax : max hi right = hi := by omega
    rw [hmax]
    exact ⟨s, rfl, h⟩

/-! ## Blocks -/

/-- Another array with the same entries. -/
theorem congr_entries {v' : ℤ → ScoreBoardNode} (h : Ring s lo hi v)
    (hseq : ∀ i, (v' i).seq_no_ = i) (hbeyond : ∀ i, hi ≤ i → v' i = fresh i)
    (hv : ∀ i, lo ≤ i → i < hi → v i = v' i) : Ring s lo hi v' :=
  ⟨h.first, h.length, h.le, h.lt, h.size, h.window.congr hv, hseq, hbeyond⟩

/-- The entry of a packet changes. -/
theorem set {n : ScoreBoardNode} (h : Ring s lo hi v) (h₁ : lo ≤ i) (h₂ : i < hi)
    (hn : n.seq_no_ = i) : Ring (s.setSBNI i n) lo hi (Function.update v i n) where
  first := h.first
  length := h.length
  le := h.le
  lt := h.lt
  size := h.size
  window := h.window.set h₁ h₂ n
  seq := by
    intro j
    by_cases hj : j = i
    · subst hj
      rw [Function.update_self, hn]
    · rw [Function.update_of_ne hj, h.seq]
  beyond := by
    intro j hj
    rw [Function.update_of_ne (by omega), h.beyond j hj]

end Ring

/-- What a block tells of a packet. -/
def report (b : SackBlock) (n : ScoreBoardNode) : ScoreBoardNode :=
  if b.Covers n.seq_no_ then n.sacked else n

@[simp] theorem report_seq (b : SackBlock) (n : ScoreBoardNode) :
    (report b n).seq_no_ = n.seq_no_ := by
  unfold report
  split <;> rfl

theorem report_of_le {n : ScoreBoardNode} (hn : b.sack_right ≤ n.seq_no_) : report b n = n :=
  if_neg fun hc => absurd hc.2 (not_lt.mpr hn)

/-- What the blocks of a packet tell. -/
def reports (blocks : List SackBlock) (n : ScoreBoardNode) : ScoreBoardNode :=
  blocks.foldl (fun n b => report b n) n

/-- Right edge of a board after the blocks. -/
def edge (hi : ℤ) (blocks : List SackBlock) : ℤ := blocks.foldl (fun h b => max h b.sack_right) hi

namespace Ring

theorem coverOne (h : Ring x.1 lo hi v) (h₁ : lo ≤ i) (h₂ : i < hi) :
    Ring (coverOne b i x).1 lo hi (Function.update v i (report b (v i))) := by
  have hset : Ring (x.1.setSBNI i (report b (v i))) lo hi (Function.update v i (report b (v i))) :=
    h.set h₁ h₂ (by rw [report_seq, h.seq])
  unfold ScoreBoard.coverOne
  dsimp only
  rw [h.SBNI h₁ h₂]
  by_cases hb : b.Covers (v i).seq_no_
  · rw [if_pos hb]
    rw [report, if_pos hb] at hset ⊢
    exact hset.congr rfl rfl rfl rfl
  · rw [if_neg hb, report, if_neg hb, Function.update_eq_self]
    exact h

/-- The entries from `i` on, one after the other. -/
theorem cover {k : ℕ} (h : Ring x.1 lo hi v) (h₁ : lo ≤ i) (h₂ : i + k ≤ hi) :
    Ring (cover b k i x).1 lo hi fun j => if i ≤ j ∧ j < i + k then report b (v j) else v j := by
  induction k generalizing x i v with
  | zero =>
    refine h.congr_entries ?_ ?_ ?_
    · intro j
      split
      · rw [report_seq, h.seq]
      · exact h.seq j
    · intro j hj
      rw [if_neg (by omega), h.beyond j hj]
    · intro j _ _
      rw [if_neg (by omega)]
  | succ k ih =>
    push_cast at h₂
    refine (ih (h.coverOne h₁ (by omega)) (by omega) (by omega)).congr_entries ?_ ?_ ?_
    · intro j
      split
      · rw [report_seq, h.seq]
      · exact h.seq j
    · intro j hj
      rw [if_neg (by push_cast; omega), h.beyond j hj]
    · intro j _ _
      push_cast
      by_cases hj : j = i
      · subst hj
        rw [if_neg (by omega), Function.update_self, if_pos (by omega)]
      · rw [Function.update_of_ne hj]
        exact if_congr (by omega) rfl rfl

/-- One block, on a board that is not empty. -/
theorem block {junk : ℤ → ℤ → ScoreBoardNode} (h : Ring x.1 (last_ack + 1) hi v)
    (hlt : last_ack + 1 < hi) : ∃ x', block junk last_ack x b = some x' ∧
      Ring x'.1 (last_ack + 1) (max hi b.sack_right) fun j => report b (v j) := by
  obtain ⟨s₁, hs₁, h₁⟩ : ∃ s₁, x.1.extend junk last_ack b.sack_right = some s₁ ∧
      Ring s₁ (last_ack + 1) (max hi b.sack_right) v := h.extend hlt
  have hlt' : last_ack + 1 < max hi b.sack_right := by omega
  rw [ScoreBoard.block, hs₁, Option.map_some]
  refine ⟨_, rfl, ?_⟩
  rw [h₁.firstSeq hlt']
  -- the turns end before the right edge of the block, or there are none
  have hk : last_ack + 1 + ((b.sack_right - (last_ack + 1)).toNat : ℤ) ≤ max hi b.sack_right := by
    omega
  refine (Ring.cover (x := (s₁, x.2)) h₁ le_rfl hk).congr_entries ?_ ?_ ?_
  · intro j
    rw [report_seq, h.seq]
  · intro j hj
    rw [h₁.beyond j hj]
    exact report_of_le ((le_max_right _ _).trans hj)
  · intro j hj₁ hj₂
    split
    · rfl
    · exact (report_of_le (by rw [h.seq]; omega)).symm

/-- The blocks of a packet, on a board that is not empty. -/
theorem foldlM_block (junk : ℤ → ℤ → ScoreBoardNode) (h : Ring x.1 (last_ack + 1) hi v)
    (hlt : last_ack + 1 < hi) :
    ∃ x', blocks.foldlM (ScoreBoard.block junk last_ack) x = some x' ∧
      Ring x'.1 (last_ack + 1) (edge hi blocks) fun j => reports blocks (v j) := by
  induction blocks generalizing x hi v with
  | nil => exact ⟨x, rfl, h⟩
  | cons b l ih =>
    obtain ⟨x₁, hx₁, h₁⟩ := h.block hlt
    obtain ⟨x', hx', h'⟩ := ih h₁ (by omega)
    rw [List.foldlM_cons, hx₁]
    exact ⟨x', hx', h'⟩

/-! ## The operations -/

variable (blocks) in
/-- **What `UpdateScoreBoard` does.**  When all entries are acknowledged and the packet has no
blocks, the board is empty.  Else the entries start after the cumulative ACK and reach to the
furthest right edge, and the packets that the blocks cover are sacked. -/
theorem updateScoreBoard (junk : ℤ → ℤ → ScoreBoardNode) (h : Ring s lo hi v)
    (hlo : lo ≤ last_ack + 1) :
    ∃ s' r', s.updateScoreBoard junk last_ack blocks = some (s', r') ∧
      ((hi ≤ last_ack + 1 ∧ blocks = []) ∧ Ring s' hi hi v ∨
        ¬ (hi ≤ last_ack + 1 ∧ blocks = []) ∧
          Ring s' (last_ack + 1) (edge (max hi (last_ack + 2)) blocks)
            fun j => reports blocks (v j)) := by
  have h₀ : Ring { s with changed_ := 0 } lo hi v := h.congr rfl rfl rfl rfl
  obtain ⟨s₁, r₁, hs₁, h₁⟩ := h₀.acknowledge hlo
  rw [ScoreBoard.updateScoreBoard, hs₁]
  simp only [Option.bind_eq_bind, Option.bind_some]
  by_cases hempty : hi ≤ last_ack + 1
  · rw [min_eq_left hempty] at h₁
    by_cases hnil : blocks = []
    · rw [h₁.create_of_not (.inr hnil), hnil]
      exact ⟨s₁, r₁, rfl, .inl ⟨⟨hempty, rfl⟩, h₁⟩⟩
    · obtain ⟨s₂, hs₂, h₂⟩ := h₁.create hempty hnil
      have hmax : max hi (last_ack + 2) = last_ack + 2 := by omega
      rw [hs₂, hmax, Option.bind_some]
      obtain ⟨x', hx', h'⟩ := Ring.foldlM_block (x := (s₂, r₁)) junk h₂ (by omega)
      exact ⟨x'.1, x'.2, hx', .inr ⟨fun hc => hnil hc.2, h'⟩⟩
  · have hlt : last_ack + 1 < hi := not_le.mp hempty
    have hmax : max hi (last_ack + 2) = hi := by omega
    rw [min_eq_right hlt.le] at h₁
    rw [h₁.create_of_not (.inl hlt), hmax, Option.bind_some]
    obtain ⟨x', hx', h'⟩ := Ring.foldlM_block (x := (s₁, r₁)) junk h₁ hlt
    exact ⟨x'.1, x'.2, hx', .inr ⟨fun hc => hempty hc.1, h'⟩⟩

/-- A packet with an entry is marked. -/
theorem markRetran {snd_nxt : Option ℤ} (h : Ring s lo hi v) (h₁ : lo ≤ i) (h₂ : i < hi) :
    Ring (s.markRetran i snd_nxt) lo hi (Function.update v i ((v i).retransmitted snd_nxt)) := by
  rw [ScoreBoard.markRetran, h.SBNI h₁ h₂]
  exact h.set h₁ h₂ (h.seq i)

/-- A packet whose slot is the one of no entry is marked. -/
theorem markRetran_away {snd_nxt : Option ℤ} (h : Ring s lo hi v)
    (hslot : ∀ j, lo ≤ j → j < hi → j.tmod s.sbsize_ ≠ i.tmod s.sbsize_) :
    Ring (s.markRetran i snd_nxt) lo hi v :=
  ⟨h.first, h.length, h.le, h.lt, h.size, h.window.away hslot _, h.seq, h.beyond⟩

/-- `GetNextRetran` is the first packet of the board that is missing, or -1. -/
theorem getNextRetran (h : Ring s lo hi v) :
    (lo ≤ s.getNextRetran ∧ s.getNextRetran < hi ∧ Missing (v s.getNextRetran) ∧
      ∀ j, lo ≤ j → j < s.getNextRetran → ¬ Missing (v j)) ∨
    (s.getNextRetran = -1 ∧ ∀ j, lo ≤ j → j < hi → ¬ Missing (v j)) := by
  rw [ScoreBoard.getNextRetran]
  by_cases hlen : s.length_ ≠ 0
  · have hlt : lo < hi := by
      have hle := h.le
      rw [h.length] at hlen
      omega
    rw [if_pos hlen]
    dsimp only
    rw [h.firstSeq hlt, h.length, List.find?_map]
    cases hfind : (List.range (hi - lo).toNat).find? _ with
    | none =>
      right
      rw [List.find?_range_eq_none] at hfind
      refine ⟨rfl, fun j h₁ h₂ hmissing => ?_⟩
      have hj := hfind (j - lo).toNat (by omega)
      have hcast : lo + ((j - lo).toNat : ℤ) = j := by omega
      simp only [Function.comp_apply, hcast, h.SBNI h₁ h₂, hmissing] at hj
      exact absurd hj (by decide)
    | some k =>
      left
      rw [List.find?_range_eq_some] at hfind
      obtain ⟨hk, hmem, hbefore⟩ := hfind
      rw [List.mem_range] at hmem
      have hkhi : lo + (k : ℤ) < hi := by omega
      show lo ≤ lo + (k : ℤ) ∧ lo + (k : ℤ) < hi ∧ Missing (v (lo + k)) ∧
        ∀ j, lo ≤ j → j < lo + (k : ℤ) → ¬ Missing (v j)
      refine ⟨by omega, hkhi, ?_, fun j h₁ h₂ hmissing => ?_⟩
      · simpa [h.SBNI (i := lo + (k : ℤ)) (by omega) hkhi] using hk
      · have hj := hbefore (j - lo).toNat (by omega)
        have hcast : lo + ((j - lo).toNat : ℤ) = j := by omega
        simp only [Function.comp_apply, hcast, h.SBNI h₁ (h₂.trans hkhi), hmissing] at hj
        exact absurd hj (by decide)
  · rw [if_neg hlen]
    have hle := h.le
    have hzero := not_not.mp hlen
    rw [h.length] at hzero
    exact .inr ⟨rfl, fun j h₁ h₂ => by omega⟩

end Ring

end ScoreBoard

end Ns2.Tcp
