import Ns2.Tcp.SackerEdges

/-!
# The SACK blocks of a sink are sound

* `Sacker.Sound` — what the blocks of an ACK should be.
* `Sacker.Inv` — the invariant: the stack holds maximal runs of packets above the cumulative
  acknowledgment, each once.
* `Sacker.Hidden` — a duplicate gives a D-SACK block, and its run is the block of the stack
  that the loop does not come to and `push` does not lose (or there is room for the D-SACK
  block only).
* `receive_spec` — one packet that is not hidden.
* `blocks_sound` — any packets, none of them hidden.
* `blocks_not_disjoint` — a run in which one block is reported twice.
-/

namespace Ns2.Tcp

open Runs SackStack

namespace Sacker

/-- The blocks of the ACK for packet `x`, when the packets `R` were received and `next` is the
first one missing. -/
structure Sound (base : ℕ) (R : Finset ℕ) (next x : ℕ) (k : Sack) : Prop where
  /-- The blocks cover packets received, above the cumulative acknowledgment. -/
  above : ∀ b ∈ k.blocks, b.left_ < b.right_ ∧
    ∀ i, b.left_ ≤ i → i < b.right_ → i ∈ received R ∧ (next : ℤ) ≤ i
  /-- The first block is the run of the packet. -/
  first : next ≤ x → ∃ b bs, k.blocks = b :: bs ∧ IsRun (received R) b.left_ b.right_ ∧
    b.left_ ≤ x ∧ (x : ℤ) < b.right_
  /-- The blocks are pairwise disjoint. -/
  disjoint : k.blocks.Pairwise fun b b' => b.right_ ≤ b'.left_ ∨ b'.right_ ≤ b.left_
  /-- There are not too many. -/
  length_le : k.saLength ≤ base

/-- The entry is a run of the packets above the cumulative acknowledgment. -/
def Above (R : Finset ℕ) (next : ℕ) (e : Sf_Entry) : Prop :=
  IsRun (received R) e.left_ e.right_ ∧ (next : ℤ) < e.left_

/-- The sacker has received the packets `R`, and its stack holds the blocks `l`. -/
structure Inv (base : ℕ) (R : Finset ℕ) (s : Sacker) (l : List Sf_Entry) : Prop where
  /-- The acker is exact. -/
  exact : ∃ size : ℕ → ℤ, (∀ i, 0 < size i) ∧ Acker.Exact size R s.toAcker
  /-- The number of blocks. -/
  base_nblocks_ : s.base_nblocks_ = base
  /-- The stack has an entry for each. -/
  size_ : s.sf_.size_ = base
  /-- The stack holds the blocks. -/
  holds : s.sf_.Holds l
  /-- Each is a run above the cumulative acknowledgment. -/
  isRun : ∀ e ∈ l, Above R s.next_ e
  /-- No block is there twice. -/
  nodup : l.Nodup

/-- A packet gives a D-SACK block, and its run is not looked at. -/
def Hidden (s : Sacker) (earlier : List ℕ) (p : Arrival) : Prop :=
  p.dsacks = true ∧ p.seqno ∈ earlier ∧ s.next_ < p.seqno ∧
    (s.base_nblocks_ = 1 ∨ (s.sf_.SFE_ (s.base_nblocks_ - 2)).left_ ≤ p.seqno ∧
      (p.seqno : ℤ) < (s.sf_.SFE_ (s.base_nblocks_ - 2)).right_)

variable {base next x : ℕ} {R : Finset ℕ} {s : Sacker} {l V W : List Sf_Entry}
  {e recent : Sf_Entry} {size : ℕ → ℤ}

theorem inv_new (base : ℕ) : Inv base ∅ (new base) [] where
  exact := ⟨fun _ => 1, fun _ => one_pos, Acker.exact_new _⟩
  base_nblocks_ := rfl
  size_ := rfl
  holds := holds_new base
  isRun := by simp
  nodup := List.nodup_nil

/-! ## Blocks that are runs -/

theorem Above.natCast_right (h : Above R next e) {m : ℕ} (htop : ∀ i ∈ R, i ≤ m) :
    e.right_ ≤ m + 1 := by
  obtain ⟨n, hn, heq⟩ := h.1.sub (e.right_ - 1) (by have := h.1.lt; omega) (by omega)
  have := htop n hn
  omega

/-- Two runs that are not the same block are disjoint. -/
theorem Above.disjoint {e' : Sf_Entry} (h : Above R next e) (h' : Above R next e') (hne : e ≠ e') :
    e.right_ ≤ e'.left_ ∨ e'.right_ ≤ e.left_ := by
  rcases h.1.apart h'.1 fun heq => hne (by cases e; cases e'; simp_all) with h | h
  · exact Or.inl h.le
  · exact Or.inr h.le

/-- Runs above the cumulative acknowledgment are sound blocks. -/
theorem sound_of_runs {k : Sack} (hrun : ∀ b ∈ k.blocks, Above R next b) (hnd : k.blocks.Nodup)
    (hfirst : next ≤ x → ∃ b bs, k.blocks = b :: bs ∧ b.left_ ≤ x ∧ (x : ℤ) < b.right_)
    (hlen : k.saLength ≤ base) : Sound base R next x k where
  above b hb := ⟨(hrun b hb).1.lt, fun i h1 h2 =>
    ⟨(hrun b hb).1.sub i h1 h2, (hrun b hb).2.le.trans h1⟩⟩
  first hle := by
    obtain ⟨b, bs, heq, hb⟩ := hfirst hle
    exact ⟨b, bs, heq, (hrun b (by rw [heq]; exact List.mem_cons_self)).1, hb⟩
  disjoint := List.Pairwise.imp_of_mem
    (fun {b b'} hb hb' hne => (hrun b hb).disjoint (hrun b' hb') hne) hnd
  length_le := hlen

/-- After packet `x` a run that the run of `x` does not cover is still a run. -/
theorem isRun_of_not_covers (h : IsRun (received R) e.left_ e.right_)
    (hr : IsRun (received (insert x R)) recent.left_ recent.right_)
    (hx : recent.left_ ≤ x ∧ (x : ℤ) < recent.right_) (hnot : covers recent e = false) :
    IsRun (received (insert x R)) e.left_ e.right_ := by
  rw [received_insert] at hr ⊢
  refine (h.covered_or hr hx).resolve_left fun hcov => ?_
  have hc : covers recent e = true := by simpa [covers] using hcov
  rw [hnot] at hc
  cases hc

theorem covers_self (e : Sf_Entry) : covers e e = true := by simp [covers]

/-- A block in front of blocks that it does not cover. -/
theorem nodup_cons_of_not_covers (hnd : l.Nodup) (hnot : ∀ e ∈ l, covers recent e = false) :
    (recent :: l).Nodup := by
  refine List.nodup_cons.mpr ⟨fun hin => ?_, hnd⟩
  have := hnot recent hin
  rw [covers_self] at this
  cases this

theorem not_covers_of_filter (he : e ∈ l.filter fun e => !covers recent e) :
    covers recent e = false := by
  simpa using (List.mem_filter.mp he).2

/-! ## The blocks of one ACK -/

/-- The block of a packet above the cumulative acknowledgment. -/
def recentOf (a : Acker) (x : ℕ) : Sf_Entry := ⟨sackLeft a (sackRight a x), sackRight a x⟩

/-- For a packet above the cumulative acknowledgment its block comes first, and is put on the
stack in place of what it covers. -/
theorem appendBlocks_above (dsack : List Sf_Entry) (hbase : s.base_nblocks_ = base)
    (hsz : s.sf_.size_ = base) (hpos : dsack.length < base) (hl : s.sf_.Holds l)
    (hin : ∀ e ∈ l, 0 ≤ e.left_ ∧ 0 ≤ e.right_ ∧ e.right_ ≤ s.maxseen_ + 1)
    (hx : s.next_ ≤ x) :
    ∃ V W sf', l = V ++ W ∧
      s.appendBlocks dsack x = some ({ s with sf_ := sf' },
        ⟨dsack, recentOf s.toAcker x :: V.filter fun e => !covers (recentOf s.toAcker x) e⟩) ∧
      sf'.Holds (recentOf s.toAcker x ::
        (V.filter (fun e => !covers (recentOf s.toAcker x) e) ++ W).take (base - 1)) ∧
      sf'.size_ = base ∧
      dsack.length + 1 + (V.filter fun e => !covers (recentOf s.toAcker x) e).length ≤ base ∧
      (W = [] ∨
        base ≤ dsack.length + 1 + (V.filter fun e => !covers (recentOf s.toAcker x) e).length) := by
  have hgt : (x : ℤ) > s.toAcker.seqno := by
    unfold Acker.seqno
    omega
  obtain ⟨V, W, sf', hVW, hrun, hholds, hsize, hbound, hend⟩ :=
    others_spec base (recentOf s.toAcker x) l hin (base + s.sf_.cnt_ + 1)
      (dsack.length + 1) [] s.sf_ hl (by rw [hl.cnt_]; omega)
  rw [hsz] at hsize
  refine ⟨V, W, (sf'.push 0).setHead (recentOf s.toAcker x), hVW, ?_, ?_, hsize, by omega, hend⟩
  · unfold appendBlocks
    simp only [if_neg (not_le.mpr hgt), if_pos hgt, hbase]
    rw [show ([] : List Sf_Entry).length = 0 from rfl] at hrun
    show (others base s.maxseen_ (recentOf s.toAcker x) _ (dsack.length + 1) 0 s.sf_).map _ = _
    rw [hrun, Option.map_some]
    rfl
  · have hpush := hholds.push (by omega) (recentOf s.toAcker x)
    rwa [hsize, List.nil_append] at hpush

/-- For a packet below there is no block of its own, and what the stack keeps is reported. -/
theorem appendBlocks_below (dsack : List Sf_Entry) (hbase : s.base_nblocks_ = base)
    (hsz : s.sf_.size_ = base) (hpos : dsack.length < base) (hl : s.sf_.Holds l)
    (hin : ∀ e ∈ l, 0 ≤ e.left_ ∧ 0 ≤ e.right_ ∧ e.right_ ≤ s.maxseen_ + 1)
    (hx : x < s.next_) :
    ∃ V W sf', l = V ++ W ∧
      s.appendBlocks dsack x = some ({ s with sf_ := sf' },
        ⟨dsack, V.filter fun e => !covers ⟨0, sackRight s.toAcker x⟩ e⟩) ∧
      sf'.Holds (V.filter (fun e => !covers ⟨0, sackRight s.toAcker x⟩ e) ++ W) ∧
      sf'.size_ = base ∧
      dsack.length + (V.filter fun e => !covers ⟨0, sackRight s.toAcker x⟩ e).length ≤ base ∧
      (W = [] ∨
        base ≤ dsack.length + (V.filter fun e => !covers ⟨0, sackRight s.toAcker x⟩ e).length) := by
  have hle : (x : ℤ) ≤ s.toAcker.seqno := by
    unfold Acker.seqno
    omega
  obtain ⟨V, W, sf', hVW, hrun, hholds, hsize, hbound, hend⟩ :=
    others_spec base ⟨0, sackRight s.toAcker x⟩ l hin (base + s.sf_.cnt_ + 1)
      dsack.length [] s.sf_ hl (by rw [hl.cnt_]; omega)
  refine ⟨V, W, sf', hVW, ?_, by simpa using hholds, hsize.trans hsz, by omega, hend⟩
  unfold appendBlocks
  simp only [if_pos hle, if_neg (not_lt.mpr hle), hbase]
  rw [show ([] : List Sf_Entry).length = 0 from rfl] at hrun
  show (others base s.maxseen_ ⟨0, sackRight s.toAcker x⟩ _ dsack.length 0 s.sf_).map _ = _
  rw [hrun, Option.map_some]
  rfl

/-! ## One packet -/

/-- The edges of a run above the cumulative acknowledgment pass for a block of the window. -/
theorem Above.edges (h : Above R next e) {m : ℕ} (htop : ∀ i ∈ R, i ≤ m) :
    0 ≤ e.left_ ∧ 0 ≤ e.right_ ∧ e.right_ ≤ m + 1 := by
  have hlt := h.1.lt
  have hnext := h.2
  exact ⟨by omega, by omega, h.natCast_right htop⟩

/-- What `append_ack` finds after `update`: the stack is as before, and the packet is in. -/
structure Updated (base : ℕ) (R : Finset ℕ) (s : Sacker) (x : ℕ) (s' : Sacker)
    (l : List Sf_Entry) (size : ℕ → ℤ) : Prop where
  /-- The invariant before. -/
  inv : Inv base R s l
  /-- Sizes are positive. -/
  size_pos : ∀ i, 0 < size i
  /-- The acker has taken the packet. -/
  taken : Acker.Taken size R x s.toAcker s'.toAcker
  /-- The number of blocks is the same. -/
  base_eq : s'.base_nblocks_ = s.base_nblocks_
  /-- The stack is the same. -/
  sf_eq : s'.sf_ = s.sf_

variable {s' : Sacker}

namespace Updated

/-- The blocks of the stack fit into the new window. -/
theorem edges (h : Updated base R s x s' l size) :
    ∀ e ∈ l, 0 ≤ e.left_ ∧ 0 ≤ e.right_ ∧ e.right_ ≤ s'.maxseen_ + 1 := fun e he =>
  (h.inv.isRun e he).edges fun i hi => h.taken.exact.le_maxseen i (Finset.mem_insert_of_mem hi)

/-- A packet above the cumulative acknowledgment was above it before, and does not move it. -/
theorem next_eq (h : Updated base R s x s' l size) (hx : x ≠ s.next_) : s'.next_ = s.next_ := by
  obtain ⟨size₀, -, hex⟩ := h.inv.exact
  refine le_antisymm (h.taken.exact.point.2 fun hmem => ?_) h.taken.next_le
  rcases Finset.mem_insert.mp hmem with heq | hmem
  · exact hx heq.symm
  · exact hex.point.1 hmem

/-- The block of a packet above the cumulative acknowledgment is its run. -/
theorem above_recentOf (h : Updated base R s x s' l size) (hx : s'.next_ ≤ x) :
    Above (insert x R) s'.next_ (recentOf s'.toAcker x) ∧
      (recentOf s'.toAcker x).left_ ≤ x ∧ (x : ℤ) < (recentOf s'.toAcker x).right_ := by
  obtain ⟨hrun, hnext, hmem⟩ := isRun_recent h.size_pos h.taken.exact (Finset.mem_insert_self x R) hx
  exact ⟨⟨hrun, hnext⟩, hmem⟩

/-- The blocks of the stack that the block of the packet does not cover are runs still. -/
theorem above_of_not_covers (h : Updated base R s x s' l size) (hx : s'.next_ ≤ x) (he : e ∈ l)
    (hnot : covers (recentOf s'.toAcker x) e = false) : Above (insert x R) s'.next_ e := by
  obtain ⟨hrec, hmem⟩ := h.above_recentOf hx
  have hne : x ≠ s.next_ := by
    rintro rfl
    have hnext := h.taken.next_le
    have hmiss := h.taken.exact.point.1
    rw [show s'.next_ = s.next_ by omega] at hmiss
    exact hmiss (Finset.mem_insert_self _ R)
  refine ⟨isRun_of_not_covers (h.inv.isRun e he).1 hrec.1 hmem hnot, ?_⟩
  rw [h.next_eq hne]
  exact (h.inv.isRun e he).2

/-- A duplicate with a D-SACK block that is not hidden: the stack keeps no copy of its run. -/
theorem not_covers_of_seen (h : Updated base R s x s' l size) (hx : s'.next_ ≤ x) (hdup : x ∈ R)
    (hnot : ¬ ((s.sf_.SFE_ (base - 2)).left_ ≤ x ∧ (x : ℤ) < (s.sf_.SFE_ (base - 2)).right_))
    (hl : l = V ++ e :: W)
    (hlen : (V.filter fun e => !covers (recentOf s'.toAcker x) e).length = base - 2) :
    covers (recentOf s'.toAcker x) e = false := by
  obtain ⟨hrec, hmem⟩ := h.above_recentOf hx
  rw [Finset.insert_eq_of_mem hdup] at hrec
  -- a block that is covered is the run of the packet
  have hcov : ∀ e' ∈ l, covers (recentOf s'.toAcker x) e' = true → e' = recentOf s'.toAcker x := by
    intro e' he' hc
    have hlt := (h.inv.isRun e' he').1.lt
    have hc : (recentOf s'.toAcker x).left_ ≤ e'.left_ ∧
      (recentOf s'.toAcker x).right_ ≥ e'.right_ := by simpa [covers] using hc
    have hsame := (h.inv.isRun e' he').1.unique hrec.1 (x := e'.left_) ⟨le_rfl, hlt⟩ ⟨hc.1, by omega⟩
    cases e'
    exact congrArg₂ Sf_Entry.mk hsame.1 hsame.2
  by_contra htrue
  rw [Bool.not_eq_false] at htrue
  have heq := hcov e (by rw [hl]; simp) htrue
  by_cases hall : ∀ v ∈ V, (!covers (recentOf s'.toAcker x) v) = true
  · -- nothing was popped: the block is the one at `base - 2`
    rw [List.filter_eq_self.mpr hall] at hlen
    refine hnot ?_
    rw [h.inv.holds.entry, hl, ← hlen, List.getElem?_append_right le_rfl, Nat.sub_self]
    show e.left_ ≤ x ∧ (x : ℤ) < e.right_
    rwa [heq]
  · -- the block popped is the same block
    push Not at hall
    obtain ⟨v, hv, hcv⟩ := hall
    have hveq := hcov v (by rw [hl]; simp [hv]) (by simpa using hcv)
    have hnd := h.inv.nodup
    rw [hl] at hnd
    exact List.disjoint_of_nodup_append hnd hv (by rw [hveq, heq]; exact List.mem_cons_self)

/-- What goes on the stack below the block of the packet is not covered by it: the loop comes to
all of it, but for one block where there is a D-SACK block. -/
theorem not_covers_of_kept (h : Updated base R s x s' l size) (hx : s'.next_ ≤ x) {d : ℕ}
    (hl : l = V ++ W)
    (hbound : d + 1 + (V.filter fun e => !covers (recentOf s'.toAcker x) e).length ≤ base)
    (hend : W = [] ∨
      base ≤ d + 1 + (V.filter fun e => !covers (recentOf s'.toAcker x) e).length)
    (hd : d = 0 ∨ d = 1 ∧ x ∈ R ∧ ¬ ((s.sf_.SFE_ (base - 2)).left_ ≤ x ∧
      (x : ℤ) < (s.sf_.SFE_ (base - 2)).right_)) :
    ∀ e ∈ (V.filter (fun e => !covers (recentOf s'.toAcker x) e) ++ W).take (base - 1),
      covers (recentOf s'.toAcker x) e = false := by
  intro e he
  rw [List.take_append] at he
  rcases List.mem_append.mp he with he | he
  · exact not_covers_of_filter (List.mem_of_mem_take he)
  rcases hend with rfl | hfull
  · simp at he
  rcases hd with rfl | ⟨rfl, hdup, hnot⟩
  · rw [show base - 1 - (V.filter fun e => !covers (recentOf s'.toAcker x) e).length = 0 by
      omega] at he
    simp at he
  · rw [show base - 1 - (V.filter fun e => !covers (recentOf s'.toAcker x) e).length = 1 by
      omega] at he
    cases W with
    | nil => simp at he
    | cons w W =>
      obtain rfl : e = w := by simpa using he
      exact h.not_covers_of_seen hx hdup hnot hl (by omega)

/-- The invariant afterwards, for a stack of runs. -/
theorem inv_of_runs (h : Updated base R s x s' l size) {sf' : SackStack} {l' : List Sf_Entry}
    (hsz : sf'.size_ = base) (hl' : sf'.Holds l')
    (hrun : ∀ e ∈ l', Above (insert x R) s'.next_ e) (hnd : l'.Nodup) :
    Inv base (insert x R) { s' with sf_ := sf' } l' where
  exact := ⟨size, h.size_pos, h.taken.exact⟩
  base_nblocks_ := h.base_eq.trans h.inv.base_nblocks_
  size_ := hsz
  holds := hl'
  isRun := hrun
  nodup := hnd

/-- A duplicate changes neither the packets received nor the window. -/
theorem isRun_of_mem (h : Updated base R s x s' l size) (hdup : x ∈ R) :
    ∀ e ∈ l, Above (insert x R) s'.next_ e := by
  obtain ⟨size₀, -, hex⟩ := h.inv.exact
  have hne : x ≠ s.next_ := fun heq => hex.point.1 (heq ▸ hdup)
  rw [Finset.insert_eq_of_mem hdup, h.next_eq hne]
  exact h.inv.isRun

theorem size_eq (h : Updated base R s x s' l size) : s'.sf_.size_ = base := by
  rw [h.sf_eq]
  exact h.inv.size_

theorem holds' (h : Updated base R s x s' l size) : s'.sf_.Holds l := by
  rw [h.sf_eq]
  exact h.inv.holds

/-- The ACK of a packet above the cumulative acknowledgment. -/
theorem appendAck_above (h : Updated base R s x s' l size) (hbase : 1 ≤ base) (d : Bool)
    (hx : s'.next_ ≤ x)
    (hnot : ¬ (d = true ∧ x ∈ R ∧ (base = 1 ∨ (s.sf_.SFE_ (base - 2)).left_ ≤ x ∧
      (x : ℤ) < (s.sf_.SFE_ (base - 2)).right_))) :
    ∃ s'' k l', s'.appendAck d x = some (s'', k) ∧ Inv base (insert x R) s'' l' ∧
      s''.next_ = s'.next_ ∧ Sound base (insert x R) s''.next_ x k := by
  have hxle := h.taken.exact.le_maxseen x (Finset.mem_insert_self x R)
  have hseq : ¬ s'.toAcker.seqno ≥ s'.maxseen_ := by
    unfold Acker.seqno
    omega
  have hb := h.base_eq.trans h.inv.base_nblocks_
  obtain ⟨dsack, hdsack⟩ : ∃ dsack : List Sf_Entry, dsack =
    if d = true ∧ s'.is_dup_ = true then [⟨x, x + 1⟩] else [] := ⟨_, rfl⟩
  have hisdup : s'.is_dup_ = true ↔ x ∈ R := by rw [h.taken.is_dup_, decide_eq_true_eq]
  have hdlen : dsack.length < base := by
    rw [hdsack]
    split
    · rename_i hdup
      have hne : base ≠ 1 := fun h1 => hnot ⟨hdup.1, hisdup.mp hdup.2, Or.inl h1⟩
      show 1 < base
      omega
    · exact hbase
  obtain ⟨V, W, sf', hVW, hrun, hholds, hsz, hbound, hend⟩ :=
    appendBlocks_above dsack hb h.size_eq hdlen h.holds' h.edges hx
  obtain ⟨hrec, hmem⟩ := h.above_recentOf hx
  have hone : dsack.length = 0 ∨ dsack.length = 1 ∧ x ∈ R ∧
      ¬ ((s.sf_.SFE_ (base - 2)).left_ ≤ x ∧ (x : ℤ) < (s.sf_.SFE_ (base - 2)).right_) := by
    rw [hdsack]
    split
    · rename_i hdup
      have hmemR := hisdup.mp hdup.2
      exact Or.inr ⟨rfl, hmemR, fun hin => hnot ⟨hdup.1, hmemR, Or.inr hin⟩⟩
    · exact Or.inl rfl
  have hclear := h.not_covers_of_kept hx hVW hbound hend hone
  have hsub : ((V.filter (fun e => !covers (recentOf s'.toAcker x) e) ++ W).take (base - 1)).Sublist l := by
    rw [hVW]
    exact (List.take_sublist _ _).trans
      (List.Sublist.append List.filter_sublist (List.Sublist.refl W))
  have hruns : ∀ e ∈ l, covers (recentOf s'.toAcker x) e = false → Above (insert x R) s'.next_ e :=
    fun e he hc => h.above_of_not_covers hx he hc
  have happend : s'.appendAck d x = s'.appendBlocks dsack x := by
    unfold appendAck
    simp only [← hdsack]
    rw [if_neg fun hin => hseq hin.1, if_pos ⟨Or.inl (by omega), by omega⟩, if_neg (by omega)]
  refine ⟨_, _, _, happend.trans hrun, h.inv_of_runs hsz hholds ?_ ?_, rfl, ?_⟩
  · intro e he
    rcases List.mem_cons.mp he with rfl | he
    · exact hrec
    · exact hruns e (hsub.subset he) (hclear e he)
  · exact nodup_cons_of_not_covers (h.inv.nodup.sublist hsub) hclear
  · have hVsub : (V.filter fun e => !covers (recentOf s'.toAcker x) e).Sublist l := by
      rw [hVW]
      exact List.filter_sublist.trans (List.sublist_append_left V W)
    refine sound_of_runs (fun b hb => ?_) ?_ (fun _ => ⟨_, _, rfl, hmem⟩) ?_
    · rcases List.mem_cons.mp hb with rfl | hb
      · exact hrec
      · exact hruns b (hVsub.subset hb) (not_covers_of_filter hb)
    · exact nodup_cons_of_not_covers (h.inv.nodup.sublist hVsub) fun e he => not_covers_of_filter he
    · show dsack.length + (List.length _ + 1) ≤ base
      omega

/-- What the stack keeps after a packet that is not above the cumulative acknowledgment. -/
theorem above_of_below (h : Updated base R s x s' l size) {d : ℕ} (hx : x < s'.next_)
    (hVW : l = V ++ W) (hd : x ∉ R → d = 0)
    (hend : W = [] ∨
      base ≤ d + (V.filter fun e => !covers ⟨0, sackRight s'.toAcker x⟩ e).length) :
    ∀ e ∈ V.filter (fun e => !covers ⟨0, sackRight s'.toAcker x⟩ e) ++ W,
      Above (insert x R) s'.next_ e := by
  obtain ⟨size₀, hsize₀, hex⟩ := h.inv.exact
  by_cases heq : x = s.next_
  · -- the packet expected: the loop comes to every block
    have hmiss : x ∉ R := heq ▸ hex.point.1
    have hW : W = [] := by
      have hle := h.inv.holds.length_le
      have hfilter := List.length_filter_le (fun e => !covers ⟨0, sackRight s'.toAcker x⟩ e) V
      rw [h.inv.size_, hVW, List.length_append] at hle
      refine hend.elim id fun hfull => List.length_eq_zero_iff.mp ?_
      have := hd hmiss
      omega
    subst hW
    obtain ⟨hrun, hmem, hright⟩ := isRun_inOrder h.size_pos h.taken.exact
      (Finset.mem_insert_self x R) (heq ▸ h.taken.slid heq.symm.le) hx
    intro e he
    rw [List.append_nil] at he
    obtain ⟨heV, hnot⟩ := List.mem_filter.mp he
    have hel : e ∈ l := by
      rw [hVW]
      exact List.mem_append_left _ heV
    have hnot : covers ⟨0, sackRight s'.toAcker x⟩ e = false := by simpa using hnot
    have hkeep := isRun_of_not_covers (h.inv.isRun e hel).1 hrun ⟨Int.natCast_nonneg x, hmem⟩ hnot
    have hlt := hkeep.lt
    have hpos := (h.inv.isRun e hel).2
    refine ⟨hkeep, ?_⟩
    rcases hrun.apart hkeep (fun hsame => by omega) with hafter | hbefore
    · omega
    · omega
  · -- a packet received before: the block of the packet covers nothing
    have hnext := h.next_eq heq
    have hdup : x ∈ R := by
      by_contra hmiss
      exact absurd (hex.point.2 hmiss) (by omega)
    intro e he
    refine h.isRun_of_mem hdup e ?_
    rw [hVW]
    exact (List.Sublist.append List.filter_sublist (List.Sublist.refl W)).subset he

/-- The ACK of a packet that is not above the cumulative acknowledgment. -/
theorem appendAck_below (h : Updated base R s x s' l size) (hbase : 1 ≤ base) (d : Bool)
    (hx : x < s'.next_) :
    ∃ s'' k l', s'.appendAck d x = some (s'', k) ∧ Inv base (insert x R) s'' l' ∧
      s''.next_ = s'.next_ ∧ Sound base (insert x R) s''.next_ x k := by
  have hb := h.base_eq.trans h.inv.base_nblocks_
  have hisdup : s'.is_dup_ = true ↔ x ∈ R := by rw [h.taken.is_dup_, decide_eq_true_eq]
  have hnone : ∀ k : Sack, k.blocks = [] → k.saLength ≤ base →
      Sound base (insert x R) s'.next_ x k := fun k hk hlen =>
    sound_of_runs (by simp [hk]) (by simp [hk]) (fun hle => absurd hx (not_lt.mpr hle)) hlen
  have hcnt := h.holds'.cnt_
  unfold appendAck
  simp only
  split
  · -- nothing is missing below the highest packet
    exact ⟨_, _, [], rfl, h.inv_of_runs (show s'.sf_.reset.size_ = base from h.size_eq)
      h.holds'.reset (by simp) List.nodup_nil, rfl, hnone _ rfl (Nat.zero_le _)⟩
  · split
    · obtain ⟨dsack, hdsack⟩ : ∃ dsack : List Sf_Entry, dsack =
        if d = true ∧ s'.is_dup_ = true then [⟨x, x + 1⟩] else [] := ⟨_, rfl⟩
      simp only [← hdsack]
      have hdlen : dsack.length ≤ 1 ∧ (x ∉ R → dsack.length = 0) := by
        rw [hdsack]
        split
        · rename_i hdup
          exact ⟨le_rfl, fun hmiss => absurd (hisdup.mp hdup.2) hmiss⟩
        · exact ⟨Nat.zero_le _, fun _ => rfl⟩
      split
      · -- there is only room for the D-SACK block
        rename_i hfull
        have hdup : x ∈ R := by
          by_contra hmiss
          have := hdlen.2 hmiss
          omega
        refine ⟨_, _, l, rfl, h.inv_of_runs h.size_eq h.holds' (h.isRun_of_mem hdup) h.inv.nodup, rfl,
          hnone _ rfl ?_⟩
        show dsack.length + 0 ≤ base
        omega
      · rename_i hroom
        obtain ⟨V, W, sf', hVW, hrun, hholds, hsz, hbound, hend⟩ :=
          appendBlocks_below dsack hb h.size_eq (by omega) h.holds' h.edges hx
        have hruns := h.above_of_below hx hVW hdlen.2 hend
        have hnd : (V.filter (fun e => !covers ⟨0, sackRight s'.toAcker x⟩ e) ++ W).Nodup := by
          have hall := h.inv.nodup
          rw [hVW] at hall
          exact hall.sublist (List.Sublist.append List.filter_sublist (List.Sublist.refl W))
        refine ⟨_, _, _, hrun, h.inv_of_runs hsz hholds hruns hnd, rfl, ?_⟩
        refine sound_of_runs (fun b hb => hruns b (List.mem_append_left _ hb))
          (hnd.sublist (List.sublist_append_left _ W)) (fun hle => absurd hx (not_lt.mpr hle)) hbound
    · -- no packet above is known
      rename_i hreset hnot
      have hempty : l = [] := by
        by_contra hne
        have hpos := List.length_pos_of_ne_nil hne
        refine hreset ⟨?_, by omega⟩
        by_contra hlt
        exact hnot ⟨Or.inl (by omega), by omega⟩
      subst hempty
      exact ⟨_, _, [], rfl, h.inv_of_runs h.size_eq h.holds' (by simp) List.nodup_nil, rfl,
        hnone _ rfl (Nat.zero_le _)⟩

end Updated

/-- **One packet.**  The invariant is kept, and the blocks of the ACK are sound, unless the
packet is hidden. -/
theorem receive_spec {earlier : List ℕ} (h : Inv base earlier.toFinset s l) (hbase : 1 ≤ base)
    (p : Arrival) (hnot : ¬ Hidden s earlier p) :
    ∃ s' k l', s.receive p = some (s', k) ∧ Inv base (insert p.seqno earlier.toFinset) s' l' ∧
      Sound base (insert p.seqno earlier.toFinset) s'.next_ p.seqno k := by
  obtain ⟨size, hsize, hex⟩ := h.exact
  obtain ⟨a', hupd, htaken⟩ := Acker.update_spec hsize hex p.seqno p.numBytes_pos
  have hpos : ∀ i, 0 < Function.update size p.seqno p.numBytes i := fun i => by
    rcases eq_or_ne i p.seqno with rfl | hne
    · rw [Function.update_self]
      exact p.numBytes_pos
    · rw [Function.update_of_ne hne]
      exact hsize i
  have hu : Updated base earlier.toFinset s p.seqno { s with toAcker := a' } l
      (Function.update size p.seqno p.numBytes) := ⟨h, hpos, htaken, rfl, rfl⟩
  have hreceive : s.receive p = appendAck { s with toAcker := a' } p.dsacks p.seqno := by
    unfold receive
    rw [hupd, Option.bind_some]
  rw [hreceive]
  by_cases hx : a'.next_ ≤ p.seqno
  · have hne : a'.next_ ≠ p.seqno := fun heq =>
      htaken.exact.point.1 (heq ▸ Finset.mem_insert_self _ _)
    have hnext := htaken.next_le
    obtain ⟨s', k, l', happ, hinv, hsame, hsound⟩ := hu.appendAck_above hbase p.dsacks hx
      fun ⟨hd, hmem, hor⟩ => hnot ⟨hd, List.mem_toFinset.mp hmem, by omega, by
        rw [h.base_nblocks_]
        exact hor⟩
    exact ⟨s', k, l', happ, hinv, hsound⟩
  · obtain ⟨s', k, l', happ, hinv, hsame, hsound⟩ :=
      hu.appendAck_below hbase p.dsacks (not_le.mp hx)
    exact ⟨s', k, l', happ, hinv, hsound⟩

/-! ## Runs -/

theorem run_append (base : ℕ) (ps : List Arrival) (p : Arrival) :
    run base (ps ++ [p]) = (run base ps).bind fun r =>
      (r.1.receive p).map fun r' => (r'.1, r.2 ++ [r'.2]) := by
  unfold run
  rw [List.foldlM_append]
  cases ps.foldlM (fun r p => (r.1.receive p).map fun r' => (r'.1, r.2 ++ [r'.2])) (new base, [])
    with
  | none => rfl
  | some r =>
    exact Option.bind_fun_some _

/-- None of the packets is hidden when it arrives. -/
def Clear (base : ℕ) (ps : List Arrival) : Prop :=
  ∀ pre p post s ks, ps = pre ++ p :: post → run base pre = some (s, ks) →
    ¬ Hidden s (pre.map Arrival.seqno) p

theorem Clear.left {ps : List Arrival} {p : Arrival} (h : Clear base (ps ++ [p])) :
    Clear base ps := by
  intro pre q post s ks heq
  exact h pre q (post ++ [p]) s ks (by rw [heq]; simp)

/-- A run without hidden packets keeps the invariant. -/
theorem run_spec (hbase : 1 ≤ base) (ps : List Arrival) (h : Clear base ps) :
    ∃ s ks l, run base ps = some (s, ks) ∧ Inv base (ps.map Arrival.seqno).toFinset s l := by
  induction ps using List.reverseRecOn with
  | nil => exact ⟨_, _, [], rfl, by simpa using inv_new base⟩
  | append_singleton ps p ih =>
    obtain ⟨s, ks, l, hrun, hinv⟩ := ih h.left
    obtain ⟨s', k, l', hrec, hinv', -⟩ := receive_spec hinv hbase p (h ps p [] s ks rfl hrun)
    refine ⟨s', ks ++ [k], l', ?_, ?_⟩
    · rw [run_append, hrun, Option.bind_some, hrec]
      rfl
    · rw [List.map_append, List.toFinset_append, Finset.union_comm]
      simpa using hinv'

/-- **The blocks of every ACK are sound.**  Packets arrive in any order and with any copies,
and none is hidden: it is not a duplicate above the cumulative acknowledgment that gets a
D-SACK block while its run is the block of the stack at `base - 2`, or while there is room for
one block only.  Then in the ACK of each packet the blocks other than the D-SACK block cover
packets received above the cumulative acknowledgment, the first is the maximal run of the
packet if that is above, they are disjoint, and there are no more than `base` blocks. -/
theorem blocks_sound (base : ℕ) (ps : List Arrival) (hbase : 1 ≤ base) (h : Clear base ps) :
    ∀ pre p post, ps = pre ++ p :: post → ∃ s ks k, run base (pre ++ [p]) = some (s, ks ++ [k]) ∧
      IsLeast {n | n ∉ (pre ++ [p]).map Arrival.seqno} s.next_ ∧
      Sound base ((pre ++ [p]).map Arrival.seqno).toFinset s.next_ p.seqno k := by
  intro pre p post heq
  have hpre : Clear base pre := fun pre' q post' s ks heq' =>
    h pre' q (post' ++ p :: post) s ks (by rw [heq, heq']; simp)
  obtain ⟨s, ks, l, hrun, hinv⟩ := run_spec hbase pre hpre
  obtain ⟨s', k, l', hrec, hinv', hsound⟩ :=
    receive_spec hinv hbase p (h pre p post s ks heq hrun)
  have hset : ((pre ++ [p]).map Arrival.seqno).toFinset
      = insert p.seqno (pre.map Arrival.seqno).toFinset := by
    rw [List.map_append, List.toFinset_append, Finset.union_comm]
    rfl
  refine ⟨s', ks, k, ?_, ?_, ?_⟩
  · rw [run_append, hrun, Option.bind_some, hrec]
    rfl
  · obtain ⟨size, -, hex⟩ := hinv'.exact
    have hpoint := hex.point
    rw [← hset] at hpoint
    simp only [List.mem_toFinset] at hpoint
    exact hpoint
  · rwa [hset]

/-- The packet with the sequence number, of 1000 bytes, for a sink that sends D-SACK blocks. -/
def arrival (seqno : ℕ) : Arrival := ⟨seqno, 1000, true, by decide⟩

/-- Packet 2 twice, with three blocks: the duplicate is not hidden. -/
theorem blocks_sound_duplicate : ∃ s ks k, run 3 ([2, 2].map arrival) = some (s, ks ++ [k]) ∧
    s.next_ = 0 ∧ Sound 3 {2} s.next_ 2 k := by
  have hclear : Clear 3 ([2, 2].map arrival) := by
    rintro (_ | ⟨q, _ | ⟨q', pre⟩⟩) p post s ks heq hrun ⟨-, hmem, -, hstack⟩
    · cases hmem
    · obtain rfl : q = arrival 2 := (List.cons.inj heq).1.symm
      obtain rfl : p = arrival 2 := (List.cons.inj (List.cons.inj heq).2).1.symm
      have hentry : (run 3 [arrival 2]).map
          (fun r => (r.1.base_nblocks_, r.1.sf_.SFE_ (r.1.base_nblocks_ - 2)))
            = some (3, Sf_Entry.unused) := by decide +kernel
      rw [hrun, Option.map_some, Option.some_inj, Prod.mk_inj] at hentry
      rcases hstack with hone | hin
      · rw [hentry.1] at hone
        exact absurd hone (by decide)
      · rw [hentry.2] at hin
        exact absurd hin.2 (by decide)
    · have hlen := congrArg List.length heq
      simp at hlen
  obtain ⟨s, ks, k, hrun, hleast, hsound⟩ := blocks_sound 3 ([2, 2].map arrival) (by decide) hclear
    [arrival 2] (arrival 2) [] rfl
  exact ⟨s, ks, k, hrun, hleast.unique ⟨by decide, fun n _ => Nat.zero_le n⟩, hsound⟩

/-- Packets 2 and 4, packet 2 once more, and packet 0, with three blocks: the last ACK reports
the block of packet 2 twice. -/
theorem blocks_not_disjoint : ¬ ∀ (base : ℕ) (ps : List Arrival), 1 ≤ base →
    ∀ pre p post, ps = pre ++ p :: post → ∃ s ks k, run base (pre ++ [p]) = some (s, ks ++ [k]) ∧
      Sound base ((pre ++ [p]).map Arrival.seqno).toFinset s.next_ p.seqno k := by
  intro hclaim
  obtain ⟨s, ks, k, hrun, hsound⟩ := hclaim 3 ([2, 4, 2, 0].map arrival) (by decide)
    ([2, 4, 2].map arrival) (arrival 0) [] rfl
  have hlast : (run 3 ([2, 4, 2].map arrival ++ [arrival 0])).map (fun r => r.2.getLast?)
      = some (some ⟨[], [⟨2, 3⟩, ⟨4, 5⟩, ⟨2, 3⟩]⟩) := by decide +kernel
  rw [hrun, Option.map_some, List.getLast?_concat, Option.some_inj, Option.some_inj] at hlast
  have hdisjoint := hsound.disjoint
  rw [hlast] at hdisjoint
  revert hdisjoint
  decide

end Sacker

end Ns2.Tcp
