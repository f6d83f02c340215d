import Ns2.Tcp.ReassemblyInsert

/-!
# Adding to a reassembly queue

`ReassemblyQueue::add` up to the label `endfast:`: the search for the place of a range,
the loop that kills the blocks it covers, the merges with blocks it overlaps in part.

* `Added q xs s e q' xs'` — what `add(s, e)` comes to.
* `AddedWith` — the same with the flags, if those of a block that is joined to the one before
  the range are not lost.
* `merge_spec` — the merges, for a range that no block lies inside of.
* `sweep_spec` — the loop removes exactly the blocks inside the range.
* `add_spec` — `add` returns; the cover grows by the range; `Added.point` says where
  `rcv_nxt_` goes.
-/

namespace Ns2.Tcp.ReassemblyQueue

open Linked Intervals

variable {q : ReassemblyQueue} {xs xs' A B C M : List Ptr} {s e : ℤ} {x p n r m : Ptr}
  {p? r? : Option Ptr} {g : TcpFlag} {f : ℕ} {i : ℤ}

/-- The result of `add(s, e)` on a queue with the blocks `xs`. -/
structure Added (q : ReassemblyQueue) (xs : List Ptr) (s e : ℤ) (q' : ReassemblyQueue)
    (xs' : List Ptr) : Prop where
  /-- The new queue is in order. -/
  holds : q'.Holds xs'
  /-- The cover has grown by the range. -/
  cover : q'.covered xs' = q.covered xs ∪ Set.Ico s e
  /-- Either the range was covered already, and `rcv_nxt_` is left alone; or it has
  been moved over a block that holds the range or is the first of the queue. -/
  point : (q'.rcv_nxt_ = q.rcv_nxt_ ∧ Set.Ico s e ⊆ q.covered xs) ∨
    ∃ b ∈ xs', ((q'.startseq_ b ≤ s ∧ e ≤ q'.endseq_ b) ∨ xs'.head? = some b) ∧ q.PointAt q' b

/-- If the range joins two blocks that go on outside of it, the flags of the second are among
those of the first, of the range and of the blocks inside the range. -/
def BridgeFlags (q : ReassemblyQueue) (xs : List Ptr) (s e : ℤ) (g : TcpFlag) : Prop :=
  ∀ x ∈ xs, ∀ y ∈ xs, x ≠ y → q.startseq_ x < s → s ≤ q.endseq_ x →
    q.startseq_ y ≤ e → e < q.endseq_ y → ∀ j, (q.pflags_ y).testBit j →
      (q.pflags_ x ||| g).testBit j ∨
        ∃ z ∈ xs, (s ≤ q.startseq_ z ∧ q.endseq_ z ≤ e) ∧ (q.pflags_ z).testBit j

/-- The result of `add(s, e)` with the flags `g`. -/
structure AddedWith (q : ReassemblyQueue) (xs : List Ptr) (s e : ℤ) (g : TcpFlag)
    (q' : ReassemblyQueue) (xs' : List Ptr) : Prop extends Added q xs s e q' xs' where
  /-- The flags. -/
  flags : q.BridgeFlags xs s e g → FlagsKept q xs s e g q' xs'

/-- The blocks before and after a range are not inside of it. -/
theorem not_inside (h : q.Holds (A ++ M ++ B)) (hA : ∀ a ∈ A, q.endseq_ a ≤ s)
    (hB : ∀ b ∈ B, e ≤ q.startseq_ b)
    (hM : ∀ x ∈ M, ¬ (s ≤ q.startseq_ x ∧ q.endseq_ x ≤ e)) :
    ∀ x ∈ A ++ M ++ B, ¬ (s ≤ q.startseq_ x ∧ q.endseq_ x ≤ e) := by
  intro x hx hin
  have hpos := h.blocks.pos x hx
  rcases List.mem_append.mp hx with hx | hx
  · rcases List.mem_append.mp hx with hx | hx
    · have := hA x hx
      omega
    · exact hM x hx hin
  · have := hB x hx
    omega

/-- What is asked of the flags when no block lies inside of the range. -/
theorem BridgeFlags.join (h : q.BridgeFlags xs s e g)
    (hnot : ∀ x ∈ xs, ¬ (s ≤ q.startseq_ x ∧ q.endseq_ x ≤ e)) (hp : p ∈ xs) (hr : r ∈ xs)
    (hne : p ≠ r) (hps : q.startseq_ p < s) (hpe : s ≤ q.endseq_ p) (hrs : q.startseq_ r ≤ e)
    (hre : e < q.endseq_ r) {j : ℕ} (hj : (q.pflags_ r).testBit j) :
    (q.pflags_ p ||| g).testBit j := by
  rcases h p hp r hr hne hps hpe hrs hre j hj with hj | ⟨z, hz, hin, -⟩
  · exact hj
  · exact absurd hin (hnot z hz)

/-- What is asked of the flags when the rest of a range fills a hole between two blocks. -/
theorem BridgeFlags.hole {q₂ : ReassemblyQueue} {s₂ e₂ : ℤ} (h : q.BridgeFlags xs s e g)
    (hnot : ∀ x ∈ xs, ¬ (s ≤ q.startseq_ x ∧ q.endseq_ x ≤ e))
    (hends : ∀ p r, A.getLast? = some p → B.head? = some r → q₂.endseq_ p = s₂ →
      q₂.startseq_ r = e₂ → (p ∈ xs ∧ r ∈ xs ∧ p ≠ r) ∧
        (q.startseq_ p < s ∧ s ≤ q.endseq_ p ∧ q.startseq_ r ≤ e ∧ e < q.endseq_ r) ∧
        (∀ j, (q₂.pflags_ r).testBit j → (q.pflags_ r ||| g).testBit j) ∧
        ∀ j, (q.pflags_ p).testBit j → (q₂.pflags_ p).testBit j) :
    q₂.HoleFlags A B s₂ e₂ g := by
  intro p r hp hr hps hre j hj
  obtain ⟨⟨hpx, hrx, hne⟩, ⟨h1, h2, h3, h4⟩, hr₂, hp₂⟩ := hends p r hp hr hps hre
  have hor := hr₂ j hj
  rw [Nat.testBit_or, Bool.or_eq_true] at hor
  rcases hor with hor | hor
  · have hjoin := h.join hnot hpx hrx hne h1 h2 h3 h4 hor
    rw [Nat.testBit_or, Bool.or_eq_true] at hjoin
    exact hjoin.elim (fun hj => testBit_or_left (hp₂ j hj)) testBit_or_right
  · exact testBit_or_right hor

/-- Inserting what was missing of a range after some merges. -/
theorem Inserted.added {q₂ q' : ReassemblyQueue} {xs₂ : List Ptr} {s₂ e₂ : ℤ}
    (h : Inserted q₂ xs₂ s₂ e₂ q' xs') (hnxt : q₂.rcv_nxt_ = q.rcv_nxt_)
    (hcov : q₂.covered xs₂ ∪ Set.Ico s₂ e₂ = q.covered xs ∪ Set.Ico s e) (hs : s ≤ s₂)
    (hse : s₂ < e₂) (he : e₂ ≤ e) : Added q xs s e q' xs' := by
  have hcover := h.cover.trans hcov
  refine ⟨h.holds, hcover, Or.inr ?_⟩
  obtain ⟨b, hb, hbs, hbe, hpoint⟩ := h.point
  -- the block with the inserted part is the one with the whole range
  obtain ⟨b', hb', hb's, hb'e⟩ := h.holds.blocks.exists_block (s := s) (e := e) (by omega)
    fun n hn hn' => by
      have : n ∈ q'.covered xs' := by
        rw [hcover]
        exact Or.inr ⟨hn, hn'⟩
      exact this
  have hbb' : b = b' :=
    h.holds.blocks.eq_of_mem hb hb' (n := s₂) ⟨hbs, by omega⟩ ⟨by omega, by omega⟩
  subst hbb'
  refine ⟨b, hb, Or.inl ⟨hb's, hb'e⟩, ?_⟩
  rw [PointAt] at hpoint ⊢
  rwa [← hnxt]

theorem InsertedWith.addedWith {q₂ q' : ReassemblyQueue} {A₂ B₂ : List Ptr} {s₂ e₂ : ℤ}
    (h : InsertedWith q₂ A₂ B₂ s₂ e₂ g q' xs') (hadd : Added q xs s e q' xs')
    (hflag : q.flagged xs ∪ flaggedRange s e g ⊆ q₂.flagged (A₂ ++ B₂) ∪ flaggedRange s₂ e₂ g)
    (hhole : q.BridgeFlags xs s e g → q₂.HoleFlags A₂ B₂ s₂ e₂ g) :
    AddedWith q xs s e g q' xs' :=
  ⟨hadd, fun hb => hflag.trans (h.flags (hhole hb))⟩

/-- The early return of `add`: nothing is left to insert. -/
theorem added_of_head {q₂ : ReassemblyQueue} (h : q₂.Holds xs') (hnxt : q₂.rcv_nxt_ = q.rcv_nxt_)
    (hcov : q₂.covered xs' = q.covered xs ∪ Set.Ico s e) (hx : xs'.head? = some x) :
    Added q xs s e (q₂.advanceTo x) xs' := by
  refine ⟨⟨h.links, h.blocks, h.count⟩, hcov, Or.inr ⟨x, List.mem_of_head? hx, Or.inr hx, ?_⟩⟩
  rw [PointAt, ← hnxt]
  rfl

/-! ## Merging with blocks that overlap in part -/

theorem leftTarget_eq (h : q.Holds (A ++ x :: B)) :
    q.leftTarget s A.getLast? = some (if A = [] ∨ q.startseq_ x < s then some x else none) := by
  rcases List.eq_nil_or_concat A with rfl | ⟨A, a, rfl⟩
  · rw [leftTarget.eq_def]
    simp [h.head_eq]
  · rw [List.concat_eq_append] at h ⊢
    have hnext : q.next_ a = some x := by
      have := h.fifo.next A a (x :: B) (by simp)
      simpa using this
    rw [List.getLast?_concat, leftTarget, hnext]
    simp

theorem rightTarget_eq {q₁ : ReassemblyQueue} (h : q₁.Holds (A ++ x :: B)) :
    q₁.rightTarget e B.head? = some (if B = [] ∨ q₁.endseq_ x > e then some x else none) := by
  cases B with
  | nil =>
    have htail : q₁.tail_ = some x := by rw [h.fifo.tail, List.getLast?_concat]
    rw [List.head?_nil, rightTarget, htail]
    simp
  | cons b B =>
    have hprev : q₁.prev_ b = some x := by
      have := h.fifo.prev (A ++ [x]) b B (by simp)
      simpa using this
    rw [List.head?_cons, rightTarget, hprev]
    simp

/-- The left-side merge moves the start of a block down to the start of the range. -/
theorem extendLeft_spec (h : q.Holds (A ++ x :: B)) (hx : s < q.endseq_ x)
    (hA : s < q.startseq_ x → ∀ a ∈ A, q.endseq_ a < s) {q₁ : ReassemblyQueue}
    (hq₁ : q₁ = q.extendLeft s g (some x)) :
    q₁.Holds (A ++ x :: B) ∧
      q₁.covered (A ++ x :: B) = q.covered (A ++ x :: B) ∪ Set.Ico s (q.startseq_ x) ∧
      q₁.startseq_ x = min s (q.startseq_ x) ∧ (∀ y ≠ x, q₁.startseq_ y = q.startseq_ y) ∧
      q₁.endseq_ = q.endseq_ ∧ q₁.rcv_nxt_ = q.rcv_nxt_ := by
  subst hq₁
  obtain ⟨hxA, hxB⟩ := h.blocks.notMem
  by_cases hlt : s < q.startseq_ x
  · simp only [extendLeft, if_pos hlt]
    refine ⟨⟨h.links, h.blocks.setLo hx (hA hlt), ?_⟩, ?_, ?_, ?_, trivial, trivial⟩
    · rw [total_setLo hxA hxB, h.count]
    · exact cover_setLo hxA hxB hlt.le (h.blocks.pos x (by simp)).le
    · rw [Function.update_self, min_eq_left hlt.le]
    · exact fun y hy => Function.update_of_ne hy _ _
  · simp only [extendLeft, if_neg hlt]
    refine ⟨⟨h.links, h.blocks, h.count⟩, ?_, ?_, fun _ _ => trivial, trivial, trivial⟩
    · rw [Set.Ico_eq_empty hlt, Set.union_empty]
      rfl
    · rw [min_eq_right (not_lt.mp hlt)]

/-- The right-side merge moves the end of a block up to the end of the range. -/
theorem extendRight_spec (h : q.Holds (A ++ x :: B)) (hx : q.startseq_ x < e)
    (hB : q.endseq_ x < e → ∀ b ∈ B, e < q.startseq_ b) {q₁ : ReassemblyQueue}
    (hq₁ : q₁ = q.extendRight e g (some x)) :
    q₁.Holds (A ++ x :: B) ∧
      q₁.covered (A ++ x :: B) = q.covered (A ++ x :: B) ∪ Set.Ico (q.endseq_ x) e ∧
      q₁.endseq_ x = max e (q.endseq_ x) ∧ (∀ y ≠ x, q₁.endseq_ y = q.endseq_ y) ∧
      q₁.startseq_ = q.startseq_ ∧ q₁.rcv_nxt_ = q.rcv_nxt_ := by
  subst hq₁
  obtain ⟨hxA, hxB⟩ := h.blocks.notMem
  by_cases hlt : q.endseq_ x < e
  · simp only [extendRight, gt_iff_lt, if_pos hlt]
    refine ⟨⟨h.links, h.blocks.setHi hx (hB hlt), ?_⟩, ?_, ?_, ?_, trivial, trivial⟩
    · rw [total_setHi hxA hxB, h.count]
    · exact cover_setHi hxA hxB (h.blocks.pos x (by simp)).le hlt.le
    · rw [Function.update_self, max_eq_left hlt.le]
    · exact fun y hy => Function.update_of_ne hy _ _
  · simp only [extendRight, gt_iff_lt, if_neg hlt]
    refine ⟨⟨h.links, h.blocks, h.count⟩, ?_, ?_, fun _ _ => trivial, trivial, trivial⟩
    · rw [Set.Ico_eq_empty hlt, Set.union_empty]
      rfl
    · rw [max_eq_right (not_lt.mp hlt)]

theorem extendLeft_pflags : (q.extendLeft s g (some x)).pflags_ x = q.pflags_ x ||| g :=
  Function.update_self _ _ _

theorem extendLeft_pflags_of_ne (hne : p ≠ x) :
    (q.extendLeft s g (some x)).pflags_ p = q.pflags_ p :=
  Function.update_of_ne hne _ _

theorem extendRight_pflags : (q.extendRight e g (some x)).pflags_ x = q.pflags_ x ||| g :=
  Function.update_self _ _ _

theorem extendRight_pflags_of_ne (hne : p ≠ x) :
    (q.extendRight e g (some x)).pflags_ p = q.pflags_ p :=
  Function.update_of_ne hne _ _

/-- What is left to be flagged after the left-side merge. -/
theorem extendLeft_flags (hx : x ∈ xs) (hlt : s < q.endseq_ x) {q₁ : ReassemblyQueue}
    (hq₁ : q₁ = q.extendLeft s g (some x)) :
    q.flagged xs ∪ flaggedRange s e g ⊆ q₁.flagged xs ∪ flaggedRange (q.endseq_ x) e g := by
  have hlo : q₁.startseq_ x ≤ s ∧ q₁.startseq_ x ≤ q.startseq_ x := by
    subst hq₁
    by_cases h : s < q.startseq_ x
    · simp [extendLeft, h, h.le]
    · simp [extendLeft, h, not_lt.mp h]
  have hflag : q₁.pflags_ x = q.pflags_ x ||| g := by rw [hq₁, extendLeft_pflags]
  have hend : q₁.endseq_ = q.endseq_ := by rw [hq₁, extendLeft]
  rintro ⟨n, j⟩ (⟨y, hy, h1, h2, h3⟩ | ⟨h1, h2, h3⟩)
  · refine Or.inl ⟨y, hy, ?_⟩
    rw [hend]
    by_cases hyx : y = x
    · subst hyx
      rw [hflag]
      exact ⟨hlo.2.trans h1, h2, testBit_or_left h3⟩
    · have hsame : q₁.startseq_ y = q.startseq_ y ∧ q₁.pflags_ y = q.pflags_ y := by
        rw [hq₁]
        refine ⟨?_, extendLeft_pflags_of_ne hyx⟩
        dsimp only [extendLeft]
        split
        · exact Function.update_of_ne hyx _ _
        · rfl
      rw [hsame.1, hsame.2]
      exact ⟨h1, h2, h3⟩
  · by_cases hn : n < q.endseq_ x
    · refine Or.inl ⟨x, hx, hlo.1.trans h1, ?_, ?_⟩
      · rwa [hend]
      · rw [hflag]
        exact testBit_or_right h3
    · exact Or.inr ⟨not_lt.mp hn, h2, h3⟩

/-- What is left to be flagged after the right-side merge. -/
theorem extendRight_flags (hx : x ∈ xs) (hlt : q.startseq_ x < e) {q₁ : ReassemblyQueue}
    (hq₁ : q₁ = q.extendRight e g (some x)) :
    q.flagged xs ∪ flaggedRange s e g ⊆ q₁.flagged xs ∪ flaggedRange s (q.startseq_ x) g := by
  have hhi : e ≤ q₁.endseq_ x ∧ q.endseq_ x ≤ q₁.endseq_ x := by
    subst hq₁
    by_cases h : e > q.endseq_ x
    · simp [extendRight, h, h.le]
    · simp [extendRight, h, not_lt.mp h]
  have hflag : q₁.pflags_ x = q.pflags_ x ||| g := by rw [hq₁, extendRight_pflags]
  have hstart : q₁.startseq_ = q.startseq_ := by rw [hq₁, extendRight]
  rintro ⟨n, j⟩ (⟨y, hy, h1, h2, h3⟩ | ⟨h1, h2, h3⟩)
  · refine Or.inl ⟨y, hy, ?_⟩
    rw [hstart]
    by_cases hyx : y = x
    · subst hyx
      rw [hflag]
      exact ⟨h1, h2.trans_le hhi.2, testBit_or_left h3⟩
    · have hsame : q₁.endseq_ y = q.endseq_ y ∧ q₁.pflags_ y = q.pflags_ y := by
        rw [hq₁]
        refine ⟨?_, extendRight_pflags_of_ne hyx⟩
        dsimp only [extendRight]
        split
        · exact Function.update_of_ne hyx _ _
        · rfl
      rw [hsame.1, hsame.2]
      exact ⟨h1, h2, h3⟩
  · by_cases hn : q.startseq_ x ≤ n
    · refine Or.inl ⟨x, hx, ?_, h2.trans_le hhi.1, ?_⟩
      · rwa [hstart]
      · rw [hflag]
        exact testBit_or_right h3
    · exact Or.inr ⟨h1, not_le.mp hn, h3⟩

theorem flaggedRange_eq_empty (h : e ≤ s) : flaggedRange s e g = ∅ := by
  ext a
  simp only [flaggedRange, Set.mem_ofPred_eq, Set.mem_empty_iff_false, iff_false]
  omega

@[simp] theorem extendLeft_none : q.extendLeft s g none = q := rfl

@[simp] theorem extendRight_none : q.extendRight e g none = q := rfl

/-- `merge`, once the two targets are known. -/
theorem merge_eq {l t : Option Ptr} {q₁ q₂ : ReassemblyQueue} (hl : q.leftTarget s p? = some l)
    (hq₁ : q₁ = q.extendLeft s g l) (ht : q₁.rightTarget e r? = some t)
    (hq₂ : q₂ = q₁.extendRight e g t) :
    q.merge p? r? s e g f i =
      if t.elim e q₂.startseq_ ≤ l.elim s q₁.endseq_ then
        q₂.head_.map fun h => (q₂.advanceTo h, g)
      else
        q₂.endfast (l.or p?) (t.or r?) (l.elim s q₁.endseq_) (t.elim e q₂.startseq_) g f
          (l.elim i fun _ => i - 1)
          (l.isSome || t.isSome ||
            q₂.fitsBetween (l.elim s q₁.endseq_) (t.elim e q₂.startseq_) p? r?) := by
  subst hq₁ hq₂
  rw [merge, hl, Option.bind_some]
  simp only [ht, Option.bind_some]

/-- The range overlaps no block, and lies between two. -/
theorem merge_none_eq (h : q.Holds (A ++ B)) (hse : s < e) (hA : ∀ a ∈ A, q.endseq_ a ≤ s)
    (hB : ∀ b ∈ B, e ≤ q.startseq_ b) (hAne : A ≠ []) (hBne : B ≠ []) :
    ∃ w, (w = true ↔ q.TouchesNeighbour A B s e) ∧
      q.merge A.getLast? B.head? s e g f i = q.endfast A.getLast? B.head? s e g f i w := by
  obtain ⟨A, a, rfl⟩ := (List.eq_nil_or_concat A).resolve_left hAne
  obtain ⟨b, B, rfl⟩ := List.exists_cons_of_ne_nil hBne
  rw [List.concat_eq_append] at *
  have ha := hA a (by simp)
  have hb := hB b (by simp)
  have hl : q.leftTarget s (A ++ [a]).getLast? = some none := by
    rw [leftTarget_eq h, if_neg]
    simpa using by omega
  have ht : q.rightTarget e (b :: B).head? = some none := by
    rw [rightTarget_eq (A := A) (by simpa using h), if_neg]
    simpa using by omega
  have hnext : q.next_ a = some b := h.fifo.next A a (b :: B) (by simp)
  refine ⟨q.fitsBetween s e (A ++ [a]).getLast? (b :: B).head?, ?_, ?_⟩
  · simp [fitsBetween, TouchesNeighbour, hnext, ha, hb]
  · rw [merge_eq hl rfl ht rfl]
    simp only [Option.elim_none, if_neg (not_le.mpr hse), Option.none_or, Option.isSome_none,
      Bool.false_or, extendLeft_none, extendRight_none]

theorem merge_none_spec (h : q.Holds (A ++ B)) (hse : s < e) (hA : ∀ a ∈ A, q.endseq_ a ≤ s)
    (hB : ∀ b ∈ B, e ≤ q.startseq_ b) (hAne : A ≠ []) (hBne : B ≠ []) :
    ∃ q' flag xs', q.merge A.getLast? B.head? s e g f i = some (q', flag) ∧
      AddedWith q (A ++ B) s e g q' xs' := by
  have hnot := not_inside (M := []) (by simpa using h) hA hB (by simp)
  rw [List.append_nil] at hnot
  obtain ⟨w, hw, hmerge⟩ := merge_none_eq (g := g) (f := f) (i := i) h hse hA hB hAne hBne
  rw [hmerge]
  obtain ⟨q', flag, xs', hq', hins⟩ := endfast_spec (g := g) (f := f) (i := i) h hse hA hB hw
  refine ⟨q', flag, xs', hq', hins.addedWith (hins.added rfl rfl le_rfl hse le_rfl) subset_rfl
    fun hb => hb.hole hnot ?_⟩
  intro p r hp hr hps hre
  have hpm := List.mem_of_getLast? hp
  have hrm := List.mem_of_head? hr
  have h1 := h.blocks.hi_lt_lo hpm hrm
  have h2 := h.blocks.pos p (List.mem_append_left _ hpm)
  have h3 := h.blocks.pos r (List.mem_append_right _ hrm)
  refine ⟨⟨List.mem_append_left _ hpm, List.mem_append_right _ hrm, ?_⟩, by omega,
    fun j => testBit_or_left, fun j hj => hj⟩
  rintro rfl
  omega

/-- The early return, in the notation of `merge_eq`. -/
theorem advanceHead_spec {q₂ : ReassemblyQueue} (h : q₂.Holds (A ++ m :: B))
    (hnxt : q₂.rcv_nxt_ = q.rcv_nxt_)
    (hcov : q₂.covered (A ++ m :: B) = q.covered xs ∪ Set.Ico s e)
    (hflag : q.flagged xs ∪ flaggedRange s e g ⊆ q₂.flagged (A ++ m :: B)) :
    ∃ q' flag xs', q₂.head_.map (fun h => (q₂.advanceTo h, g)) = some (q', flag) ∧
      AddedWith q xs s e g q' xs' := by
  obtain ⟨x, hx⟩ : ∃ x, (A ++ m :: B).head? = some x := by
    cases A with
    | nil => exact ⟨m, rfl⟩
    | cons a A => exact ⟨a, rfl⟩
  rw [h.head_eq, hx]
  exact ⟨_, _, _, rfl, added_of_head h hnxt hcov hx, fun _ => hflag⟩

/-- The range overlaps one block, which starts before it: what is left to insert comes
after the block. -/
theorem merge_left_eq (h : q.Holds (A ++ m :: B)) (hs : s < q.endseq_ m)
    (hlo : q.startseq_ m < s) (hr : ¬ (B = [] ∨ q.endseq_ m > e)) :
    q.merge A.getLast? B.head? s e g f i =
      if e ≤ q.endseq_ m then
        (q.extendLeft s g (some m)).head_.map fun h => ((q.extendLeft s g (some m)).advanceTo h, g)
      else (q.extendLeft s g (some m)).endfast (some m) B.head? (q.endseq_ m) e g f (i - 1) true := by
  obtain ⟨hq₁, -, -, -, hhi, -⟩ := extendLeft_spec (g := g) h hs (fun hlt => by omega) rfl
  have hl : q.leftTarget s A.getLast? = some (some m) := by
    rw [leftTarget_eq h, if_pos (Or.inr hlo)]
  have ht : (q.extendLeft s g (some m)).rightTarget e B.head? = some none := by
    rw [rightTarget_eq hq₁, hhi, if_neg hr]
  have hmerge := merge_eq (g := g) (f := f) (i := i) hl rfl ht rfl
  simp only [extendRight_none, Option.elim_some, Option.elim_none, Option.some_or, Option.none_or,
    Option.isSome_some, Bool.true_or] at hmerge
  rw [hmerge, hhi]

theorem merge_left_spec (h : q.Holds (A ++ m :: B)) (hs : s < q.endseq_ m)
    (hlo : q.startseq_ m < s) (hse : s < e) (hA : ∀ a ∈ A, q.endseq_ a ≤ s)
    (hB : ∀ b ∈ B, e ≤ q.startseq_ b) (hr : ¬ (B = [] ∨ q.endseq_ m > e)) :
    ∃ q' flag xs', q.merge A.getLast? B.head? s e g f i = some (q', flag) ∧
      AddedWith q (A ++ m :: B) s e g q' xs' := by
  obtain ⟨hq₁, hcov, -, hstart, hhi, hnxt⟩ :=
    extendLeft_spec (g := g) h hs (fun hlt => by omega) rfl
  have hnot := not_inside (M := [m]) (by simpa using h) hA hB (by simpa using by omega)
  rw [List.append_assoc, List.singleton_append] at hnot
  rw [merge_left_eq h hs hlo hr, ← hhi]
  have hmem : m ∈ A ++ m :: B := by simp
  rw [not_or, gt_iff_lt, not_lt] at hr
  have hsides := cover_union_sides (s := s) (e := e) hmem hs.le (hlo.trans hse).le
  have hflag := extendLeft_flags (g := g) (e := e) hmem hs rfl
  by_cases hend : e ≤ (q.extendLeft s g (some m)).endseq_ m
  · rw [if_pos hend]
    rw [hhi] at hend
    refine advanceHead_spec hq₁ hnxt ?_ ?_
    · rw [hcov, covered, ← hsides, Set.Ico_eq_empty (a := q.endseq_ m) (by omega),
        Set.union_empty]
    · rwa [flaggedRange_eq_empty hend, Set.union_empty] at hflag
  · rw [if_neg hend]
    have hq₁' : (q.extendLeft s g (some m)).Holds ((A ++ [m]) ++ B) := by simpa using hq₁
    have hA' : ∀ a ∈ A ++ [m], (q.extendLeft s g (some m)).endseq_ a
        ≤ (q.extendLeft s g (some m)).endseq_ m := by
      intro a ha
      rw [hhi]
      rcases List.mem_append.mp ha with ha | ha
      · exact (hA a ha).trans hs.le
      · rw [List.mem_singleton.mp ha]
    have hB' : ∀ b ∈ B, e ≤ (q.extendLeft s g (some m)).startseq_ b := by
      intro b hb
      rw [hstart b (ne_of_mem_of_not_mem hb h.blocks.notMem.2)]
      exact hB b hb
    obtain ⟨q', flag, xs', h1, h2⟩ := endfast_spec (g := g) (f := f) (i := i - 1)
      (w := true) hq₁' (not_le.mp hend) hA' hB' (by simp [TouchesNeighbour])
    rw [List.getLast?_concat] at h1
    refine ⟨q', flag, xs', h1, h2.addedWith (h2.added hnxt ?_ ?_ (not_le.mp hend) le_rfl) ?_
      fun hb => hb.hole hnot ?_⟩
    · rw [List.append_assoc, List.singleton_append, hcov, hhi]
      exact hsides
    · rw [hhi]
      exact hs.le
    · rwa [List.append_assoc, List.singleton_append, hhi]
    · intro p r hp hr hps hre
      rw [List.getLast?_concat, Option.some.injEq] at hp
      subst hp
      have hrm := List.mem_of_head? hr
      have hne : r ≠ m := ne_of_mem_of_not_mem hrm h.blocks.notMem.2
      have hpos := h.blocks.pos r (by simp [hrm])
      rw [hstart r hne] at hre
      refine ⟨⟨hmem, by simp [hrm], hne.symm⟩, ⟨hlo, hs.le, hre.le, hre ▸ hpos⟩, fun j hj => ?_,
        fun j hj => ?_⟩
      · rw [extendLeft_pflags_of_ne hne] at hj
        exact testBit_or_left hj
      · rw [extendLeft_pflags]
        exact testBit_or_left hj

/-- The range overlaps one block, which ends after it and starts no earlier: what is
left to insert comes before the block. -/
theorem merge_right_eq (h : q.Holds (A ++ m :: B)) (he : q.startseq_ m < e)
    (hhi : e < q.endseq_ m) (hl : ¬ (A = [] ∨ q.startseq_ m < s)) :
    q.merge A.getLast? B.head? s e g f i =
      if q.startseq_ m ≤ s then
        (q.extendRight e g (some m)).head_.map fun h => ((q.extendRight e g (some m)).advanceTo h, g)
      else (q.extendRight e g (some m)).endfast A.getLast? (some m) s (q.startseq_ m) g f i true := by
  obtain ⟨-, -, -, -, hlo, -⟩ := extendRight_spec (g := g) h he (fun hlt => by omega) rfl
  have hl' : q.leftTarget s A.getLast? = some none := by rw [leftTarget_eq h, if_neg hl]
  have ht : q.rightTarget e B.head? = some (some m) := by
    rw [rightTarget_eq h, if_pos (Or.inr hhi)]
  have hmerge := merge_eq (g := g) (f := f) (i := i) hl' rfl ht rfl
  simp only [extendLeft_none, Option.elim_some, Option.elim_none, Option.some_or, Option.none_or,
    Option.isSome_some, Option.isSome_none, Bool.true_or, Bool.or_true] at hmerge
  rw [hmerge, hlo]

theorem merge_right_spec (h : q.Holds (A ++ m :: B)) (he : q.startseq_ m < e)
    (hhi : e < q.endseq_ m) (hse : s < e) (hA : ∀ a ∈ A, q.endseq_ a ≤ s)
    (hB : ∀ b ∈ B, e ≤ q.startseq_ b) (hl : ¬ (A = [] ∨ q.startseq_ m < s)) :
    ∃ q' flag xs', q.merge A.getLast? B.head? s e g f i = some (q', flag) ∧
      AddedWith q (A ++ m :: B) s e g q' xs' := by
  obtain ⟨hq₂, hcov, -, hend, hlo, hnxt⟩ :=
    extendRight_spec (g := g) h he (fun hlt => by omega) rfl
  have hnot := not_inside (M := [m]) (by simpa using h) hA hB (by simpa using by omega)
  rw [List.append_assoc, List.singleton_append] at hnot
  rw [merge_right_eq h he hhi hl, ← hlo]
  have hmem : m ∈ A ++ m :: B := by simp
  rw [not_or, not_lt] at hl
  have hsides := cover_union_sides (s := s) (e := e) hmem (hse.trans hhi).le he.le
  rw [Set.union_right_comm] at hsides
  have hflag := extendRight_flags (g := g) (s := s) hmem he rfl
  by_cases hstop : (q.extendRight e g (some m)).startseq_ m ≤ s
  · rw [if_pos hstop]
    rw [hlo] at hstop
    refine advanceHead_spec hq₂ hnxt ?_ ?_
    · rw [hcov, covered, ← hsides, Set.Ico_eq_empty (b := q.startseq_ m) (by omega),
        Set.union_empty]
    · rwa [flaggedRange_eq_empty hstop, Set.union_empty] at hflag
  · rw [if_neg hstop]
    have hA' : ∀ a ∈ A, (q.extendRight e g (some m)).endseq_ a ≤ s := by
      intro a ha
      rw [hend a (ne_of_mem_of_not_mem ha h.blocks.notMem.1)]
      exact hA a ha
    have hB' : ∀ b ∈ m :: B, (q.extendRight e g (some m)).startseq_ m
        ≤ (q.extendRight e g (some m)).startseq_ b := by
      intro b hb
      rw [hlo]
      rcases List.mem_cons.mp hb with rfl | hb
      · exact le_rfl
      · exact he.le.trans (hB b hb)
    obtain ⟨q', flag, xs', h1, h2⟩ := endfast_spec (g := g) (f := f) (i := i)
      (w := true) hq₂ (not_le.mp hstop) hA' hB' (by simp [TouchesNeighbour])
    refine ⟨q', flag, xs', h1, h2.addedWith (h2.added hnxt ?_ le_rfl (not_le.mp hstop) ?_) ?_
      fun hb => hb.hole hnot ?_⟩
    · rw [hcov, hlo]
      exact hsides
    · rw [hlo]
      exact he.le
    · rwa [hlo]
    · intro p r hp hr hps hre
      rw [List.head?_cons, Option.some.injEq] at hr
      subst hr
      have hpm := List.mem_of_getLast? hp
      have hne : p ≠ m := ne_of_mem_of_not_mem hpm h.blocks.notMem.1
      have hpos := h.blocks.pos p (by simp [hpm])
      rw [hend p hne] at hps
      refine ⟨⟨by simp [hpm], hmem, hne⟩, ⟨hps ▸ hpos, hps.ge, he.le, hhi⟩, fun j hj => ?_,
        fun j hj => ?_⟩
      · rwa [extendRight_pflags] at hj
      · rwa [extendRight_pflags_of_ne hne]

/-- The range overlaps one block and the block is extended on both sides. -/
theorem merge_both_eq (h : q.Holds (A ++ m :: B)) (hs : s < q.endseq_ m)
    (he : q.startseq_ m < e) (hse : s < e) (hl : A = [] ∨ q.startseq_ m < s)
    (hr : B = [] ∨ q.endseq_ m > e) {q₂ : ReassemblyQueue}
    (hq₂ : q₂ = (q.extendLeft s g (some m)).extendRight e g (some m)) :
    q.merge A.getLast? B.head? s e g f i = q₂.head_.map fun h => (q₂.advanceTo h, g) := by
  obtain ⟨hq₁, -, hlo₁, -, hhi₁, -⟩ := extendLeft_spec (g := g) h hs
    (fun hlt => by rcases hl with rfl | hl <;> [simp; omega]) rfl
  have hstart : (q.extendLeft s g (some m)).startseq_ m < e := by rw [hlo₁]; omega
  obtain ⟨-, -, -, -, hlo₂, -⟩ := extendRight_spec (g := g) (e := e) hq₁ hstart
    (fun hlt => by rw [hhi₁] at hlt; rcases hr with rfl | hr <;> [simp; omega]) rfl
  have hl' : q.leftTarget s A.getLast? = some (some m) := by rw [leftTarget_eq h, if_pos hl]
  have ht : (q.extendLeft s g (some m)).rightTarget e B.head? = some (some m) := by
    rw [rightTarget_eq hq₁, hhi₁, if_pos hr]
  rw [merge_eq hl' rfl ht rfl, if_pos, hq₂]
  rw [Option.elim_some, Option.elim_some, hlo₂, hlo₁, hhi₁]
  exact (min_le_left _ _).trans hs.le

theorem merge_both_spec (h : q.Holds (A ++ m :: B)) (hs : s < q.endseq_ m)
    (he : q.startseq_ m < e) (hse : s < e) (hl : A = [] ∨ q.startseq_ m < s)
    (hr : B = [] ∨ q.endseq_ m > e) :
    ∃ q' flag xs', q.merge A.getLast? B.head? s e g f i = some (q', flag) ∧
      AddedWith q (A ++ m :: B) s e g q' xs' := by
  obtain ⟨hq₁, hcov₁, hlo₁, -, hhi₁, hnxt₁⟩ := extendLeft_spec (g := g) h hs
    (fun hlt => by rcases hl with rfl | hl <;> [simp; omega]) rfl
  have hstart : (q.extendLeft s g (some m)).startseq_ m < e := by rw [hlo₁]; omega
  obtain ⟨hq₂, hcov₂, -, -, -, hnxt₂⟩ := extendRight_spec (g := g) (e := e) hq₁ hstart
    (fun hlt => by rw [hhi₁] at hlt; rcases hr with rfl | hr <;> [simp; omega]) rfl
  rw [merge_both_eq h hs he hse hl hr rfl]
  have hmem : m ∈ A ++ m :: B := by simp
  have hflag₁ := extendLeft_flags (g := g) (e := e) hmem hs rfl
  have hflag₂ := extendRight_flags (q := q.extendLeft s g (some m)) (g := g)
    (s := q.endseq_ m) hmem hstart rfl
  have hempty := flaggedRange_eq_empty (g := g)
    (((min_le_left _ _).trans hs.le : min s (q.startseq_ m) ≤ q.endseq_ m))
  rw [hlo₁, hempty, Set.union_empty] at hflag₂
  refine advanceHead_spec hq₂ (hnxt₂.trans hnxt₁) ?_ (hflag₁.trans hflag₂)
  rw [hcov₂, hcov₁, hhi₁, covered]
  exact cover_union_sides hmem hs.le he.le

/-- The range overlaps two blocks, one over each end: it fills the hole between them. -/
theorem merge_two_eq (h : q.Holds (A ++ m :: r :: B)) (hm : s < q.endseq_ m)
    (hr : q.startseq_ r < e) (hlo : q.startseq_ m < s) (hhi : e < q.endseq_ r)
    {q₂ : ReassemblyQueue} (hq₂ : q₂ = (q.extendLeft s g (some m)).extendRight e g (some r)) :
    q.merge A.getLast? B.head? s e g f i =
        q₂.endfast (some m) (some r) (q.endseq_ m) (q.startseq_ r) g f (i - 1) true ∧
      q₂.Holds (A ++ [m] ++ r :: B) ∧
      q₂.covered (A ++ [m] ++ r :: B) = q.covered (A ++ m :: r :: B) ∧ r ≠ m ∧
      (∀ y ∈ A ++ [m] ++ r :: B, q₂.startseq_ y = q.startseq_ y ∧ q₂.endseq_ y = q.endseq_ y) ∧
      q₂.rcv_nxt_ = q.rcv_nxt_ ∧ q.endseq_ m < q.startseq_ r := by
  have hsplit : A ++ m :: r :: B = (A ++ [m]) ++ r :: B := by simp
  have hmr : q.endseq_ m < q.startseq_ r :=
    (hsplit ▸ h.blocks).hi_lt_lo (x := m) (by simp) List.mem_cons_self
  have hne : r ≠ m := by
    rintro rfl
    have := h.blocks.pos r (by simp)
    omega
  obtain ⟨hq₁, hcov₁, hlom, hlo₁, hhi₁, hnxt₁⟩ :=
    extendLeft_spec (g := g) h hm (fun hlt => by omega) rfl
  have hl' : q.leftTarget s A.getLast? = some (some m) := by
    rw [leftTarget_eq h, if_pos (Or.inr hlo)]
  rw [hsplit] at hq₁ hcov₁
  obtain ⟨hholds, hcov₂, hhir, hhi₂, hlo₂, hnxt₂⟩ := extendRight_spec (g := g) (e := e) hq₁
    (by rw [hlo₁ r hne]; exact hr) (fun hlt => by rw [hhi₁] at hlt; omega) rfl
  have ht : (q.extendLeft s g (some m)).rightTarget e B.head? = some (some r) := by
    rw [rightTarget_eq hq₁, hhi₁, if_pos (Or.inr hhi)]
  have hmerge := merge_eq (g := g) (f := f) (i := i) hl' rfl ht rfl
  simp only [Option.elim_some, Option.some_or, Option.isSome_some, Bool.true_or] at hmerge
  subst hq₂
  refine ⟨?_, hholds, ?_, hne, fun y _ => ⟨?_, ?_⟩, hnxt₂.trans hnxt₁, hmr⟩
  · rw [hmerge, hlo₂, hhi₁, hlo₁ r hne, if_neg (by omega)]
  · rw [hcov₂, hcov₁, hhi₁, Set.Ico_eq_empty (a := s) (by omega),
      Set.Ico_eq_empty (a := q.endseq_ r) (by omega), Set.union_empty, Set.union_empty, hsplit]
  · rw [hlo₂]
    by_cases hym : y = m
    · rw [hym, hlom, min_eq_right hlo.le]
    · exact hlo₁ y hym
  · by_cases hyr : y = r
    · rw [hyr, hhir, hhi₁, max_eq_right hhi.le]
    · rw [hhi₂ y hyr, hhi₁]

theorem merge_two_spec (h : q.Holds (A ++ m :: r :: B)) (hm : s < q.endseq_ m)
    (hr : q.startseq_ r < e) (hlo : q.startseq_ m < s)
    (hhi : e < q.endseq_ r) (hA : ∀ a ∈ A, q.endseq_ a ≤ s) (hB : ∀ b ∈ B, e ≤ q.startseq_ b) :
    ∃ q' flag xs', q.merge A.getLast? B.head? s e g f i = some (q', flag) ∧
      AddedWith q (A ++ m :: r :: B) s e g q' xs' := by
  have hsplit : A ++ m :: r :: B = (A ++ [m]) ++ r :: B := by simp
  have hnot := not_inside (M := [m, r]) (by simpa using h) hA hB (by
    simp only [List.mem_cons, List.not_mem_nil, or_false, forall_eq_or_imp, forall_eq]
    omega)
  rw [List.append_assoc, List.cons_append, List.singleton_append] at hnot
  obtain ⟨hmerge, hq₂, hcov₂, hne, hblocks, hnxt, hmr⟩ :=
    merge_two_eq (g := g) (f := f) (i := i) h hm hr hlo hhi rfl
  rw [hmerge]
  have hA' : ∀ a ∈ A ++ [m], ((q.extendLeft s g (some m)).extendRight e g (some r)).endseq_ a
      ≤ q.endseq_ m := by
    intro a ha
    rw [(hblocks a (List.mem_append_left _ ha)).2]
    exact (hsplit ▸ h.blocks).left.hi_le_last ha
  have hB' : ∀ b ∈ r :: B, q.startseq_ r
      ≤ ((q.extendLeft s g (some m)).extendRight e g (some r)).startseq_ b := by
    intro b hb
    rw [(hblocks b (List.mem_append_right _ hb)).1]
    exact (hsplit ▸ h.blocks).right.lo_head_le hb
  obtain ⟨q', flag, xs', h1, h2⟩ := endfast_spec (g := g) (f := f) (i := i - 1)
    (w := true) hq₂ hmr hA' hB' (by simp [TouchesNeighbour, (hblocks m (by simp)).2])
  rw [List.getLast?_concat] at h1
  have hmem : m ∈ A ++ [m] ++ r :: B := by simp
  have hrem : r ∈ A ++ [m] ++ r :: B := by simp
  refine ⟨q', flag, xs', h1, h2.addedWith (h2.added hnxt ?_ hm.le hmr hr.le) ?_
    fun hb => hb.hole hnot ?_⟩
  · rw [hcov₂, hsplit, covered, ← cover_union_sides (s := s) (x := m) (by simp) hm.le (by omega),
      Set.Ico_eq_empty (a := s) (by omega), Set.union_empty,
      ← Set.Ico_union_Ico_eq_Ico hmr.le hr.le, ← Set.union_assoc]
    -- what the range has in common with the second block is covered
    refine (Set.union_eq_self_of_subset_right fun n hn => Or.inl ⟨r, by simp, hn.1, ?_⟩).symm
    exact hn.2.trans hhi
  · obtain ⟨-, -, -, hlo₁, -, -⟩ := extendLeft_spec (g := g) h hm (fun hlt => by omega) rfl
    have hflag₁ := extendLeft_flags (g := g) (e := e) hmem hm rfl
    have hflag₂ := extendRight_flags (q := q.extendLeft s g (some m)) (g := g)
      (s := q.endseq_ m) hrem (by rw [hlo₁ r hne]; exact hr) rfl
    rw [hlo₁ r hne] at hflag₂
    rw [hsplit]
    exact hflag₁.trans hflag₂
  · intro p r' hp hr' _ _
    rw [List.getLast?_concat, Option.some.injEq] at hp
    rw [List.head?_cons, Option.some.injEq] at hr'
    subst hp hr'
    refine ⟨⟨by simp, by simp, hne.symm⟩, ⟨hlo, hm.le, hr.le, hhi⟩, fun j hj => ?_, fun j hj => ?_⟩
    · rwa [extendRight_pflags, extendLeft_pflags_of_ne hne] at hj
    · rw [extendRight_pflags_of_ne hne.symm, extendLeft_pflags]
      exact testBit_or_left hj

/-- **The merges.**  A range that no block lies inside of, and that is neither before
nor after all blocks, is put in. -/
theorem merge_spec (h : q.Holds (A ++ M ++ B)) (hse : s < e) (hA : ∀ a ∈ A, q.endseq_ a ≤ s)
    (hM : ∀ x ∈ M, s < q.endseq_ x ∧ q.startseq_ x < e)
    (hnot : ∀ x ∈ M, ¬ (s ≤ q.startseq_ x ∧ q.endseq_ x ≤ e))
    (hB : ∀ b ∈ B, e ≤ q.startseq_ b) (hAM : A ++ M ≠ []) (hMB : M ++ B ≠ []) :
    ∃ q' flag xs', q.merge A.getLast? B.head? s e g f i = some (q', flag) ∧
      AddedWith q (A ++ M ++ B) s e g q' xs' := by
  rcases overlap_cases h.blocks.left.right hM hnot with rfl | ⟨m, rfl⟩ | ⟨m, r, rfl, hlo, -, hhi⟩
  · rw [List.append_nil] at *
    exact merge_none_spec h hse hA hB hAM hMB
  · rw [List.append_assoc, List.singleton_append] at h ⊢
    obtain ⟨hs, he⟩ := hM m (by simp)
    have hnot := hnot m (by simp)
    by_cases hl : A = [] ∨ q.startseq_ m < s
    · by_cases hr : B = [] ∨ q.endseq_ m > e
      · exact merge_both_spec h hs he hse hl hr
      · -- the end of the block is inside the range, so its start is not
        have hend : q.endseq_ m ≤ e := not_lt.mp fun hlt => hr (Or.inr hlt)
        exact merge_left_spec h hs (not_le.mp fun hle => hnot ⟨hle, hend⟩) hse hA hB hr
    · have hstart : s ≤ q.startseq_ m := not_lt.mp fun hlt => hl (Or.inr hlt)
      exact merge_right_spec h he (not_le.mp fun hle => hnot ⟨hstart, hle⟩) hse hA hB hl
  · have hlist : A ++ [m, r] ++ B = A ++ m :: r :: B := by simp
    rw [hlist] at h ⊢
    exact merge_two_spec h (hM m (by simp)).1 (hM r (by simp)).2 hlo hhi hA hB

/-! ## Killing what is overlapped -/

/-- Blocks inside the range may be gone before it is added. -/
theorem Added.trans {q₁ q' : ReassemblyQueue} {xs₁ : List Ptr} (h : Added q₁ xs₁ s e q' xs')
    (hnxt : q₁.rcv_nxt_ = q.rcv_nxt_)
    (hcov : q₁.covered xs₁ ∪ Set.Ico s e = q.covered xs ∪ Set.Ico s e)
    (hsub : q₁.covered xs₁ ⊆ q.covered xs) : Added q xs s e q' xs' := by
  refine ⟨h.holds, h.cover.trans hcov, ?_⟩
  have hpoint := h.point
  simp only [PointAt, hnxt] at hpoint ⊢
  exact hpoint.imp_left fun hp => ⟨hp.1, hp.2.trans hsub⟩

/-- Blocks have gone, and their flags into those of the range. -/
structure Absorbed (q : ReassemblyQueue) (xs : List Ptr) (s e : ℤ) (g : TcpFlag)
    (q₁ : ReassemblyQueue) (xs₁ : List Ptr) (g₁ : TcpFlag) : Prop where
  flags : q.flagged xs ∪ flaggedRange s e g ⊆ q₁.flagged xs₁ ∪ flaggedRange s e g₁
  bridge : q.BridgeFlags xs s e g → q₁.BridgeFlags xs₁ s e g₁

theorem Absorbed.refl : Absorbed q xs s e g q xs g := ⟨subset_rfl, id⟩

theorem Absorbed.trans {q₁ q₂ : ReassemblyQueue} {xs₁ xs₂ : List Ptr} {g₁ g₂ : TcpFlag}
    (h : Absorbed q xs s e g q₁ xs₁ g₁) (h' : Absorbed q₁ xs₁ s e g₁ q₂ xs₂ g₂) :
    Absorbed q xs s e g q₂ xs₂ g₂ :=
  ⟨h.flags.trans h'.flags, h'.bridge ∘ h.bridge⟩

/-- A block inside the range is killed. -/
theorem absorbed_remove {q₁ : ReassemblyQueue} (hx : s ≤ q.startseq_ x ∧ q.endseq_ x ≤ e)
    (hlo : q₁.startseq_ = q.startseq_) (hhi : q₁.endseq_ = q.endseq_)
    (hfl : q₁.pflags_ = q.pflags_) :
    Absorbed q (A ++ x :: B) s e g q₁ (A ++ B) (g ||| q.pflags_ x) := by
  have hsub : ∀ y ∈ A ++ B, y ∈ A ++ x :: B := fun y hy => by
    simp only [List.mem_append, List.mem_cons] at hy ⊢
    tauto
  have hor : ∀ y ∈ A ++ x :: B, y = x ∨ y ∈ A ++ B := fun y hy => by
    simp only [List.mem_append, List.mem_cons] at hy ⊢
    tauto
  constructor
  · rintro ⟨n, j⟩ (⟨y, hy, h1, h2, h3⟩ | ⟨h1, h2, h3⟩)
    · rcases hor y hy with rfl | hy
      · exact Or.inr ⟨hx.1.trans h1, h2.trans_le hx.2, testBit_or_right h3⟩
      · exact Or.inl ⟨y, hy, by rw [hlo, hhi, hfl]; exact ⟨h1, h2, h3⟩⟩
    · exact Or.inr ⟨h1, h2, testBit_or_left h3⟩
  · intro h p hp r hr hne
    rw [hlo, hhi, hfl]
    intro h1 h2 h3 h4 j hj
    rcases h p (hsub p hp) r (hsub r hr) hne h1 h2 h3 h4 j hj with hj | ⟨z, hz, hin, hj⟩
    · rw [← Nat.or_assoc]
      exact Or.inl (testBit_or_left hj)
    · rcases hor z hz with rfl | hz
      · exact Or.inl (testBit_or_right (testBit_or_right hj))
      · exact Or.inr ⟨z, hz, hin, hj⟩

theorem AddedWith.trans {q₁ q' : ReassemblyQueue} {xs₁ : List Ptr} {g₁ : TcpFlag}
    (h : AddedWith q₁ xs₁ s e g₁ q' xs') (hnxt : q₁.rcv_nxt_ = q.rcv_nxt_)
    (hcov : q₁.covered xs₁ ∪ Set.Ico s e = q.covered xs ∪ Set.Ico s e)
    (hsub : q₁.covered xs₁ ⊆ q.covered xs) (hab : Absorbed q xs s e g q₁ xs₁ g₁) :
    AddedWith q xs s e g q' xs' :=
  ⟨h.toAdded.trans hnxt hcov hsub, fun hb => hab.flags.trans (h.flags (hab.bridge hb))⟩

/-- The block is not inside the range. -/
def outside (q : ReassemblyQueue) (s e : ℤ) (x : Ptr) : Bool :=
  decide (¬ (s ≤ q.startseq_ x ∧ q.endseq_ x ≤ e))

/-- A block inside the range adds nothing to it. -/
theorem covered_inside (hx : s ≤ q.startseq_ x ∧ q.endseq_ x ≤ e) :
    q.covered (A ++ B) ∪ Set.Ico s e = q.covered (A ++ x :: B) ∪ Set.Ico s e := by
  have hsub : Set.Ico (q.startseq_ x) (q.endseq_ x) ⊆ Set.Ico s e := Set.Ico_subset_Ico hx.1 hx.2
  rw [covered, covered, cover_append, cover_append, cover_cons]
  ext n
  have := @hsub n
  simp only [Set.mem_union]
  tauto

/-- The result of the loop that kills overlapped blocks, over the part `M` of the list. -/
def SweepResult (q : ReassemblyQueue) (C M B : List Ptr) (s e : ℤ) (g : TcpFlag)
    (altered : Bool) (result : Option Swept) : Prop :=
  (∃ q' flag xs', result = some (.exactOverlap q' flag) ∧
    AddedWith q (C ++ M ++ B) s e g q' xs') ∨
    ∃ q' g' i' altered' M', result = some (.done q' g' i' altered') ∧
      q'.Holds (C ++ M' ++ B) ∧ M' = M.filter (q.outside s e) ∧
      (q'.covered (C ++ M' ++ B) ∪ Set.Ico s e = q.covered (C ++ M ++ B) ∪ Set.Ico s e) ∧
      q'.covered (C ++ M' ++ B) ⊆ q.covered (C ++ M ++ B) ∧
      q'.startseq_ = q.startseq_ ∧ q'.endseq_ = q.endseq_ ∧ q'.rcv_nxt_ = q.rcv_nxt_ ∧
      (altered' = true ∧ M'.length < M.length ∨ altered' = altered ∧ M' = M) ∧
      Absorbed q (C ++ M ++ B) s e g q' (C ++ M' ++ B) g'

/-- **The loop that kills overlapped blocks.**  It finds the range itself as a block, or
takes out the blocks inside the range. -/
theorem sweep_spec :
    ∀ {M C : List Ptr} {fuel : ℕ} {q : ReassemblyQueue} {g : TcpFlag} {i : ℤ} {w : Bool},
      q.Holds (C ++ M ++ B) → M.length < fuel →
      SweepResult q C M B s e g w
        (sweep B.head? s e fuel q (M ++ B).head? g i w) := by
  intro M
  induction M with
  | nil =>
    intro C fuel q g i w h hf
    obtain ⟨fuel, rfl⟩ := Nat.exists_eq_succ_of_ne_zero hf.ne_bot
    refine Or.inr ⟨q, g, i, w, [], ?_, h, rfl, rfl, subset_rfl, rfl, rfl, rfl,
      Or.inr ⟨rfl, rfl⟩, Absorbed.refl⟩
    rw [List.nil_append]
    cases B with
    | nil => rfl
    | cons b B => rw [List.head?_cons, sweep, if_pos rfl]
  | cons r M ih =>
    intro C fuel q g i w h hf
    obtain ⟨fuel, rfl⟩ := Nat.exists_eq_succ_of_ne_zero hf.ne_bot
    have hf' : M.length < fuel := by simpa using hf
    have h' : q.Holds (C ++ r :: (M ++ B)) := by simpa using h
    have hnext : q.next_ r = (M ++ B).head? := h'.fifo.next C r (M ++ B) rfl
    have hlast : ¬ some r = B.head? := by
      intro heq
      exact (notMem_of_nodup h'.fifo.nodup).2 (List.mem_append_right _ (List.mem_of_head? heq.symm))
    rw [List.cons_append, List.head?_cons, sweep, if_neg hlast]
    by_cases hexact : s = q.startseq_ r ∧ e = q.endseq_ r
    · rw [if_pos hexact]
      have hsub : Set.Ico s e ⊆ q.covered (C ++ r :: M ++ B) := fun n hn =>
        ⟨r, by simp, hexact.1.ge.trans hn.1, hn.2.trans_le hexact.2.le⟩
      refine Or.inl ⟨_, _, C ++ r :: M ++ B, rfl, ⟨⟨h.links, h.blocks, h.count⟩,
        (Set.union_eq_self_of_subset_right hsub).symm, Or.inl ⟨rfl, hsub⟩⟩, fun _ => ?_⟩
      have hself : Function.update q.pflags_ r (q.pflags_ r ||| g) r = q.pflags_ r ||| g :=
        Function.update_self _ _ _
      refine flagsKept_of_blocks (fun x hx => ⟨x, hx, le_rfl, le_rfl, fun j hj => ?_⟩)
        ⟨r, by simp, hexact.1.ge, hexact.2.le, fun j hj => ?_⟩
      · show (Function.update q.pflags_ r (q.pflags_ r ||| g) x).testBit j = true
        by_cases hxr : x = r
        · rw [hxr, hself]
          exact testBit_or_left (hxr ▸ hj)
        · rwa [Function.update_of_ne hxr]
      · show (Function.update q.pflags_ r (q.pflags_ r ||| g) r).testBit j = true
        rw [hself]
        exact testBit_or_right hj
    · rw [if_neg hexact, hnext]
      by_cases hin : s ≤ q.startseq_ r ∧ e ≥ q.endseq_ r
      · rw [if_pos hin]
        have hrem := h'.remove
        have hassoc : C ++ (M ++ B) = C ++ M ++ B := (List.append_assoc _ _ _).symm
        rw [hassoc] at hrem
        have hcov : q.covered (C ++ M ++ B) ∪ Set.Ico s e
            = q.covered (C ++ r :: M ++ B) ∪ Set.Ico s e := by
          simpa using covered_inside (A := C) (B := M ++ B) hin
        have hsub : q.covered (C ++ M ++ B) ⊆ q.covered (C ++ r :: M ++ B) := by
          rintro n ⟨y, hy, hn⟩
          refine ⟨y, ?_, hn⟩
          simp only [List.mem_append, List.mem_cons] at hy ⊢
          tauto
        have hfilter : (r :: M).filter (q.outside s e) = M.filter (q.outside s e) := by
          rw [List.filter_cons, if_neg]
          simpa [outside] using hin
        have hkill : ∀ q₁ : ReassemblyQueue, q₁.startseq_ = q.startseq_ →
            q₁.endseq_ = q.endseq_ → q₁.pflags_ = q.pflags_ →
            Absorbed q (C ++ r :: M ++ B) s e g q₁ (C ++ M ++ B) (g ||| q.pflags_ r) :=
          fun q₁ h1 h2 h3 => by
            simpa using absorbed_remove (A := C) (B := M ++ B) (g := g) hin h1 h2 h3
        rcases ih (g := g ||| q.pflags_ r) (i := i + q.cnt_ r) (w := true) hrem hf' with
          ⟨q', flag, xs', h1, h2⟩ | ⟨q', g', i', alt', M', h1, h2, h3, h4, hsub', h5, h6, h7, h8, hab⟩
        · exact Or.inl ⟨q', flag, xs', h1, h2.trans rfl hcov hsub (hkill _ rfl rfl rfl)⟩
        · refine Or.inr ⟨q', g', i', alt', M', h1, h2, h3.trans hfilter.symm,
            h4.trans hcov, hsub'.trans hsub, h5, h6, h7, Or.inl ?_, Absorbed.trans ?_ hab⟩
          · have hle : M'.length ≤ M.length := by rw [h3]; exact List.length_filter_le _ _
            rcases h8 with ⟨h8, -⟩ | ⟨h8, -⟩
            · exact ⟨h8, Nat.lt_succ_of_le hle⟩
            · exact ⟨h8, Nat.lt_succ_of_le hle⟩
          · exact hkill _ rfl rfl rfl
      · rw [if_neg hin]
        have hassoc : C ++ [r] ++ M ++ B = C ++ r :: M ++ B := by simp
        have hfilter : (r :: M).filter (q.outside s e) = r :: M.filter (q.outside s e) := by
          rw [List.filter_cons, if_pos]
          exact decide_eq_true hin
        rcases ih (C := C ++ [r]) (g := g) (i := i) (w := w) (hassoc ▸ h) hf' with
          ⟨q', flag, xs', h1, h2⟩ | ⟨q', g', i', alt', M', h1, h2, h3, h4, hsub', h5, h6, h7, h8, hab⟩
        · exact Or.inl ⟨q', flag, xs', h1, hassoc ▸ h2⟩
        · refine Or.inr ⟨q', g', i', alt', r :: M', h1, by simpa using h2, ?_, by simpa using h4,
            by simpa using hsub', h5, h6, h7, ?_, by simpa using hab⟩
          · rw [hfilter, h3]
          · rcases h8 with ⟨h8, h9⟩ | ⟨h8, h9⟩
            · exact Or.inl ⟨h8, Nat.succ_lt_succ h9⟩
            · exact Or.inr ⟨h8, by rw [h9]⟩

/-- The loop as it is started, from the last block before the range or from the head. -/
theorem sweep_start_spec {fuel : ℕ} (h : q.Holds (A ++ M ++ B))
    (hA : ∀ a ∈ A, q.endseq_ a ≤ s) (hf : (A ++ M ++ B).length < fuel) :
    SweepResult q A M B s e g false
      (sweep B.head? s e fuel q (A.getLast?.or q.head_) g i false) := by
  rcases List.eq_nil_or_concat A with rfl | ⟨A, a, rfl⟩
  · rw [List.getLast?_nil, Option.none_or, h.head_eq, List.nil_append]
    refine sweep_spec h ?_
    simp only [List.nil_append, List.length_append] at hf
    omega
  · rw [List.concat_eq_append] at *
    have hassoc : ∀ M', A ++ (a :: M') ++ B = A ++ [a] ++ M' ++ B := by simp
    have ha : q.outside s e a = true := by
      have h1 := hA a (by simp)
      have h2 := h.blocks.pos a (by simp)
      exact decide_eq_true fun hin => by omega
    have hlen : (a :: M).length < fuel := by
      simp only [List.length_append, List.length_cons] at hf ⊢
      omega
    have hr : (A ++ [a]).getLast?.or q.head_ = (a :: M ++ B).head? := by
      rw [List.getLast?_concat, Option.some_or, List.cons_append, List.head?_cons]
    rw [hr]
    -- the block before the range is outside of it, and stays
    rcases sweep_spec (C := A) (M := a :: M) (B := B) (s := s) (e := e) (g := g) (i := i)
        (w := false) ((hassoc M).symm ▸ h) hlen with
      ⟨q', flag, xs', h1, h2⟩ | ⟨q', g', i', alt', M', h1, h2, h3, h4, hsub', h5, h6, h7, h8, hab⟩
    · exact Or.inl ⟨q', flag, xs', h1, hassoc M ▸ h2⟩
    · rw [List.filter_cons, if_pos ha] at h3
      subst h3
      rw [hassoc] at h2
      rw [hassoc, hassoc] at h4 hsub' hab
      refine Or.inr ⟨q', g', i', alt', _, h1, h2, rfl, h4, hsub', h5, h6, h7, ?_, hab⟩
      rcases h8 with ⟨h8, h9⟩ | ⟨h8, h9⟩
      · exact Or.inl ⟨h8, by simpa using h9⟩
      · exact Or.inr ⟨h8, (List.cons.inj h9).2⟩

/-! ## The search, and `add` -/

/-- The search from the head stops at the first block after the range. -/
theorem dropWhile_before (h : Separated q.startseq_ q.endseq_ (A ++ M ++ B)) (hse : s < e)
    (hA : ∀ a ∈ A, q.endseq_ a ≤ s) (hM : ∀ x ∈ M, s < q.endseq_ x ∧ q.startseq_ x < e)
    (hB : ∀ b ∈ B, e ≤ q.startseq_ b) :
    (A ++ M ++ B).dropWhile (fun x => q.startseq_ x < e) = B := by
  have hall : ∀ x ∈ A ++ M, (decide (q.startseq_ x < e)) = true := by
    intro x hx
    refine decide_eq_true ?_
    rcases List.mem_append.mp hx with hx | hx
    · have h1 := hA x hx
      have h2 := h.pos x (by simp [hx])
      omega
    · exact (hM x hx).2
  rw [List.dropWhile_append_of_pos hall]
  cases B with
  | nil => rfl
  | cons b B =>
    rw [List.dropWhile_cons, if_neg]
    simpa using hB b List.mem_cons_self

/-- The search from the tail stops at the last block before the range. -/
theorem rdropWhile_after (h : Separated q.startseq_ q.endseq_ (A ++ M ++ B)) (hse : s < e)
    (hA : ∀ a ∈ A, q.endseq_ a ≤ s) (hM : ∀ x ∈ M, s < q.endseq_ x ∧ q.startseq_ x < e)
    (hB : ∀ b ∈ B, e ≤ q.startseq_ b) :
    (A ++ M ++ B).rdropWhile (fun x => q.endseq_ x > s) = A := by
  have hall : ∀ x ∈ (M ++ B).reverse, (decide (q.endseq_ x > s)) = true := by
    intro x hx
    refine decide_eq_true ?_
    rcases List.mem_append.mp (List.mem_reverse.mp hx) with hx | hx
    · exact (hM x hx).1
    · have h1 := hB x hx
      have h2 := h.pos x (by simp [hx])
      omega
  rw [List.rdropWhile, List.append_assoc, List.reverse_append, List.dropWhile_append_of_pos hall]
  rcases List.eq_nil_or_concat A with rfl | ⟨A, a, rfl⟩
  · rfl
  · rw [List.concat_eq_append, List.reverse_append, List.reverse_singleton, List.singleton_append,
      List.dropWhile_cons, if_neg]
    · simp
    · simpa using hA a (by simp)

/-- The two searches, when the range is neither after the last block nor before the first. -/
theorem searches_spec {hd t : Ptr} (h : q.Holds xs) (hse : s < e) (hhd : xs.head? = some hd)
    (ht : xs.getLast? = some t) (hafter : s < q.endseq_ t) (hbefore : q.startseq_ hd < e) :
    ∃ A M B, xs = A ++ M ++ B ∧ (∀ a ∈ A, q.endseq_ a ≤ s) ∧
      (∀ x ∈ M, s < q.endseq_ x ∧ q.startseq_ x < e) ∧ (∀ b ∈ B, e ≤ q.startseq_ b) ∧
      A ++ M ≠ [] ∧ M ++ B ≠ [] ∧
      walk q.next_ (fun x => decide (q.startseq_ x < e)) q.bound (some hd) = some B.head? ∧
      walk q.prev_ (fun x => decide (q.endseq_ x > s)) q.bound (some t) = some A.getLast? := by
  obtain ⟨A, M, B, rfl, hA, hM, hB⟩ := exists_split s e h.blocks
  have hr := walk_forward (fun x => decide (q.startseq_ x < e)) (A := [])
    (by simpa using h.fifo) h.length_lt_bound
  have hp := walk_backward (fun x => decide (q.endseq_ x > s)) (B := [])
    (by simpa using h.fifo) h.length_lt_bound
  rw [dropWhile_before h.blocks hse hA hM hB, hhd] at hr
  rw [rdropWhile_after h.blocks hse hA hM hB, ht] at hp
  refine ⟨A, M, B, rfl, hA, hM, hB, fun hnil => ?_, fun hnil => ?_, hr, hp⟩
  · rw [hnil, List.nil_append] at hhd
    exact not_le.mpr hbefore (hB hd (List.mem_of_head? hhd))
  · rw [List.append_assoc, hnil, List.append_nil] at ht
    exact not_le.mpr hafter (hA t (List.mem_of_getLast? ht))

/-- The last block ends last. -/
theorem Holds.endseq_le_of_last {t : Ptr} (h : q.Holds xs) (ht : xs.getLast? = some t)
    (hs : q.endseq_ t ≤ s) : ∀ a ∈ xs, q.endseq_ a ≤ s := by
  obtain ⟨ys, rfl⟩ := List.getLast?_eq_some_iff.mp ht
  exact fun a ha => (h.blocks.hi_le_last ha).trans hs

/-- The first block starts first. -/
theorem Holds.le_startseq_of_head {t : Ptr} (h : q.Holds xs) (ht : xs.head? = some t)
    (he : e ≤ q.startseq_ t) : ∀ b ∈ xs, e ≤ q.startseq_ b := by
  obtain ⟨ys, rfl⟩ := List.head?_eq_some_iff.mp ht
  exact fun b hb => he.trans (h.blocks.lo_head_le hb)

/-- **From `again2:` on.**  It returns, because every round that goes back to the label
has killed a block. -/
theorem again2_spec :
    ∀ {fuel : ℕ} {q : ReassemblyQueue} {xs : List Ptr} {g : TcpFlag} {i : ℤ}, q.Holds xs →
      xs ≠ [] → s < e → xs.length < fuel →
      ∃ q' flag xs', again2 s e f fuel q g i = some (q', flag) ∧
        AddedWith q xs s e g q' xs' := by
  intro fuel
  induction fuel with
  | zero => intro q xs g i _ _ _ hf; exact absurd hf (Nat.not_lt_zero _)
  | succ fuel ih =>
    intro q xs g i h hne hse hf
    obtain ⟨t, ht⟩ : ∃ t, xs.getLast? = some t := ⟨_, List.getLast?_eq_some_getLast hne⟩
    obtain ⟨hd, hhd⟩ : ∃ hd, xs.head? = some hd := ⟨_, List.head?_eq_some_head hne⟩
    rw [again2]
    simp only [h.fifo.tail, h.head_eq, ht, hhd]
    split
    · -- after the last block
      rename_i hafter
      have hA := h.endseq_le_of_last ht hafter
      obtain ⟨q', flag, xs', h1, h2⟩ := endfast_spec (A := xs) (B := []) (g := g) (f := f)
        (i := i) (w := decide (s = q.endseq_ t)) (by simpa using h) hse hA (by simp)
        (by simp [TouchesNeighbour, ht, eq_comm])
      rw [ht] at h1
      refine ⟨q', flag, xs', h1,
        h2.addedWith (h2.added rfl (by rw [List.append_nil]) le_rfl hse le_rfl)
          (by rw [List.append_nil]) fun _ p r _ hr => ?_⟩
      exact absurd hr (by simp)
    · split
      · -- before the first block
        rename_i hbefore
        have hB := h.le_startseq_of_head hhd hbefore
        obtain ⟨q', flag, xs', h1, h2⟩ := endfast_spec (A := []) (B := xs) (g := g) (f := f)
          (i := i) (w := decide (e = q.startseq_ hd)) h hse (by simp) hB
          (by simp [TouchesNeighbour, hhd, eq_comm])
        rw [hhd] at h1
        refine ⟨q', flag, xs', h1,
          h2.addedWith (h2.added rfl rfl le_rfl hse le_rfl) subset_rfl fun _ p r hp => ?_⟩
        exact absurd hp (by simp)
      · rename_i hafter hbefore
        obtain ⟨A, M, B, rfl, hA, hM, hB, hAM, hMB, hr, hp⟩ :=
          searches_spec h hse hhd ht (not_le.mp hafter) (not_le.mp hbefore)
        rw [hr, hp, Option.bind_some, Option.bind_some, ← hhd, ← h.head_eq]
        rcases sweep_start_spec (g := g) (i := i) h hA h.length_lt_bound with
          ⟨q', flag, xs', h1, h2⟩ | ⟨q', g', i', alt', M', h1, h2, h3, h4, hsub', h5, h6, h7, h8, hab⟩
        · exact ⟨q', flag, xs', by rw [h1]; rfl, h2⟩
        · rw [h1, Option.bind_some]
          simp only
          by_cases hemp : A ++ M' ++ B = []
          · -- everything was overlapped
            rw [if_pos (h2.empty_iff.mpr hemp)]
            obtain ⟨⟨rfl, rfl⟩, rfl⟩ : (A = [] ∧ M' = []) ∧ B = [] := by
              simpa [and_assoc] using hemp
            obtain ⟨q'', flag, xs'', h9, h10⟩ := endfast_spec (A := []) (B := []) (g := g')
              (f := f) (i := i') (w := false) h2 hse (by simp) (by simp)
              (by simp [TouchesNeighbour])
            have h11 : AddedWith q' [] s e g' q'' xs'' :=
              h10.addedWith (h10.added rfl rfl le_rfl hse le_rfl) subset_rfl
                fun _ p r hp => absurd hp (by simp)
            exact ⟨q'', flag, xs'', h9, h11.trans h7 h4 hsub' hab⟩
          · rw [if_neg (mt h2.empty_iff.mp hemp)]
            rcases h8 with ⟨rfl, hlen⟩ | ⟨rfl, rfl⟩
            · -- a block was killed: once more
              rw [if_pos rfl]
              obtain ⟨q'', flag, xs'', h9, h10⟩ := ih (g := g') (i := i') h2 hemp hse (by
                simp only [List.length_append] at hf ⊢
                omega)
              exact ⟨q'', flag, xs'', h9, h10.trans h7 h4 hsub' hab⟩
            · rw [if_neg (by simp)]
              have hnot : ∀ x ∈ M', ¬ (s ≤ q'.startseq_ x ∧ q'.endseq_ x ≤ e) := by
                intro x hx
                rw [h3, List.mem_filter] at hx
                rw [h5, h6]
                exact of_decide_eq_true hx.2
              rw [← h5] at hM hB
              rw [← h6] at hA hM
              obtain ⟨q'', flag, xs'', h9, h10⟩ :=
                merge_spec (g := g') (f := f) (i := i') h2 hse hA hM hnot hB hAM hMB
              exact ⟨q'', flag, xs'', h9, h10.trans h7 h4 hsub' hab⟩

/-- The first insertion. -/
theorem addFirst_spec (h : q.Holds []) (hse : s < e) :
    ∃ xs', AddedWith q [] s e g (q.addFirst s e g f).1 xs' := by
  obtain ⟨fs, hs⟩ := h.links
  obtain ⟨fs', h1, -, h3, h4⟩ := hs.new
  generalize hnew : q.newseginfo.1 = n at *
  have hlist : ∀ nxt prv : Ptr → Option Ptr,
      IsDList (Function.update nxt n none) (Function.update prv n none) (some n) (some n) [n] :=
    fun _ _ => (@IsDList.empty Ptr _ _).insert (A := []) (B := []) (by simp)
  have hshape : Shape (q.addFirst s e g f).1.toLinks [n] fs' := by
    simp only [addFirst, hnew]
    refine ⟨hlist _ _, ⟨[n], List.Perm.refl _, hlist _ _⟩, ?_, by simpa using h3, ?_⟩
    · exact h1.free.congr fun x hx => Function.update_of_ne (ne_of_mem_of_not_mem hx h3) _ _
    · rintro x (hx | hx)
      · rw [List.mem_singleton.mp hx]
        exact h4
      · exact h1.old x (Or.inr hx)
  refine ⟨[n], ⟨⟨⟨fs', hshape⟩, ⟨?_, List.pairwise_singleton _ _⟩, ?_⟩, ?_,
    Or.inr ⟨n, by simp, Or.inr rfl, ?_⟩⟩, fun _ => flagsKept_of_blocks (by simp) ⟨n, by simp, ?_⟩⟩
  · simpa [addFirst, hnew] using hse
  · simp [addFirst, hnew]
  · simp [covered, addFirst, hnew]
  · simp [PointAt, addFirst, hnew]
  · simp [addFirst, hnew]

/-- **`add`.**  It returns, the queue is in order again, and the cover has grown by the
range. -/
theorem add_spec (h : q.Holds xs) (hse : s < e) :
    ∃ q' flag xs', q.add s e g f = some (q', flag) ∧ AddedWith q xs s e g q' xs' := by
  rw [add, if_neg (not_lt.mpr hse.le)]
  cases xs with
  | nil =>
    have hnone : q.head_ = none := by rw [h.head_eq, List.head?_nil]
    obtain ⟨fs, hs⟩ := h.links
    obtain ⟨xs', hadd⟩ := addFirst_spec (g := g) (f := f) h hse
    rw [hnone]
    exact ⟨_, _, xs', if_pos hs.top_eq_none, hadd⟩
  | cons x xs =>
    have hsome : q.head_ = some x := by rw [h.head_eq, List.head?_cons]
    rw [hsome]
    exact again2_spec h (List.cons_ne_nil x xs) hse h.length_lt_bound

end Ns2.Tcp.ReassemblyQueue
