import Ns2.Tcp.ReassemblyAdd

/-!
# The LIFO of a reassembly queue

`add` pushes a node for a range that touches no block.  A range that touches a block goes into
the node of the first such block, which stays where it is on the LIFO; the nodes of the other
blocks that the range touches are taken off.

* `Stacked l ys` — the nodes `ys` are on the LIFO, from the top on.
* `Touches`, `Carries` — a block touches the range, and is the one that takes it.
* `Restacked` — what becomes of the LIFO.
* `endfast_restacked`, `merge_restacked`, `sweep_restacked`, `add_restacked` — what the parts of
  `add` and `add` itself do to it.
-/

namespace Ns2.Tcp

open Linked Intervals

/-- The nodes `ys` are on the LIFO, from the top on. -/
def Stacked (l : Links) (ys : List Ptr) : Prop := IsDList l.snext_ l.sprev_ l.top_ l.bottom_ ys

namespace Stacked

variable {l : Links} {ys : List Ptr} {n p : Ptr}

theorem nodup (h : Stacked l ys) : ys.Nodup := IsDList.nodup h

/-- `sremove` takes a node off. -/
theorem sremove (h : Stacked l ys) (hp : p ∈ ys) :
    Stacked (l.sremove p) (ys.filter fun x => decide (x ≠ p)) := by
  obtain ⟨C, D, rfl⟩ := List.append_of_mem hp
  rw [filter_ne_middle h.nodup]
  exact IsDList.unlink h

/-- `sremove` of the node on top. -/
theorem pop (h : Stacked l (n :: ys)) : Stacked (l.sremove n) ys :=
  IsDList.unlink (A := []) h

/-- `newseginfo` leaves the LIFO alone. -/
theorem newseginfo (h : Stacked l ys) : Stacked l.newseginfo.2 ys := by
  unfold Links.newseginfo
  cases l.freelist_ with
  | none => exact h
  | some s => exact h

/-- The assignments after `endfast:` put a node on top. -/
theorem linkIn {p? r? : Option Ptr} (h : Stacked l ys) (hn : n ∉ ys) :
    Stacked (l.linkIn n p? r?) (n :: ys) := by
  have hins := IsDList.insert (A := []) (B := ys) (n := n) h hn
  rw [← IsDList.head h] at hins
  exact hins

end Stacked

namespace ReassemblyQueue

variable {q q' q₂ : ReassemblyQueue} {xs ys zs A B C M : List Ptr} {s e s₂ e₂ : ℤ}
  {c x p n r m : Ptr} {g flag : TcpFlag} {f : ℕ} {i : ℤ} {w : Bool}

/-! ## Blocks that touch a range -/

/-- The block overlaps the range, or is next to it. -/
def Touches (q : ReassemblyQueue) (s e : ℤ) (x : Ptr) : Prop := s ≤ q.endseq_ x ∧ q.startseq_ x ≤ e

instance (q : ReassemblyQueue) (s e : ℤ) (x : Ptr) : Decidable (q.Touches s e x) :=
  inferInstanceAs (Decidable (_ ∧ _))

/-- The first of the blocks `zs` that touch the range. -/
structure Carries (q : ReassemblyQueue) (zs : List Ptr) (s e : ℤ) (c : Ptr) : Prop where
  /-- It is one of them. -/
  mem : c ∈ zs
  /-- It touches the range. -/
  touches : q.Touches s e c
  /-- It comes first. -/
  first : ∀ x ∈ zs, q.Touches s e x → q.startseq_ c ≤ q.startseq_ x

instance (q : ReassemblyQueue) (zs : List Ptr) (s e : ℤ) (c : Ptr) : Decidable (q.Carries zs s e c) :=
  decidable_of_iff (c ∈ zs ∧ q.Touches s e c ∧
      ∀ x ∈ zs, q.Touches s e x → q.startseq_ c ≤ q.startseq_ x)
    ⟨fun h => ⟨h.1, h.2.1, h.2.2⟩, fun h => ⟨h.mem, h.touches, h.first⟩⟩

/-- The block has a number in common with the range. -/
def Meets (q : ReassemblyQueue) (s e : ℤ) (x : Ptr) : Prop :=
  ∃ k, (s ≤ k ∧ k < e) ∧ q.startseq_ x ≤ k ∧ k < q.endseq_ x

/-- What becomes of the LIFO `ys` when a range is added and the blocks `zs` do not lie inside of
it. -/
inductive Restacked (q : ReassemblyQueue) (zs ys : List Ptr) (s e : ℤ) (q' : ReassemblyQueue) : Prop
  /-- The range is a block of its own, with its node on top. -/
  | fresh (n : Ptr) (alone : ∀ x ∈ zs, ¬ q.Touches s e x)
      (stack : Stacked q'.toLinks (n :: ys.filter fun x => decide (¬ q.Touches s e x)))
      (meets : q'.Meets s e n)
  /-- The range is in the node of the first block that touches it. -/
  | carried (c : Ptr) (carries : q.Carries zs s e c)
      (stack : Stacked q'.toLinks (ys.filter fun x => decide (x = c ∨ ¬ q.Touches s e x)))
      (meets : q'.Meets s e c)

theorem Meets.mono (h : q.Meets s₂ e₂ x) (hs : s ≤ s₂) (he : e₂ ≤ e) : q.Meets s e x := by
  obtain ⟨k, ⟨h1, h2⟩, h3⟩ := h
  exact ⟨k, ⟨hs.trans h1, h2.trans_le he⟩, h3⟩

/-- The same for a part of the range that touches the same blocks. -/
theorem Restacked.of_part (h : Restacked q₂ zs ys s₂ e₂ q') (hys : ∀ x ∈ ys, x ∈ zs)
    (htouch : ∀ x ∈ zs, q.Touches s e x ↔ q₂.Touches s₂ e₂ x)
    (hstart : ∀ x ∈ zs, q.startseq_ x = q₂.startseq_ x) (hs : s ≤ s₂) (he : e₂ ≤ e) :
    Restacked q zs ys s e q' := by
  cases h with
  | fresh n alone stack meets =>
    refine .fresh n (fun x hx ht => alone x hx ((htouch x hx).mp ht)) ?_ (meets.mono hs he)
    have hsame : (ys.filter fun x => decide (¬ q.Touches s e x))
        = ys.filter fun x => decide (¬ q₂.Touches s₂ e₂ x) :=
      List.filter_congr fun x hx => decide_eq_decide.mpr (not_congr (htouch x (hys x hx)))
    rw [hsame]
    exact stack
  | carried c carries stack meets =>
    refine .carried c ⟨carries.mem, (htouch c carries.mem).mpr carries.touches, ?_⟩ ?_
      (meets.mono hs he)
    · intro x hx ht
      rw [hstart c carries.mem, hstart x hx]
      exact carries.first x hx ((htouch x hx).mp ht)
    · have hsame : (ys.filter fun x => decide (x = c ∨ ¬ q.Touches s e x))
          = ys.filter fun x => decide (x = c ∨ ¬ q₂.Touches s₂ e₂ x) :=
        List.filter_congr fun x hx =>
          decide_eq_decide.mpr (or_congr Iff.rfl (not_congr (htouch x (hys x hx))))
      rw [hsame]
      exact stack

/-- The order of the blocks does not matter. -/
theorem Restacked.congr (h : Restacked q xs ys s e q') (hzs : ∀ x, x ∈ zs ↔ x ∈ xs) :
    Restacked q zs ys s e q' := by
  cases h with
  | fresh n alone stack meets => exact .fresh n (fun x hx => alone x ((hzs x).mp hx)) stack meets
  | carried c carries stack meets =>
    refine .carried c ⟨(hzs c).mpr carries.mem, carries.touches, fun x hx => ?_⟩ stack meets
    exact carries.first x ((hzs x).mp hx)

/-- Nothing but the block that takes the range touches it. -/
theorem filter_carrier (honly : ∀ x ∈ ys, q.Touches s e x → x = c) :
    ys.filter (fun x => decide (x = c ∨ ¬ q.Touches s e x)) = ys := by
  rw [List.filter_eq_self]
  intro x hx
  by_cases ht : q.Touches s e x
  · exact decide_eq_true (Or.inl (honly x hx ht))
  · exact decide_eq_true (Or.inr ht)

/-! ## From `endfast:` on -/

/-- The new node is on top of the LIFO. -/
theorem insertNode_stacked (h : q.Holds (A ++ B)) (hys : ys.Perm (A ++ B))
    (hst : Stacked q.toLinks ys) {q₁ : ReassemblyQueue}
    (hq₁ : q₁ = q.insertNode A.getLast? B.head? s e g f i) :
    Stacked q₁.toLinks (q.newseginfo.1 :: ys) ∧ q.newseginfo.1 ∉ A ++ B := by
  obtain ⟨-, hn⟩ := insertNode_shape (s := s) (e := e) (g := g) (f := f) (i := i) h
  subst hq₁
  exact ⟨hst.newseginfo.linkIn fun hmem => hn (hys.mem_iff.mp hmem), hn⟩

/-- The new node is the range. -/
theorem insertNode_startseq {p? r? : Option Ptr} :
    (q.insertNode p? r? s e g f i).startseq_ q.newseginfo.1 = s :=
  Function.update_self _ _ _

theorem insertNode_endseq {p? r? : Option Ptr} :
    (q.insertNode p? r? s e g f i).endseq_ q.newseginfo.1 = e :=
  Function.update_self _ _ _

/-- A range between blocks that it does not overlap touches the neighbours at most. -/
theorem touches_before (hA : ∀ a ∈ A, q.endseq_ a ≤ s) (ha : x ∈ A) (ht : q.Touches s e x) :
    q.endseq_ x = s :=
  le_antisymm (hA x ha) ht.1

theorem touches_after (hB : ∀ b ∈ B, e ≤ q.startseq_ b) (hb : x ∈ B) (ht : q.Touches s e x) :
    q.startseq_ x = e :=
  le_antisymm ht.2 (hB x hb)

/-- A range that touches no block. -/
theorem insertNode_restacked (h : q.Holds (A ++ B)) (hys : ys.Perm (A ++ B))
    (hst : Stacked q.toLinks ys) (hse : s < e) (hA : ∀ a ∈ A, q.endseq_ a < s)
    (hB : ∀ b ∈ B, e < q.startseq_ b) {q₁ : ReassemblyQueue}
    (hq₁ : q₁ = q.insertNode A.getLast? B.head? s e g f i) (hlinks : q'.toLinks = q₁.toLinks)
    (hlo : q'.startseq_ = q₁.startseq_) (hhi : q'.endseq_ = q₁.endseq_) :
    Restacked q (A ++ B) ys s e q' := by
  have halone : ∀ x ∈ A ++ B, ¬ q.Touches s e x := by
    intro x hx ht
    rcases List.mem_append.mp hx with hx | hx
    · exact absurd ht.1 (not_le.mpr (hA x hx))
    · exact absurd ht.2 (not_le.mpr (hB x hx))
  have hfilter : (ys.filter fun x => decide (¬ q.Touches s e x)) = ys :=
    List.filter_eq_self.mpr fun x hx => decide_eq_true (halone x (hys.mem_iff.mp hx))
  refine .fresh q.newseginfo.1 halone ?_ ⟨s, ⟨le_rfl, hse⟩, ?_, ?_⟩
  · rw [hfilter, hlinks]
    exact (insertNode_stacked h hys hst hq₁).1
  · rw [hlo, hq₁, insertNode_startseq]
  · rwa [hhi, hq₁, insertNode_endseq]

/-- A range that joins the block after it. -/
theorem joinNext_restacked (h : q.Holds (A ++ r :: B)) (hys : ys.Perm (A ++ r :: B))
    (hst : Stacked q.toLinks ys) (hse : s < e) (hr : q.startseq_ r = e)
    (hA : ∀ a ∈ A, q.endseq_ a < s) (hB : ∀ b ∈ r :: B, e ≤ q.startseq_ b)
    {q₁ : ReassemblyQueue} (hq₁ : q₁ = q.insertNode A.getLast? (some r) s e g f i) :
    Restacked q (A ++ r :: B) ys s e ((q₁.joinNext q.newseginfo.1 r).1.advanceTo r) := by
  obtain ⟨hpush, hn⟩ := insertNode_stacked (s := s) (e := e) (g := g) (f := f) (i := i) h hys hst hq₁
  have hrpos := h.blocks.pos r (by simp)
  have honly : ∀ x ∈ A ++ r :: B, q.Touches s e x → x = r := by
    intro x hx ht
    rcases List.mem_append.mp hx with hx | hx
    · exact absurd ht.1 (not_le.mpr (hA x hx))
    · exact h.blocks.right.eq_of_lo_eq hx List.mem_cons_self ((touches_after hB hx ht).trans hr.symm)
  refine .carried r ⟨by simp, ⟨by omega, hr.le⟩, fun x hx ht => (honly x hx ht ▸ le_rfl)⟩ ?_
    ⟨s, ⟨le_rfl, hse⟩, ?_, ?_⟩
  · rw [filter_carrier fun x hx => honly x (hys.mem_iff.mp hx)]
    exact hpush.pop
  · show Function.update q₁.startseq_ r (q₁.startseq_ q.newseginfo.1) r ≤ s
    rw [Function.update_self, hq₁, insertNode_startseq]
  · show s < q₁.endseq_ r
    have hne : r ≠ q.newseginfo.1 := ne_of_mem_of_not_mem (by simp) hn
    have hsame : q₁.endseq_ r = q.endseq_ r := by
      rw [hq₁]
      exact Function.update_of_ne hne _ _
    omega

/-- A range that joins the block before it. -/
theorem joinPrev_restacked (h : q.Holds (A ++ [p] ++ B)) (hys : ys.Perm (A ++ [p] ++ B))
    (hst : Stacked q.toLinks ys) (hse : s < e) (hp : q.endseq_ p = s)
    (hA : ∀ a ∈ A ++ [p], q.endseq_ a ≤ s) (hB : ∀ b ∈ B, e < q.startseq_ b)
    {q₁ : ReassemblyQueue} (hq₁ : q₁ = q.insertNode (A ++ [p]).getLast? B.head? s e g f i) :
    Restacked q (A ++ [p] ++ B) ys s e ((q₁.joinPrev p q.newseginfo.1).1.advanceTo p) := by
  obtain ⟨hpush, hn⟩ := insertNode_stacked (s := s) (e := e) (g := g) (f := f) (i := i) h hys hst hq₁
  have hppos := h.blocks.pos p (by simp)
  have honly : ∀ x ∈ A ++ [p] ++ B, q.Touches s e x → x = p := by
    intro x hx ht
    rcases List.mem_append.mp hx with hx | hx
    · exact h.blocks.left.eq_of_hi_eq hx (by simp) ((touches_before hA hx ht).trans hp.symm)
    · exact absurd ht.2 (not_le.mpr (hB x hx))
  refine .carried p ⟨by simp, ⟨hp.ge, by omega⟩, fun x hx ht => (honly x hx ht ▸ le_rfl)⟩ ?_
    ⟨s, ⟨le_rfl, hse⟩, ?_, ?_⟩
  · rw [filter_carrier fun x hx => honly x (hys.mem_iff.mp hx)]
    exact hpush.pop
  · show q₁.startseq_ p ≤ s
    have hne : p ≠ q.newseginfo.1 := ne_of_mem_of_not_mem (by simp) hn
    have hsame : q₁.startseq_ p = q.startseq_ p := by
      rw [hq₁]
      exact Function.update_of_ne hne _ _
    omega
  · show s < Function.update q₁.endseq_ p (q₁.endseq_ q.newseginfo.1) p
    rwa [Function.update_self, hq₁, insertNode_endseq]

/-- A range that fills the hole between two blocks: the node of the second goes. -/
theorem fillHole_restacked (h : q.Holds (A ++ [p] ++ r :: B)) (hys : ys.Perm (A ++ [p] ++ r :: B))
    (hst : Stacked q.toLinks ys) (hse : s < e) (hp : q.endseq_ p = s) (hr : q.startseq_ r = e)
    (hA : ∀ a ∈ A ++ [p], q.endseq_ a ≤ s) (hB : ∀ b ∈ r :: B, e ≤ q.startseq_ b)
    {q₁ : ReassemblyQueue} (hq₁ : q₁ = q.insertNode (A ++ [p]).getLast? (some r) s e g f i) :
    Restacked q (A ++ [p] ++ r :: B) ys s e ((q₁.fillHole p q.newseginfo.1 r).1.advanceTo p) := by
  obtain ⟨hpush, hn⟩ := insertNode_stacked (s := s) (e := e) (g := g) (f := f) (i := i) h hys hst hq₁
  have hppos := h.blocks.pos p (by simp)
  have hrpos := h.blocks.pos r (by simp)
  have honly : ∀ x ∈ A ++ [p] ++ r :: B, q.Touches s e x ↔ x = p ∨ x = r := by
    intro x hx
    constructor
    · intro ht
      rcases List.mem_append.mp hx with hx | hx
      · exact Or.inl
          (h.blocks.left.eq_of_hi_eq hx (by simp) ((touches_before hA hx ht).trans hp.symm))
      · exact Or.inr
          (h.blocks.right.eq_of_lo_eq hx List.mem_cons_self ((touches_after hB hx ht).trans hr.symm))
    · rintro (rfl | rfl)
      · exact ⟨hp.ge, by omega⟩
      · exact ⟨by omega, hr.le⟩
  have hpr : p ≠ r := by
    rintro rfl
    omega
  have hfilter : (ys.filter fun x => decide (x = p ∨ ¬ q.Touches s e x))
      = ys.filter fun x => decide (x ≠ r) := by
    refine List.filter_congr fun x hx => decide_eq_decide.mpr ?_
    rw [honly x (hys.mem_iff.mp hx)]
    constructor
    · rintro (rfl | hx)
      · exact hpr
      · exact fun hxr => hx (Or.inr hxr)
    · intro hxr
      by_cases hxp : x = p
      · exact Or.inl hxp
      · exact Or.inr fun hor => hor.elim hxp hxr
  refine .carried p ⟨by simp, (honly p (by simp)).mpr (Or.inl rfl), fun x hx ht => ?_⟩ ?_
    ⟨s, ⟨le_rfl, hse⟩, ?_, ?_⟩
  · rcases (honly x hx).mp ht with rfl | rfl
    · exact le_rfl
    · omega
  · rw [hfilter]
    have hr : r ∈ ys := hys.mem_iff.mpr (by simp)
    have hpop : Stacked ((q₁.sremove q.newseginfo.1).fremove q.newseginfo.1) ys := hpush.pop
    exact hpop.sremove hr
  · show q₁.startseq_ p ≤ s
    have hne : p ≠ q.newseginfo.1 := ne_of_mem_of_not_mem (by simp) hn
    have hsame : q₁.startseq_ p = q.startseq_ p := by
      rw [hq₁]
      exact Function.update_of_ne hne _ _
    omega
  · show s < Function.update q₁.endseq_ p (q₁.endseq_ r) p
    have hne : r ≠ q.newseginfo.1 := ne_of_mem_of_not_mem (by simp) hn
    have hsame : q₁.endseq_ r = q.endseq_ r := by
      rw [hq₁]
      exact Function.update_of_ne hne _ _
    rw [Function.update_self]
    omega

/-- **From `endfast:` on.** -/
theorem endfast_restacked (h : q.Holds (A ++ B)) (hys : ys.Perm (A ++ B))
    (hst : Stacked q.toLinks ys) (hse : s < e) (hA : ∀ a ∈ A, q.endseq_ a ≤ s)
    (hB : ∀ b ∈ B, e ≤ q.startseq_ b) (hm : w = true ↔ q.TouchesNeighbour A B s e)
    (hres : q.endfast A.getLast? B.head? s e g f i w = some (q', flag)) :
    Restacked q (A ++ B) ys s e q' := by
  cases w with
  | false =>
    have hno : ¬ q.TouchesNeighbour A B s e := fun ht => Bool.false_ne_true (hm.mpr ht)
    rw [TouchesNeighbour, not_or] at hno
    cases hres
    exact insertNode_restacked (g := g) (f := f) (i := i) h hys hst hse
      (endseq_lt_of_last h.blocks.left hA fun a ha he => hno.1 ⟨a, ha, he⟩)
      (lt_startseq_of_head h.blocks.right hB fun b hb he => hno.2 ⟨b, hb, he⟩) rfl rfl rfl rfl
  | true =>
    have hco : (q.insertNode A.getLast? B.head? s e g f i).coalesce A.getLast? q.newseginfo.1
        B.head? = some (q', flag) := hres
    rcases coalesce_cases h hA hB (hm.mp rfl) rfl with ⟨r, B, rfl, hr, hlt, heq⟩ |
      ⟨A, p, rfl, hp, hlt, heq⟩ | ⟨A, p, r, B, rfl, rfl, hp, hr, heq⟩
    · cases heq.symm.trans hco
      exact joinNext_restacked h hys hst hse hr hlt hB rfl
    · cases heq.symm.trans hco
      exact joinPrev_restacked h hys hst hse hp hA hlt rfl
    · cases heq.symm.trans hco
      exact fillHole_restacked h hys hst hse hp hr hA hB rfl

/-! ## Merges -/

/-- The blocks before and after a block. -/
theorem Holds.around (h : q.Holds (A ++ m :: B)) :
    (∀ a ∈ A, q.endseq_ a < q.startseq_ m) ∧ ∀ b ∈ B, q.endseq_ m < q.startseq_ b :=
  ⟨fun _ ha => h.blocks.hi_lt_lo ha List.mem_cons_self, (List.pairwise_cons.mp h.blocks.right.gap).1⟩

/-- A range that goes into the one block that it touches. -/
theorem merged_restacked (h : q.Holds (A ++ m :: B)) (hys : ys.Perm (A ++ m :: B))
    (hst : Stacked q.toLinks ys) (hse : s < e) (hs : s < q.endseq_ m) (he : q.startseq_ m < e)
    (hA : ∀ a ∈ A, q.endseq_ a < s) (hB : ∀ b ∈ B, e < q.startseq_ b)
    (hlinks : q'.toLinks = q.toLinks) (hlo : q'.startseq_ m ≤ q.startseq_ m)
    (hhi : q.endseq_ m ≤ q'.endseq_ m) : Restacked q (A ++ m :: B) ys s e q' := by
  have hpos := h.blocks.pos m (by simp)
  have honly : ∀ x ∈ A ++ m :: B, q.Touches s e x → x = m := by
    intro x hx ht
    rcases List.mem_append.mp hx with hx | hx
    · exact absurd ht.1 (not_le.mpr (hA x hx))
    · rcases List.mem_cons.mp hx with hx | hx
      · exact hx
      · exact absurd ht.2 (not_le.mpr (hB x hx))
  refine .carried m ⟨by simp, ⟨hs.le, he.le⟩, fun x hx ht => (honly x hx ht ▸ le_rfl)⟩ ?_
    ⟨max s (q.startseq_ m), ⟨le_max_left _ _, max_lt hse he⟩, ?_, ?_⟩
  · rw [filter_carrier fun x hx => honly x (hys.mem_iff.mp hx), hlinks]
    exact hst
  · exact hlo.trans (le_max_right _ _)
  · exact (max_lt hs hpos).trans_le hhi

theorem merge_left_restacked (h : q.Holds (A ++ m :: B)) (hys : ys.Perm (A ++ m :: B))
    (hst : Stacked q.toLinks ys) (hs : s < q.endseq_ m) (hlo : q.startseq_ m < s) (hse : s < e)
    (hB : ∀ b ∈ B, e ≤ q.startseq_ b) (hr : ¬ (B = [] ∨ q.endseq_ m > e))
    (hres : q.merge A.getLast? B.head? s e g f i = some (q', flag)) :
    Restacked q (A ++ m :: B) ys s e q' := by
  obtain ⟨hAm, hmB⟩ := h.around
  obtain ⟨hq₁, -, hmin, hstart, hhi, -⟩ :=
    extendLeft_spec (g := g) h hs (fun hlt => by omega) rfl
  rw [min_eq_right hlo.le] at hmin
  rw [merge_left_eq h hs hlo hr] at hres
  have hsame : ∀ x, (q.extendLeft s g (some m)).startseq_ x = q.startseq_ x := by
    intro x
    by_cases hxm : x = m
    · rw [hxm, hmin]
    · exact hstart x hxm
  split at hres
  · rename_i hend
    obtain ⟨hd, -, hres⟩ := Option.map_eq_some_iff.mp hres
    cases hres
    exact merged_restacked h hys hst hse hs (hlo.trans hse) (fun a ha => (hAm a ha).trans hlo)
      (fun b hb => hend.trans_lt (hmB b hb)) rfl hmin.le (congrFun hhi m).ge
  · rename_i hend
    have hassoc : A ++ m :: B = A ++ [m] ++ B := by simp
    have hlast : (q.extendLeft s g (some m)).endfast (A ++ [m]).getLast? B.head? (q.endseq_ m) e g f
        (i - 1) true = some (q', flag) := by
      rw [List.getLast?_concat]
      exact hres
    rw [hassoc] at h hys hq₁ ⊢
    have hpart := endfast_restacked hq₁ hys hst (not_le.mp hend)
      (fun a ha => by rw [hhi]; exact h.blocks.left.hi_le_last ha)
      (fun b hb => by rw [hsame]; exact hB b hb) (by simp [TouchesNeighbour, hhi]) hlast
    refine hpart.of_part (fun x hx => hys.mem_iff.mp hx) (fun x hx => ?_) (fun x _ => (hsame x).symm)
      hs.le le_rfl
    rw [Touches, Touches, hhi, hsame]
    rcases List.mem_append.mp hx with hx | hx
    · rcases List.mem_append.mp hx with hx | hx
      · have := hAm x hx
        omega
      · rw [List.mem_singleton.mp hx]
        omega
    · have h1 := hmB x hx
      have h2 := h.blocks.pos x (List.mem_append_right _ hx)
      omega

theorem merge_right_restacked (h : q.Holds (A ++ m :: B)) (hys : ys.Perm (A ++ m :: B))
    (hst : Stacked q.toLinks ys) (he : q.startseq_ m < e) (hhi : e < q.endseq_ m) (hse : s < e)
    (hA : ∀ a ∈ A, q.endseq_ a ≤ s) (hl : ¬ (A = [] ∨ q.startseq_ m < s))
    (hres : q.merge A.getLast? B.head? s e g f i = some (q', flag)) :
    Restacked q (A ++ m :: B) ys s e q' := by
  obtain ⟨hAm, hmB⟩ := h.around
  obtain ⟨hq₂, -, hmax, hend, hlo, -⟩ :=
    extendRight_spec (g := g) h he (fun hlt => by omega) rfl
  rw [max_eq_right hhi.le] at hmax
  rw [merge_right_eq h he hhi hl] at hres
  have hsame : ∀ x, (q.extendRight e g (some m)).endseq_ x = q.endseq_ x := by
    intro x
    by_cases hxm : x = m
    · rw [hxm, hmax]
    · exact hend x hxm
  split at hres
  · rename_i hstop
    obtain ⟨hd, -, hres⟩ := Option.map_eq_some_iff.mp hres
    cases hres
    exact merged_restacked h hys hst hse (hse.trans hhi) he (fun a ha => (hAm a ha).trans_le hstop)
      (fun b hb => hhi.trans (hmB b hb)) rfl (congrFun hlo m).le hmax.ge
  · rename_i hstop
    have hhead : (m :: B).head? = some m := rfl
    rw [← hhead] at hres
    have hpart := endfast_restacked hq₂ hys hst (not_le.mp hstop)
      (fun a ha => by rw [hsame]; exact hA a ha)
      (fun b hb => by rw [hlo]; exact h.blocks.right.lo_head_le hb)
      (by simp [TouchesNeighbour, hlo]) hres
    refine hpart.of_part (fun x hx => hys.mem_iff.mp hx) (fun x hx => ?_)
      (fun x _ => (congrFun hlo x).symm) le_rfl he.le
    rw [Touches, Touches, hlo, hsame]
    rcases List.mem_append.mp hx with hx' | hx'
    · have h1 := hAm x hx'
      have h2 := h.blocks.pos x hx
      omega
    · rcases List.mem_cons.mp hx' with rfl | hx'
      · omega
      · have := hmB x hx'
        omega

theorem merge_both_restacked (h : q.Holds (A ++ m :: B)) (hys : ys.Perm (A ++ m :: B))
    (hst : Stacked q.toLinks ys) (hs : s < q.endseq_ m) (he : q.startseq_ m < e) (hse : s < e)
    (hl : A = [] ∨ q.startseq_ m < s) (hr : B = [] ∨ q.endseq_ m > e)
    (hres : q.merge A.getLast? B.head? s e g f i = some (q', flag)) :
    Restacked q (A ++ m :: B) ys s e q' := by
  obtain ⟨hAm, hmB⟩ := h.around
  obtain ⟨hq₁, -, hlo₁, -, hhi₁, -⟩ := extendLeft_spec (g := g) h hs
    (fun hlt => by rcases hl with rfl | hl <;> [simp; omega]) rfl
  have hstart : (q.extendLeft s g (some m)).startseq_ m < e := by rw [hlo₁]; omega
  obtain ⟨-, -, hmax, -, hlo₂, -⟩ := extendRight_spec (g := g) (e := e) hq₁ hstart
    (fun hlt => by rw [hhi₁] at hlt; rcases hr with rfl | hr <;> [simp; omega]) rfl
  rw [merge_both_eq h hs he hse hl hr rfl] at hres
  obtain ⟨hd, -, hres⟩ := Option.map_eq_some_iff.mp hres
  cases hres
  refine merged_restacked h hys hst hse hs he (fun a ha => ?_) (fun b hb => ?_) rfl ?_ ?_
  · rcases hl with rfl | hl
    · simp at ha
    · exact (hAm a ha).trans hl
  · rcases hr with rfl | hr
    · simp at hb
    · exact hr.trans (hmB b hb)
  · exact ((congrFun hlo₂ m).trans hlo₁).le.trans (min_le_right _ _)
  · refine le_trans ?_ hmax.ge
    rw [hhi₁]
    exact le_max_right _ _

theorem merge_two_restacked (h : q.Holds (A ++ m :: r :: B)) (hys : ys.Perm (A ++ m :: r :: B))
    (hst : Stacked q.toLinks ys) (hm : s < q.endseq_ m) (hr : q.startseq_ r < e)
    (hlo : q.startseq_ m < s) (hhi : e < q.endseq_ r)
    (hres : q.merge A.getLast? B.head? s e g f i = some (q', flag)) :
    Restacked q (A ++ m :: r :: B) ys s e q' := by
  have hassoc : A ++ m :: r :: B = A ++ [m] ++ r :: B := by simp
  obtain ⟨hmerge, hq₂, -, -, hblocks, -, hmr⟩ :=
    merge_two_eq (g := g) (f := f) (i := i) h hm hr hlo hhi rfl
  have hlast : ((q.extendLeft s g (some m)).extendRight e g (some r)).endfast (A ++ [m]).getLast?
      (r :: B).head? (q.endseq_ m) (q.startseq_ r) g f (i - 1) true = some (q', flag) := by
    rw [List.getLast?_concat]
    exact hmerge.symm.trans hres
  rw [hassoc] at h hys ⊢
  have hrB : ∀ b ∈ B, q.endseq_ r < q.startseq_ b := h.around.2
  have hleft : ∀ a ∈ A, q.endseq_ a < q.startseq_ m := fun a ha =>
    h.blocks.left.hi_lt_lo ha List.mem_cons_self
  have hpart := endfast_restacked hq₂ hys hst hmr
    (fun a ha => by
      rw [(hblocks a (List.mem_append_left _ ha)).2]
      exact h.blocks.left.hi_le_last ha)
    (fun b hb => by
      rw [(hblocks b (List.mem_append_right _ hb)).1]
      exact h.blocks.right.lo_head_le hb)
    (by simp [TouchesNeighbour, (hblocks m (by simp)).2]) hlast
  refine hpart.of_part (fun x hx => hys.mem_iff.mp hx) (fun x hx => ?_)
    (fun x hx => (hblocks x hx).1.symm) hm.le hr.le
  rw [Touches, Touches, (hblocks x hx).1, (hblocks x hx).2]
  have hpos := h.blocks.pos x hx
  rcases List.mem_append.mp hx with hx | hx
  · rcases List.mem_append.mp hx with hx | hx
    · have := hleft x hx
      omega
    · rw [List.mem_singleton.mp hx] at hpos ⊢
      omega
  · rcases List.mem_cons.mp hx with rfl | hx
    · omega
    · have := hrB x hx
      omega

/-- **The merges.** -/
theorem merge_restacked (h : q.Holds (A ++ M ++ B)) (hys : ys.Perm (A ++ M ++ B))
    (hst : Stacked q.toLinks ys) (hse : s < e) (hA : ∀ a ∈ A, q.endseq_ a ≤ s)
    (hM : ∀ x ∈ M, s < q.endseq_ x ∧ q.startseq_ x < e)
    (hnot : ∀ x ∈ M, ¬ (s ≤ q.startseq_ x ∧ q.endseq_ x ≤ e))
    (hB : ∀ b ∈ B, e ≤ q.startseq_ b) (hAM : A ++ M ≠ []) (hMB : M ++ B ≠ [])
    (hres : q.merge A.getLast? B.head? s e g f i = some (q', flag)) :
    Restacked q (A ++ M ++ B) ys s e q' := by
  rcases overlap_cases h.blocks.left.right hM hnot with rfl | ⟨m, rfl⟩ | ⟨m, r, rfl, hlo, -, hhi⟩
  · rw [List.append_nil] at *
    obtain ⟨w, hw, hmerge⟩ := merge_none_eq (g := g) (f := f) (i := i) h hse hA hB hAM hMB
    exact endfast_restacked h hys hst hse hA hB hw (hmerge.symm.trans hres)
  · rw [List.append_assoc, List.singleton_append] at h hys ⊢
    obtain ⟨hs, he⟩ := hM m (by simp)
    have hnot := hnot m (by simp)
    by_cases hl : A = [] ∨ q.startseq_ m < s
    · by_cases hr : B = [] ∨ q.endseq_ m > e
      · exact merge_both_restacked h hys hst hs he hse hl hr hres
      · have hend : q.endseq_ m ≤ e := not_lt.mp fun hlt => hr (Or.inr hlt)
        exact merge_left_restacked h hys hst hs (not_le.mp fun hle => hnot ⟨hle, hend⟩) hse hB hr hres
    · have hstart : s ≤ q.startseq_ m := not_lt.mp fun hlt => hl (Or.inr hlt)
      exact merge_right_restacked h hys hst he (not_le.mp fun hle => hnot ⟨hstart, hle⟩) hse hA hl hres
  · have hlist : A ++ [m, r] ++ B = A ++ m :: r :: B := by simp
    rw [hlist] at h hys ⊢
    exact merge_two_restacked h hys hst (hM m (by simp)).1 (hM r (by simp)).2 hlo hhi hres

/-! ## Killing what is overlapped -/

/-- The block is the range. -/
def IsRange (q : ReassemblyQueue) (s e : ℤ) (x : Ptr) : Prop := s = q.startseq_ x ∧ e = q.endseq_ x

instance (q : ReassemblyQueue) (s e : ℤ) (x : Ptr) : Decidable (q.IsRange s e x) :=
  inferInstanceAs (Decidable (_ ∧ _))

/-- The block lies inside the range, and is not all of it. -/
def Swallowed (q : ReassemblyQueue) (s e : ℤ) (x : Ptr) : Prop :=
  (s ≤ q.startseq_ x ∧ q.endseq_ x ≤ e) ∧ ¬ q.IsRange s e x

instance (q : ReassemblyQueue) (s e : ℤ) (x : Ptr) : Decidable (q.Swallowed s e x) :=
  inferInstanceAs (Decidable (_ ∧ _))

/-- A block inside a range that is a block is that block. -/
theorem IsRange.eq (hr : q.IsRange s e r) (h : q.Holds xs) (hrx : r ∈ xs) (hx : x ∈ xs)
    (ht : q.Touches s e x) : x = r := by
  have h1 := h.blocks.pos r hrx
  have h2 := h.blocks.pos x hx
  obtain ⟨hs, he⟩ := hr
  obtain ⟨h3, h4⟩ := ht
  by_contra hne
  rcases h.blocks.apart hx hrx hne with h5 | h5
  · omega
  · omega

/-- How the loop that kills overlapped blocks leaves the LIFO. -/
def SweptStack (q : ReassemblyQueue) (M ys : List Ptr) (s e : ℤ) : Swept → Prop
  | .exactOverlap q' _ => q'.toLinks = q.toLinks ∧ q'.startseq_ = q.startseq_ ∧
      q'.endseq_ = q.endseq_ ∧ ∃ r ∈ M, q.IsRange s e r
  | .done q' _ _ _ => (∀ x ∈ M, ¬ q.IsRange s e x) ∧
      Stacked q'.toLinks (ys.filter fun x => decide (x ∈ M → q.outside s e x = true))

/-- A block outside of the range stays. -/
theorem SweptStack.cons_outside {result : Swept} (h : q.SweptStack M ys s e result)
    (hexact : ¬ q.IsRange s e r) (hout : q.outside s e r = true) :
    q.SweptStack (r :: M) ys s e result := by
  cases result with
  | exactOverlap q' flags =>
    obtain ⟨h1, h2, h3, r', hr', hrange⟩ := h
    exact ⟨h1, h2, h3, r', List.mem_cons_of_mem r hr', hrange⟩
  | done q' g' i' altered' =>
    obtain ⟨hno, hstack⟩ := h
    refine ⟨List.forall_mem_cons.mpr ⟨hexact, hno⟩, ?_⟩
    have hcongr : (ys.filter fun x => decide (x ∈ r :: M → q.outside s e x = true))
        = ys.filter fun x => decide (x ∈ M → q.outside s e x = true) := by
      refine List.filter_congr fun x _ => decide_eq_decide.mpr ?_
      rw [List.mem_cons]
      constructor
      · exact fun himp hx => himp (Or.inr hx)
      · rintro himp (rfl | hx)
        · exact hout
        · exact himp hx
    rw [hcongr]
    exact hstack

/-- The node of a block inside the range is off the LIFO. -/
theorem SweptStack.cons_inside {q' : ReassemblyQueue} {g' : TcpFlag} {i' : ℤ} {altered : Bool}
    (h : q.SweptStack M (ys.filter fun x => decide (x ≠ r)) s e (.done q' g' i' altered))
    (hexact : ¬ q.IsRange s e r) (hin : ¬ q.outside s e r = true) :
    q.SweptStack (r :: M) ys s e (.done q' g' i' altered) := by
  obtain ⟨hno, hstack⟩ := h
  refine ⟨List.forall_mem_cons.mpr ⟨hexact, hno⟩, ?_⟩
  rw [List.filter_filter] at hstack
  have hcongr : (ys.filter fun x => decide (x ∈ r :: M → q.outside s e x = true))
      = ys.filter fun x => decide (x ∈ M → q.outside s e x = true) && decide (x ≠ r) := by
    refine List.filter_congr fun x _ => ?_
    rw [← Bool.decide_and, decide_eq_decide, List.mem_cons]
    constructor
    · intro himp
      refine ⟨fun hx => himp (Or.inr hx), ?_⟩
      rintro rfl
      exact hin (himp (Or.inl rfl))
    · rintro ⟨himp, hne⟩ hor
      exact himp (hor.resolve_left hne)
  rw [hcongr]
  exact hstack

/-- **The loop that kills overlapped blocks.** -/
theorem sweep_restacked {result : Swept} :
    ∀ {M C : List Ptr} {fuel : ℕ} {q : ReassemblyQueue} {ys : List Ptr} {g : TcpFlag} {i : ℤ}
      {w : Bool}, q.Holds (C ++ M ++ B) → ys.Perm (C ++ M ++ B) → Stacked q.toLinks ys →
      sweep B.head? s e fuel q (M ++ B).head? g i w = some result →
      q.SweptStack M ys s e result := by
  intro M
  induction M with
  | nil =>
    intro C fuel q ys g i w h hys hst hres
    have hdone : result = .done q g i w := by
      cases fuel with
      | zero => cases hres
      | succ fuel =>
        cases B with
        | nil =>
          cases hres
          rfl
        | cons b B =>
          rw [List.nil_append, List.head?_cons, sweep, if_pos rfl] at hres
          cases hres
          rfl
    rw [hdone]
    refine ⟨by simp, ?_⟩
    rw [List.filter_eq_self.mpr fun x _ => decide_eq_true fun hx => absurd hx (by simp)]
    exact hst
  | cons r M ih =>
    intro C fuel q ys g i w h hys hst hres
    have h' : q.Holds (C ++ r :: (M ++ B)) := by simpa using h
    have hnext : q.next_ r = (M ++ B).head? := h'.fifo.next C r (M ++ B) rfl
    obtain ⟨-, hrMB⟩ := notMem_of_nodup h'.fifo.nodup
    have hlast : ¬ some r = B.head? := fun heq =>
      hrMB (List.mem_append_right _ (List.mem_of_head? heq.symm))
    have hmem : r ∈ C ++ r :: M ++ B := by simp
    cases fuel with
    | zero => cases hres
    | succ fuel =>
      rw [List.cons_append, List.head?_cons, sweep, if_neg hlast] at hres
      by_cases hexact : s = q.startseq_ r ∧ e = q.endseq_ r
      · rw [if_pos hexact] at hres
        cases hres
        exact ⟨rfl, rfl, rfl, r, List.mem_cons_self, hexact⟩
      · rw [if_neg hexact, hnext] at hres
        by_cases hin : s ≤ q.startseq_ r ∧ e ≥ q.endseq_ r
        · rw [if_pos hin] at hres
          have hassoc : C ++ (M ++ B) = C ++ M ++ B := (List.append_assoc _ _ _).symm
          have hrem := h'.remove
          rw [hassoc] at hrem
          have hperm : (ys.filter fun x => decide (x ≠ r)).Perm (C ++ M ++ B) := by
            have hfilter := filter_ne_middle h'.fifo.nodup
            rw [hassoc] at hfilter
            have hlist : C ++ r :: M ++ B = C ++ r :: (M ++ B) := by simp
            rw [hlist] at hys
            exact hfilter ▸ hys.filter _
          have hstack := hst.sremove (hys.mem_iff.mpr hmem)
          have hsub := ih hrem hperm hstack hres
          cases result with
          | exactOverlap q' flags =>
            -- a block inside the range, and the range another block
            obtain ⟨-, -, -, r', hr', hrange⟩ := hsub
            have hout := IsRange.eq (q := q) (r := r') (x := r) hrange h (by simp [hr']) hmem
              ⟨by have := h.blocks.pos r hmem; omega, by have := h.blocks.pos r hmem; omega⟩
            exact absurd (List.mem_append_left _ (hout ▸ hr')) hrMB
          | done q' g' i' altered' =>
            exact SweptStack.cons_inside hsub hexact fun hout => of_decide_eq_true hout hin
        · rw [if_neg hin] at hres
          have hassoc : C ++ [r] ++ M ++ B = C ++ r :: M ++ B := by simp
          have hsub := ih (C := C ++ [r]) (hassoc ▸ h) (hassoc ▸ hys) hst hres
          exact hsub.cons_outside hexact (decide_eq_true hin)

/-- A range is not outside of itself. -/
theorem IsRange.inside (hr : q.IsRange s e x) : ¬ q.outside s e x = true := fun hout =>
  of_decide_eq_true hout ⟨hr.1.le, hr.2.ge⟩

/-- The blocks before and after a range are outside of it. -/
theorem outside_of_before (h : q.Holds xs) (hx : x ∈ xs) (hs : q.endseq_ x ≤ s) :
    q.outside s e x = true := by
  have := h.blocks.pos x hx
  exact decide_eq_true fun hin => by omega

theorem outside_of_after (h : q.Holds xs) (hx : x ∈ xs) (he : e ≤ q.startseq_ x) :
    q.outside s e x = true := by
  have := h.blocks.pos x hx
  exact decide_eq_true fun hin => by omega

/-- The loop as it is started. -/
theorem sweep_start_restacked {fuel : ℕ} {result : Swept} (h : q.Holds (A ++ M ++ B))
    (hys : ys.Perm (A ++ M ++ B)) (hst : Stacked q.toLinks ys) (hA : ∀ a ∈ A, q.endseq_ a ≤ s)
    (hB : ∀ b ∈ B, e ≤ q.startseq_ b)
    (hres : sweep B.head? s e fuel q (A.getLast?.or q.head_) g i false = some result) :
    q.SweptStack (A ++ M ++ B) ys s e result := by
  obtain ⟨C, M₁, hlist, hstart, hsub⟩ : ∃ C M₁, A ++ M = C ++ M₁ ∧
      A.getLast?.or q.head_ = (M₁ ++ B).head? ∧ M ⊆ M₁ := by
    rcases List.eq_nil_or_concat A with rfl | ⟨A, a, rfl⟩
    · exact ⟨[], M, rfl, by rw [List.getLast?_nil, Option.none_or, h.head_eq]; rfl, fun _ h => h⟩
    · refine ⟨A, a :: M, by simp, ?_, fun _ => List.mem_cons_of_mem a⟩
      rw [List.concat_eq_append, List.getLast?_concat, Option.some_or, List.cons_append,
        List.head?_cons]
  have hout : ∀ x ∈ A ++ M ++ B, x ∉ M₁ → q.outside s e x = true := by
    intro x hx hnot
    rcases List.mem_append.mp hx with hx' | hx'
    · rcases List.mem_append.mp hx' with hx' | hx'
      · exact outside_of_before h hx (hA x hx')
      · exact absurd (hsub hx') hnot
    · exact outside_of_after h hx (hB x hx')
  have hM₁ : ∀ x ∈ M₁, x ∈ A ++ M ++ B := fun x hx => by
    rw [hlist]
    exact List.mem_append_left _ (List.mem_append_right _ hx)
  have hswept : q.SweptStack M₁ ys s e result := by
    rw [hstart] at hres
    exact sweep_restacked (hlist ▸ h) (hlist ▸ hys) hst hres
  cases result with
  | exactOverlap q' flags =>
    obtain ⟨h1, h2, h3, r, hr, hrange⟩ := hswept
    exact ⟨h1, h2, h3, r, hM₁ r hr, hrange⟩
  | done q' g' i' altered =>
    obtain ⟨hno, hstack⟩ := hswept
    refine ⟨fun x hx hrange => ?_, ?_⟩
    · by_cases hmem : x ∈ M₁
      · exact hno x hmem hrange
      · exact hrange.inside (hout x hx hmem)
    · have hcongr : (ys.filter fun x => decide (x ∈ A ++ M ++ B → q.outside s e x = true))
          = ys.filter fun x => decide (x ∈ M₁ → q.outside s e x = true) := by
        refine List.filter_congr fun x hx => decide_eq_decide.mpr ?_
        have hmem := hys.mem_iff.mp hx
        constructor
        · exact fun himp _ => himp hmem
        · intro himp _
          by_cases hx₁ : x ∈ M₁
          · exact himp hx₁
          · exact hout x hmem hx₁
      rw [hcongr]
      exact hstack

/-- The same after the blocks inside the range have gone. -/
theorem Restacked.of_swept {q₁ : ReassemblyQueue}
    (h : Restacked q₁ zs (ys.filter (q.outside s e)) s e q') (hlo : q₁.startseq_ = q.startseq_)
    (hhi : q₁.endseq_ = q.endseq_) (hout : ∀ x ∈ zs, q.outside s e x = true)
    (hin : ∀ x ∈ ys, ¬ q.outside s e x = true → q.Touches s e x) : Restacked q zs ys s e q' := by
  have htouch : ∀ x, q₁.Touches s e x ↔ q.Touches s e x := fun x => by
    rw [Touches, Touches, hlo, hhi]
  cases h with
  | fresh n alone stack meets =>
    refine .fresh n (fun x hx ht => alone x hx ((htouch x).mpr ht)) ?_ meets
    rw [List.filter_filter] at stack
    have hsame : (ys.filter fun x => decide (¬ q.Touches s e x))
        = ys.filter fun x => decide (¬ q₁.Touches s e x) && q.outside s e x := by
      refine List.filter_congr fun x hx => ?_
      rw [Bool.eq_iff_iff, Bool.and_eq_true, decide_eq_true_eq, decide_eq_true_eq, htouch]
      constructor
      · exact fun hnot => ⟨hnot, Decidable.byContradiction fun hno => hnot (hin x hx hno)⟩
      · exact And.left
    rw [hsame]
    exact stack
  | carried c carries stack meets =>
    have hc := carries.mem
    refine .carried c ⟨hc, (htouch c).mp carries.touches, fun x hx ht => ?_⟩ ?_ meets
    · rw [← hlo]
      exact carries.first x hx ((htouch x).mpr ht)
    · rw [List.filter_filter] at stack
      have hsame : (ys.filter fun x => decide (x = c ∨ ¬ q.Touches s e x))
          = ys.filter fun x => decide (x = c ∨ ¬ q₁.Touches s e x) && q.outside s e x := by
        refine List.filter_congr fun x hx => ?_
        rw [Bool.eq_iff_iff, Bool.and_eq_true, decide_eq_true_eq, decide_eq_true_eq, htouch]
        constructor
        · rintro (rfl | hnot)
          · exact ⟨Or.inl rfl, hout x hc⟩
          · exact ⟨Or.inr hnot, Decidable.byContradiction fun hno => hnot (hin x hx hno)⟩
        · exact And.left
      rw [hsame]
      exact stack

/-! ## `add` -/

/-- The blocks that stay or are joined with the range. -/
def unswallowed (q : ReassemblyQueue) (s e : ℤ) (xs : List Ptr) : List Ptr :=
  xs.filter fun x => decide (¬ q.Swallowed s e x)

theorem unswallowed_eq (hnot : ∀ x ∈ xs, ¬ (s ≤ q.startseq_ x ∧ q.endseq_ x ≤ e)) :
    q.unswallowed s e xs = xs :=
  List.filter_eq_self.mpr fun x hx => decide_eq_true fun hsw => hnot x hx hsw.1

/-- A block inside of the range touches it. -/
theorem touches_of_inside (h : q.Holds xs) (hx : x ∈ xs) (hin : ¬ q.outside s e x = true) :
    q.Touches s e x := by
  have hpos := h.blocks.pos x hx
  rw [outside, decide_eq_true_eq, not_not] at hin
  exact ⟨by omega, by omega⟩

/-- When the range is not a block, those outside of it are those not swallowed. -/
theorem outside_iff (hno : ¬ q.IsRange s e x) :
    q.outside s e x = true ↔ ¬ q.Swallowed s e x := by
  rw [outside, decide_eq_true_eq]
  exact not_congr ⟨fun hin => ⟨hin, hno⟩, And.left⟩

/-- The range is a block already. -/
theorem exactOverlap_restacked (h : q.Holds xs) (hys : ys.Perm xs) (hst : Stacked q.toLinks ys)
    (hse : s < e) (hr : r ∈ xs) (hrange : q.IsRange s e r) (hlinks : q'.toLinks = q.toLinks)
    (hlo : q'.startseq_ = q.startseq_) (hhi : q'.endseq_ = q.endseq_) :
    Restacked q (q.unswallowed s e xs) ys s e q' := by
  have honly : ∀ x ∈ xs, q.Touches s e x → x = r := fun x hx ht => hrange.eq h hr hx ht
  have hmem : r ∈ q.unswallowed s e xs :=
    List.mem_filter.mpr ⟨hr, decide_eq_true fun hsw => hsw.2 hrange⟩
  obtain ⟨hs, he⟩ := hrange
  refine .carried r ⟨hmem, ⟨by omega, by omega⟩, fun x hx ht => ?_⟩ ?_ ⟨s, ⟨le_rfl, hse⟩, ?_, ?_⟩
  · rw [honly x (List.mem_filter.mp hx).1 ht]
  · rw [filter_carrier fun x hx => honly x (hys.mem_iff.mp hx), hlinks]
    exact hst
  · rw [hlo]
    exact hs.ge
  · rw [hhi]
    omega

/-- The loop has come to its end: the blocks outside of the range are left, and their nodes are on
the LIFO as they were. -/
theorem sweep_done {q₁ : ReassemblyQueue} {g₁ : TcpFlag} {i₁ : ℤ} {altered : Bool}
    (h : q.Holds (A ++ M ++ B)) (hys : ys.Perm (A ++ M ++ B)) (hst : Stacked q.toLinks ys)
    (hA : ∀ a ∈ A, q.endseq_ a ≤ s) (hB : ∀ b ∈ B, e ≤ q.startseq_ b)
    (hsweep : sweep B.head? s e q.bound q (A.getLast?.or q.head_) g i false =
      some (.done q₁ g₁ i₁ altered)) :
    ∃ M', q₁.Holds (A ++ M' ++ B) ∧ A ++ M' ++ B = (A ++ M ++ B).filter (q.outside s e) ∧
      q.unswallowed s e (A ++ M ++ B) = A ++ M' ++ B ∧
      Stacked q₁.toLinks (ys.filter (q.outside s e)) ∧ q₁.startseq_ = q.startseq_ ∧
      q₁.endseq_ = q.endseq_ ∧ (altered = false → M' = M) := by
  obtain ⟨hno, hstack⟩ := sweep_start_restacked h hys hst hA hB hsweep
  obtain ⟨M', hq₁, hM', hlo, hhi, haltered⟩ : ∃ M', q₁.Holds (A ++ M' ++ B) ∧
      M' = M.filter (q.outside s e) ∧ q₁.startseq_ = q.startseq_ ∧
      q₁.endseq_ = q.endseq_ ∧ (altered = false → M' = M) := by
    rcases sweep_start_spec (g := g) (i := i) h hA h.length_lt_bound with
      ⟨q₂, flag, xs', h1, -⟩ | ⟨q₂, g₂, i₂, alt₂, M', h1, h2, h3, -, -, h4, h5, -, h6, -⟩
    · cases hsweep.symm.trans h1
    · cases hsweep.symm.trans h1
      refine ⟨M', h2, h3, h4, h5, fun hfalse => ?_⟩
      rcases h6 with ⟨htrue, -⟩ | ⟨-, hsame⟩
      · rw [hfalse] at htrue
        cases htrue
      · exact hsame
  have hxs : A ++ M' ++ B = (A ++ M ++ B).filter (q.outside s e) := by
    rw [List.filter_append, List.filter_append, ← hM',
      List.filter_eq_self.mpr fun x hx => outside_of_before h (by simp [hx]) (hA x hx),
      List.filter_eq_self.mpr fun x hx => outside_of_after h (by simp [hx]) (hB x hx)]
  refine ⟨M', hq₁, hxs, ?_, ?_, hlo, hhi, haltered⟩
  · rw [hxs]
    refine List.filter_congr fun x hx => ?_
    rw [Bool.eq_iff_iff, decide_eq_true_eq, outside_iff (hno x hx)]
  · have hsame : ys.filter (q.outside s e)
        = ys.filter fun x => decide (x ∈ A ++ M ++ B → q.outside s e x = true) := by
      refine List.filter_congr fun x hx => ?_
      rw [Bool.eq_iff_iff, decide_eq_true_eq]
      exact ⟨fun hout _ => hout, fun himp => himp (hys.mem_iff.mp hx)⟩
    rw [hsame]
    exact hstack

/-- **From `again2:` on.** -/
theorem again2_restacked :
    ∀ {fuel : ℕ} {q : ReassemblyQueue} {xs ys : List Ptr} {g : TcpFlag} {i : ℤ}, q.Holds xs →
      ys.Perm xs → Stacked q.toLinks ys → xs ≠ [] → s < e →
      again2 s e f fuel q g i = some (q', flag) →
      Restacked q (q.unswallowed s e xs) ys s e q' := by
  intro fuel
  induction fuel with
  | zero =>
    intro q xs ys g i _ _ _ _ _ hres
    cases hres
  | succ fuel ih =>
    intro q xs ys g i h hys hst hne hse hres
    obtain ⟨t, ht⟩ : ∃ t, xs.getLast? = some t := ⟨_, List.getLast?_eq_some_getLast hne⟩
    obtain ⟨hd, hhd⟩ : ∃ hd, xs.head? = some hd := ⟨_, List.head?_eq_some_head hne⟩
    rw [again2] at hres
    simp only [h.fifo.tail, h.head_eq, ht, hhd] at hres
    split at hres
    · -- after the last block
      rename_i hafter
      have hA := h.endseq_le_of_last ht hafter
      have hnot : ∀ x ∈ xs, ¬ (s ≤ q.startseq_ x ∧ q.endseq_ x ≤ e) := fun x hx =>
        of_decide_eq_true (outside_of_before h hx (hA x hx))
      rw [unswallowed_eq hnot]
      rw [← ht] at hres
      have hend := endfast_restacked (A := xs) (B := []) (by simpa using h)
        (by simpa using hys) hst hse hA (by simp) (by simp [TouchesNeighbour, ht, eq_comm]) hres
      simpa using hend
    · split at hres
      · -- before the first block
        rename_i hbefore
        have hB := h.le_startseq_of_head hhd hbefore
        have hnot : ∀ x ∈ xs, ¬ (s ≤ q.startseq_ x ∧ q.endseq_ x ≤ e) := fun x hx =>
          of_decide_eq_true (outside_of_after h hx (hB x hx))
        rw [unswallowed_eq hnot]
        rw [← hhd] at hres
        exact endfast_restacked (A := []) (B := xs) h hys hst hse (by simp) hB
          (by simp [TouchesNeighbour, hhd, eq_comm]) hres
      · rename_i hafter hbefore
        obtain ⟨A, M, B, rfl, hA, hM, hB, hAM, hMB, hr, hp⟩ :=
          searches_spec h hse hhd ht (not_le.mp hafter) (not_le.mp hbefore)
        rw [hr, hp, Option.bind_some, Option.bind_some, ← hhd, ← h.head_eq] at hres
        obtain ⟨result, hsweep, hres⟩ := Option.bind_eq_some_iff.mp hres
        cases result with
        | exactOverlap q₁ flags =>
          obtain ⟨h1, h2, h3, r, hrx, hrange⟩ := sweep_start_restacked h hys hst hA hB hsweep
          cases hres
          exact exactOverlap_restacked h hys hst hse hrx hrange h1 h2 h3
        | done q₁ g₁ i₁ altered =>
          obtain ⟨M', hq₁, hxs, hzs, hst₁, hlo, hhi, haltered⟩ :=
            sweep_done h hys hst hA hB hsweep
          have hys₁ : (ys.filter (q.outside s e)).Perm (A ++ M' ++ B) := hxs ▸ hys.filter _
          have hleft : ∀ x ∈ A ++ M' ++ B, q.outside s e x = true := fun x hx => by
            rw [hxs] at hx
            exact (List.mem_filter.mp hx).2
          have hnot₁ : ∀ x ∈ A ++ M' ++ B, ¬ (s ≤ q₁.startseq_ x ∧ q₁.endseq_ x ≤ e) := fun x hx => by
            rw [hlo, hhi]
            exact of_decide_eq_true (hleft x hx)
          have hrest : Restacked q₁ (A ++ M' ++ B) (ys.filter (q.outside s e)) s e q' := by
            have hA₁ : ∀ a ∈ A, q₁.endseq_ a ≤ s := fun a ha => by
              rw [hhi]
              exact hA a ha
            have hB₁ : ∀ b ∈ B, e ≤ q₁.startseq_ b := fun b hb => by
              rw [hlo]
              exact hB b hb
            simp only at hres
            by_cases hemp : A ++ M' ++ B = []
            · -- everything was overlapped
              rw [if_pos (hq₁.empty_iff.mpr hemp)] at hres
              obtain ⟨⟨rfl, rfl⟩, rfl⟩ : (A = [] ∧ M' = []) ∧ B = [] := by
                simpa [and_assoc] using hemp
              exact endfast_restacked (A := []) (B := []) hq₁ hys₁ hst₁ hse hA₁ hB₁
                (by simp [TouchesNeighbour]) hres
            · rw [if_neg (mt hq₁.empty_iff.mp hemp)] at hres
              cases altered with
              | true =>
                rw [if_pos rfl] at hres
                have hagain := ih hq₁ hys₁ hst₁ hemp hse hres
                rwa [unswallowed_eq hnot₁] at hagain
              | false =>
                obtain rfl := haltered rfl
                rw [if_neg (by simp)] at hres
                exact merge_restacked hq₁ hys₁ hst₁ hse hA₁
                  (fun x hx => by rw [hlo, hhi]; exact hM x hx)
                  (fun x hx => hnot₁ x (by simp [hx])) hB₁ hAM hMB hres
          rw [hzs]
          exact hrest.of_swept hlo hhi hleft fun x hx =>
            touches_of_inside h (hys.mem_iff.mp hx)

/-- The first insertion. -/
theorem addFirst_restacked (hse : s < e) : Restacked q [] [] s e (q.addFirst s e g f).1 := by
  have hlo : (q.addFirst s e g f).1.startseq_ q.newseginfo.1 = s := Function.update_self _ _ _
  have hhi : (q.addFirst s e g f).1.endseq_ q.newseginfo.1 = e := Function.update_self _ _ _
  refine .fresh q.newseginfo.1 (by simp) ?_ ⟨s, ⟨le_rfl, hse⟩, hlo.le, hse.trans_eq hhi.symm⟩
  exact (@IsDList.empty Ptr _ _).insert (A := []) (B := []) (by simp)

/-- **`add`.** -/
theorem add_restacked (h : q.Holds xs) (hys : ys.Perm xs) (hst : Stacked q.toLinks ys) (hse : s < e)
    (hres : q.add s e g f = some (q', flag)) : Restacked q (q.unswallowed s e xs) ys s e q' := by
  rw [add, if_neg (not_lt.mpr hse.le)] at hres
  cases xs with
  | nil =>
    have hnone : q.head_ = none := by rw [h.head_eq, List.head?_nil]
    obtain ⟨fs, hs⟩ := h.links
    rw [hnone] at hres
    simp only [hs.top_eq_none, if_pos] at hres
    cases hres
    obtain rfl := hys.eq_nil
    exact addFirst_restacked hse
  | cons x xs =>
    have hsome : q.head_ = some x := by rw [h.head_eq, List.head?_cons]
    rw [hsome] at hres
    exact again2_restacked h hys hst (List.cons_ne_nil x xs) hse hres

end ReassemblyQueue

end Ns2.Tcp
