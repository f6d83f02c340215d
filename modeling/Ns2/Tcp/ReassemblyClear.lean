import Ns2.Lib.Intervals
import Ns2.Tcp.ReassemblyLinks

/-!
# Clearing a reassembly queue

The representation invariant of `ReassemblyQueue`, and the operations that only take
blocks away.

* `Holds q xs` — the queue `q` holds the blocks `xs`: the pointers are in order, the
  blocks sorted and separated, `total_` their length.
* `flagged q xs` — the numbers in the queue, each with the flags of its block.
* `clearto_spec` — `clearto(seq)` returns, and keeps exactly the numbers from `seq` on, with
  their flags; it returns the flags of the others.
* `clear_spec` — `clear()` returns, with an empty queue.
-/

namespace Ns2.Tcp.ReassemblyQueue

open Linked Intervals

/-- The representation invariant: the queue holds the blocks `xs`, in FIFO order. -/
structure Holds (q : ReassemblyQueue) (xs : List Ptr) : Prop where
  /-- Both lists and the free list are linked as they should be. -/
  links : ∃ fs, Shape q.toLinks xs fs
  /-- The blocks are non-empty, sorted, disjoint and not adjacent. -/
  blocks : Separated q.startseq_ q.endseq_ xs
  /-- The byte counter. -/
  count : q.total_ = total q.startseq_ q.endseq_ xs

/-- The sequence numbers in the blocks `xs` of a queue. -/
def covered (q : ReassemblyQueue) (xs : List Ptr) : Set ℤ := cover q.startseq_ q.endseq_ xs

/-- The numbers in the blocks `xs`, each with the flags of its block. -/
def flagged (q : ReassemblyQueue) (xs : List Ptr) : Set (ℤ × ℕ) :=
  {a | ∃ x ∈ xs, q.startseq_ x ≤ a.1 ∧ a.1 < q.endseq_ x ∧ (q.pflags_ x).testBit a.2}

namespace Holds

variable {q : ReassemblyQueue} {xs A B : List Ptr} {p : Ptr}

theorem fifo (h : q.Holds xs) : IsDList q.next_ q.prev_ q.head_ q.tail_ xs :=
  h.links.elim fun _ hs => hs.fifo

theorem length_lt_bound (h : q.Holds xs) : xs.length < q.bound :=
  h.links.elim fun _ hs => Nat.lt_succ_of_le hs.length_le

theorem head_eq (h : q.Holds xs) : q.head_ = xs.head? := h.fifo.head

theorem empty_iff (h : q.Holds xs) : q.empty = true ↔ xs = [] := by
  rw [empty, Option.isNone_iff_eq_none, h.head_eq, List.head?_eq_none_iff]

/-- Taking a block out. -/
theorem remove (h : q.Holds (A ++ p :: B)) :
    Holds { q with
      toLinks := ((q.fremove p).sremove p).deleteseginfo p
      total_ := q.total_ - (q.endseq_ p - q.startseq_ p) } (A ++ B) where
  links := h.links.elim fun fs hs => ⟨p :: fs, hs.remove⟩
  blocks := h.blocks.sublist ((List.sublist_cons_self p B).append_left A)
  count := by
    have := h.count
    rw [total_append, total_cons] at this
    show q.total_ - (q.endseq_ p - q.startseq_ p) = total q.startseq_ q.endseq_ (A ++ B)
    rw [total_append]
    omega

end Holds

theorem holds_new (rcvnxt : ℤ) : (new rcvnxt).Holds [] where
  links := ⟨[], Shape.empty_links _ rfl rfl rfl rfl IsSList.nil (by simp)⟩
  blocks := Separated.nil
  count := rfl

theorem testBit_or_left {a b j : ℕ} (h : a.testBit j) : (a ||| b).testBit j := by
  rw [Nat.testBit_or, h, Bool.true_or]

theorem testBit_or_right {a b j : ℕ} (h : b.testBit j) : (a ||| b).testBit j := by
  rw [Nat.testBit_or, h, Bool.or_true]

/-! ## `clearto` -/

variable {q : ReassemblyQueue} {xs : List Ptr} {seq : ℤ}

/-- The loop of `clearto` drops the leading blocks that end at or before `seq`. -/
theorem clearLoop_spec (seq : ℤ) :
    ∀ {fuel : ℕ} {q : ReassemblyQueue} {xs : List Ptr} (flag : TcpFlag), q.Holds xs →
      xs.length < fuel → ∃ q' xs' flag', clearLoop seq fuel q q.head_ flag = some (q', q'.head_, flag') ∧
        q'.Holds xs' ∧ (∃ dropped, xs = dropped ++ xs' ∧ (∀ x ∈ dropped, q.endseq_ x ≤ seq) ∧
          ∀ x ∈ dropped, ∀ j, (q.pflags_ x).testBit j → flag'.testBit j) ∧
        (∀ j, flag.testBit j → flag'.testBit j) ∧ (∀ x ∈ xs', seq < q.endseq_ x) ∧
        q'.startseq_ = q.startseq_ ∧ q'.endseq_ = q.endseq_ ∧ q'.rcv_nxt_ = q.rcv_nxt_ ∧
        q'.pflags_ = q.pflags_ := by
  intro fuel
  induction fuel with
  | zero => intro q xs flag _ hf; exact absurd hf (Nat.not_lt_zero _)
  | succ fuel ih =>
    intro q xs flag h hf
    cases xs with
    | nil =>
      have hnone : q.head_ = none := by rw [h.head_eq, List.head?_nil]
      exact ⟨q, [], flag, by rw [hnone, clearLoop], h, ⟨[], rfl, by simp, by simp⟩,
        fun _ => id, by simp, rfl, rfl, rfl, rfl⟩
    | cons p xs =>
      have hsome : q.head_ = some p := by rw [h.head_eq, List.head?_cons]
      rw [hsome, clearLoop]
      split
      · rename_i hp
        have hrem := h.remove (A := [])
        have hhead : q.next_ p = xs.head? := h.fifo.next [] p xs rfl
        have hnext := hrem.head_eq
        obtain ⟨q', xs', flag', h1, h2, ⟨dropped, h3, h4, hfl⟩, hflag, h5, h6⟩ :=
          ih (flag ||| q.pflags_ p) hrem (by simpa using hf)
        refine ⟨q', xs', flag', ?_, h2, ⟨p :: dropped, ?_, ?_, ?_⟩,
          fun j hj => hflag j (testBit_or_left hj), h5, h6⟩
        · rw [hhead, ← List.nil_append xs, ← hnext]
          exact h1
        · rw [List.cons_append, ← h3, List.nil_append]
        · simpa using ⟨hp, h4⟩
        · intro x hx j hj
          rcases List.mem_cons.mp hx with rfl | hx
          · exact hflag j (testBit_or_right hj)
          · exact hfl x hx j hj
      · rename_i hp
        refine ⟨q, p :: xs, flag, by rw [hsome], h, ⟨[], rfl, by simp, by simp⟩, fun _ => id,
          fun x hx => ?_, rfl, rfl, rfl, rfl⟩
        -- the blocks after the first one kept end later still
        rcases List.mem_cons.mp hx with rfl | hx
        · omega
        · have h1 := (List.pairwise_cons.mp h.blocks.gap).1 x hx
          have h2 := h.blocks.pos x (List.mem_cons_of_mem _ hx)
          omega

/-- What is left of the cover once the blocks that end at or before `seq` are gone. -/
theorem cover_dropped {lo hi : Ptr → ℤ} {dropped xs : List Ptr}
    (h : ∀ x ∈ dropped, hi x ≤ seq) :
    cover lo hi (dropped ++ xs) ∩ Set.Ici seq = cover lo hi xs ∩ Set.Ici seq := by
  ext n
  rw [cover_append, Set.mem_inter_iff, Set.mem_inter_iff, Set.mem_union, Set.mem_Ici]
  constructor
  · rintro ⟨⟨x, hx, hn⟩ | hn, hseq⟩
    · have := h x hx
      omega
    · exact ⟨hn, hseq⟩
  · rintro ⟨hn, hseq⟩
    exact ⟨Or.inr hn, hseq⟩

/-- Trimming the first block in the middle. -/
theorem trim_spec (flag : TcpFlag) (h : q.Holds xs) (hend : ∀ x ∈ xs, seq < q.endseq_ x) :
    (q.trim seq flag q.head_).1.Holds xs ∧
      (q.trim seq flag q.head_).1.covered xs = q.covered xs ∩ Set.Ici seq ∧
      (q.trim seq flag q.head_).1.endseq_ = q.endseq_ ∧
      (q.trim seq flag q.head_).1.rcv_nxt_ = q.rcv_nxt_ := by
  cases xs with
  | nil =>
    have hnone : q.head_ = none := by rw [h.head_eq, List.head?_nil]
    rw [hnone]
    refine ⟨h, ?_, rfl, rfl⟩
    simp [trim, covered]
  | cons p xs =>
    have hsome : q.head_ = some p := by rw [h.head_eq, List.head?_cons]
    have hp := hend p List.mem_cons_self
    have hafter : ∀ x ∈ xs, q.endseq_ p < q.startseq_ x := (List.pairwise_cons.mp h.blocks.gap).1
    obtain ⟨-, hnotin⟩ := h.blocks.notMem (A := [])
    rw [hsome, trim]
    split
    · rename_i hle
      refine ⟨⟨h.links, h.blocks.setLo (A := []) hp (by simp), ?_⟩, ?_, rfl, rfl⟩
      · have h1 := h.count
        have h2 : total (Function.update q.startseq_ p seq) q.endseq_ (p :: xs)
            = total q.startseq_ q.endseq_ (p :: xs) + (q.startseq_ p - seq) :=
          total_setLo (A := []) (by simp) hnotin
        show q.total_ - (seq - q.startseq_ p) = _
        rw [h2]
        omega
      · ext n
        simp only [covered, cover_cons, Function.update_self,
          cover_congr fun y hy => ⟨update_congr (f := q.startseq_) (v := seq) hnotin y hy, rfl⟩,
          Set.mem_inter_iff, Set.mem_union, Set.mem_Ico, Set.mem_Ici]
        constructor
        · rintro (hn | hn)
          · exact ⟨Or.inl ⟨by omega, hn.2⟩, hn.1⟩
          · obtain ⟨x, hx, hn'⟩ := hn
            have := hafter x hx
            exact ⟨Or.inr ⟨x, hx, hn'⟩, by omega⟩
        · rintro ⟨hn | hn, hseq⟩
          · exact Or.inl ⟨hseq, hn.2⟩
          · exact Or.inr hn
    · rename_i hle
      refine ⟨h, ?_, rfl, rfl⟩
      refine (Set.inter_eq_left.mpr fun n hn => ?_).symm
      obtain ⟨x, hx, hn⟩ := hn
      have h1 := h.blocks.lo_head_le hx
      have h2 : q.startseq_ x ≤ n := hn.1
      rw [Set.mem_Ici]
      omega

/-- What `clearto` does with the flags. -/
structure FlagsCleared (q : ReassemblyQueue) (xs : List Ptr) (seq : ℤ) (flag : TcpFlag)
    (q' : ReassemblyQueue) (xs' : List Ptr) : Prop where
  /-- The flags of what is cleared are returned. -/
  returned : ∀ a ∈ q.flagged xs, a.1 < seq → flag.testBit a.2
  /-- The flags of the rest are kept. -/
  kept : ∀ a ∈ q.flagged xs, seq ≤ a.1 → a ∈ q'.flagged xs'

/-- The flags of the first block are returned if it is trimmed. -/
theorem trim_flags (flag : TcpFlag) (h : q.Holds xs) (hend : ∀ x ∈ xs, seq < q.endseq_ x) :
    FlagsCleared q xs seq (q.trim seq flag q.head_).2 (q.trim seq flag q.head_).1 xs ∧
      ∀ j, flag.testBit j → (q.trim seq flag q.head_).2.testBit j := by
  cases xs with
  | nil => exact ⟨⟨by simp [flagged], by simp [flagged]⟩, by simp [h.head_eq, trim]⟩
  | cons p xs =>
    have hp := hend p List.mem_cons_self
    rw [h.head_eq, List.head?_cons, trim]
    split
    · rename_i hle
      refine ⟨⟨?_, ?_⟩, fun j => testBit_or_left⟩
      · rintro ⟨n, j⟩ ⟨x, hx, h1, h2, h3⟩ hn
        rcases List.mem_cons.mp hx with rfl | hx
        · exact testBit_or_right h3
        · have hgap := (List.pairwise_cons.mp h.blocks.gap).1 x hx
          dsimp only at h1 hn
          omega
      · rintro ⟨n, j⟩ ⟨x, hx, h1, h2, h3⟩ hn
        refine ⟨x, hx, ?_, h2, h3⟩
        by_cases hxp : x = p
        · subst hxp
          simpa using hn
        · simpa [Function.update_of_ne hxp] using h1
    · rename_i hle
      refine ⟨⟨?_, fun a ha _ => ha⟩, fun _ => id⟩
      rintro ⟨n, j⟩ ⟨x, hx, h1, h2, h3⟩ hn
      have hlo := h.blocks.lo_head_le hx
      dsimp only at h1 hn
      omega

/-- **`clearto`.**  It returns, and what is left is what was there from `seq` on. -/
theorem clearto_spec (seq : ℤ) (h : q.Holds xs) :
    ∃ q' flag xs', q.clearto seq = some (q', flag) ∧ q'.Holds xs' ∧
      q'.covered xs' = q.covered xs ∩ Set.Ici seq ∧ q'.rcv_nxt_ = q.rcv_nxt_ ∧
      (∀ x ∈ xs', x ∈ xs ∧ q'.endseq_ x = q.endseq_ x ∧ seq < q'.endseq_ x) ∧
      FlagsCleared q xs seq flag q' xs' := by
  obtain ⟨q₁, xs', flag', h1, h2, ⟨dropped, rfl, h4, hdrop⟩, -, h5, hlo, hhi, hnxt, hfl⟩ :=
    clearLoop_spec seq 0 h h.length_lt_bound
  obtain ⟨ht1, ht2, ht3, ht4⟩ := trim_spec flag' h2 (by rwa [hhi])
  obtain ⟨htrim, hflag⟩ := trim_flags flag' h2 (by rwa [hhi])
  refine ⟨(q₁.trim seq flag' q₁.head_).1, (q₁.trim seq flag' q₁.head_).2, xs', ?_, ht1, ?_, ?_, ?_,
    ?_⟩
  · rw [clearto, h1]
  · rw [ht2, covered, covered, hlo, hhi, cover_dropped h4]
  · rw [ht4, hnxt]
  · intro x hx
    rw [ht3, hhi]
    exact ⟨List.mem_append_right _ hx, rfl, h5 x hx⟩
  · have hkeep : ∀ a, (∃ x ∈ xs', q.startseq_ x ≤ a.1 ∧ a.1 < q.endseq_ x ∧
        (q.pflags_ x).testBit a.2) → a ∈ q₁.flagged xs' := fun a ha => by
      rwa [flagged, hlo, hhi, hfl]
    constructor
    · rintro a ⟨x, hx, h6, h7, h8⟩ hn
      rcases List.mem_append.mp hx with hx | hx
      · exact hflag _ (hdrop x hx _ h8)
      · exact htrim.returned a (hkeep a ⟨x, hx, h6, h7, h8⟩) hn
    · rintro a ⟨x, hx, h6, h7, h8⟩ hn
      rcases List.mem_append.mp hx with hx | hx
      · have := h4 x hx
        omega
      · exact htrim.kept a (hkeep a ⟨x, hx, h6, h7, h8⟩) hn

/-! ## `clear` -/

/-- **`clear`.**  It returns an empty queue and leaves the owner's number alone. -/
theorem clear_spec (h : q.Holds xs) :
    ∃ q', q.clear = some q' ∧ q'.Holds [] ∧ q'.rcv_nxt_ = q.rcv_nxt_ := by
  obtain ⟨fs, hs⟩ := h.links
  obtain ⟨l', fs', h1, h2, h3, h4, h5, h6, h7, h8⟩ :=
    Shape.freeAll
      (l := { q.toLinks with tail_ := none, top_ := none, bottom_ := none, hint_ := none })
      ⟨hs.fifo.nodup, hs.fifo.head, hs.fifo.next⟩ hs.free hs.apart h.length_lt_bound
  refine ⟨{ q with toLinks := { l' with tail_ := none }, total_ := 0 }, ?_, ⟨⟨fs', ?_⟩, ?_, rfl⟩, rfl⟩
  · rw [clear, h1, Option.map_some]
  · exact Shape.empty_links _ h2 rfl h6 h7 h3 fun x hx => by
      show x < l'.fresh
      rw [h8]
      exact hs.old x (h4 x hx)
  · exact Separated.nil

end Ns2.Tcp.ReassemblyQueue
