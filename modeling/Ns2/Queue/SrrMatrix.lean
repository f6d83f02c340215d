import Ns2.Lib.Ruler
import Ns2.Queue.Srr

/-!
# The weight matrix of smoothed round robin

* `pwss_spec` — the spread sequence is the ruler sequence.
* `Shape` — the columns hold the bits of the weights, the highest column with a node is known, and the
  current node is in its column.
* `PtrOk` — the pointer into the sequence is before the end for the highest column.
* `addNodes_shape`, `withoutRow_shape` — a row is added, a row is removed.
* `again_spec` — the sequence is read up to a column with a node.
* `Matrix.Inv`, `step_inv` — the invariant, which every operation keeps; none exits.
-/

namespace Ns2.Queue

open Function (update)
open Ruler

/-! ## The spread sequence -/

theorem rawScan_spec {i N : ℕ} (h0 : 0 < i) (hi : i < 2 ^ N) {n : ℕ} (hn : n < N)
    (hdvd : 2 ^ (N - n - 1) ∣ i) : 1 ≤ rawScan i N n ∧ IsRuler i (rawScan i N n - 1) := by
  induction n with
  | zero =>
    rw [rawScan]
    refine ⟨by omega, hdvd, fun hN => ?_⟩
    rw [Nat.sub_add_cancel (by omega)] at hN
    exact absurd (Nat.le_of_dvd h0 hN) (by omega)
  | succ n ih =>
    rw [rawScan]
    split_ifs with hmod
    · refine ⟨by omega, hdvd, fun hN => hmod (Nat.mod_eq_zero_of_dvd ?_)⟩
      rwa [Nat.sub_add_cancel (by omega)] at hN
    · refine ih (by omega) (Nat.dvd_of_mod_eq_zero ?_)
      rw [not_not] at hmod
      exact hmod

theorem pwss_spec {p : ℕ} (hp : p + 1 < 2 ^ MAXWSSORDER) :
    1 ≤ pwss p ∧ IsRuler (p + 1) (pwss p - 1) :=
  rawScan_spec (Nat.succ_pos p) hp (by decide) (one_dvd _)

/-- A term that is read before the end for the column `k` names a column up to `k`. -/
theorem pwss_le {p k : ℕ} (hk : k < MAXWSSORDER) (hp : p + 2 ≤ 2 ^ (k + 1)) :
    1 ≤ pwss p ∧ pwss p ≤ k + 1 := by
  have hpow : 2 ^ (k + 1) ≤ 2 ^ MAXWSSORDER := Nat.pow_le_pow_right (by decide) hk
  obtain ⟨h1, h2⟩ := pwss_spec (p := p) (by omega)
  have hlt := h2.lt (Nat.succ_pos p) (by omega : p + 1 < 2 ^ (k + 1))
  omega

/-- An odd place is that of the highest column. -/
theorem pwss_even {p : ℕ} (hp : p + 1 < 2 ^ MAXWSSORDER) (heven : p % 2 = 0) : pwss p = 1 := by
  obtain ⟨h1, h2⟩ := pwss_spec hp
  have hzero : IsRuler (p + 1) 0 := ⟨one_dvd _, fun hdvd => by omega⟩
  have := h2.unique hzero
  omega

/-! ## Lists -/

section Lists

variable {q x y : ℕ} {l : List ℕ}

theorem mem_insertBefore (h : q ∈ l) : x ∈ insertBefore q y l ↔ x = y ∨ x ∈ l := by
  induction l with
  | nil => exact absurd h List.not_mem_nil
  | cons a l ih =>
    rw [insertBefore]
    by_cases ha : a = q
    · rw [if_pos ha, List.mem_cons]
    · rw [if_neg ha, List.mem_cons, ih ((List.mem_cons.mp h).resolve_left (Ne.symm ha)), List.mem_cons]
      tauto

theorem nodup_insertBefore (hl : l.Nodup) (h : q ∈ l) (hy : y ∉ l) : (insertBefore q y l).Nodup := by
  induction l with
  | nil => exact absurd h List.not_mem_nil
  | cons a l ih =>
    rw [List.nodup_cons] at hl
    rw [List.mem_cons, not_or] at hy
    rw [insertBefore]
    by_cases ha : a = q
    · rw [if_pos ha, List.nodup_cons, List.nodup_cons, List.mem_cons, not_or]
      exact ⟨hy, hl⟩
    · have hq := (List.mem_cons.mp h).resolve_left (Ne.symm ha)
      rw [if_neg ha, List.nodup_cons, mem_insertBefore hq, not_or]
      exact ⟨⟨Ne.symm hy.1, hl.1⟩, ih hl.2 hq hy.2⟩

/-- The node after the first part of a column. -/
theorem nextOf_append {pre post : List ℕ} (h : q ∉ pre) : nextOf q (pre ++ q :: post) = post.head? := by
  induction pre with
  | nil => rw [List.nil_append, nextOf, if_pos rfl]
  | cons a pre ih =>
    rw [List.mem_cons, not_or] at h
    rw [List.cons_append, nextOf, if_neg (Ne.symm h.1), ih h.2]

theorem mem_of_nextOf (hl : l.Nodup) (h : nextOf q l = some x) : x ∈ l ∧ x ≠ q := by
  induction l with
  | nil => exact absurd h (by simp [nextOf])
  | cons a l ih =>
    rw [List.nodup_cons] at hl
    rw [nextOf] at h
    split_ifs at h with ha
    · have hx := List.mem_of_mem_head? h
      exact ⟨List.mem_cons_of_mem _ hx, fun hxq => hl.1 (ha.trans hxq.symm ▸ hx)⟩
    · obtain ⟨h1, h2⟩ := ih hl.2 h
      exact ⟨List.mem_cons_of_mem _ h1, h2⟩

end Lists

/-! ## The matrix -/

/-- The nodes of the matrix are those of `m`. -/
structure Cells (s : SRR) (m : ℕ → ℕ → Prop) : Prop where
  nodup : ∀ c, (s.column c).Nodup
  mem : ∀ c q, q ∈ s.column c ↔ m q c
  row : ∀ q c, c ∈ s.row q ↔ m q c

/-- The highest column and the current node fit as well. -/
structure Shape (s : SRR) (m : ℕ → ℕ → Prop) : Prop extends Cells s m where
  low : -1 ≤ s.currMaxColumn
  high : ∀ c : ℕ, s.column c ≠ [] → c ≤ s.currMaxColumn
  top : ∀ c : ℕ, s.currMaxColumn = c → s.column c ≠ []
  idle : s.currMaxColumn = -1 → s.pwmCurr = none ∧ s.wmEmptyFlag = true
  busy : s.currMaxColumn ≠ -1 →
    s.wmEmptyFlag = false ∧ ∃ q c, s.pwmCurr = some (q, c) ∧ q ∈ s.column c

/-- The pointer is before the end of the sequence for the highest column. -/
structure PtrOk (s : SRR) : Prop where
  idle : s.currMaxColumn = -1 → s.ptr = 0
  lt : ∀ k : ℕ, s.currMaxColumn = k → s.ptr + 2 ≤ 2 ^ (k + 1)

variable {s : SRR} {m m' : ℕ → ℕ → Prop} {q i : ℕ}

theorem Shape.congr (h : Shape s m) (hm : ∀ q c, m q c ↔ m' q c) : Shape s m' :=
  { h with
    mem := fun c q => (h.mem c q).trans (hm q c)
    row := fun q c => (h.row q c).trans (hm q c) }

theorem Cells.congr {s' : SRR} (h : Cells s m) (hcol : s'.column = s.column) (hrow : s'.row = s.row) :
    Cells s' m where
  nodup c := hcol ▸ h.nodup c
  mem c q := hcol ▸ h.mem c q
  row q c := hrow ▸ h.row q c

/-- The matrix with a highest column and a current node. -/
theorem Cells.toShape {k c : ℕ} (h : Cells s m) (hk : s.currMaxColumn = k) (hne : s.column k ≠ [])
    (habove : ∀ c, k < c → s.column c = []) (hflag : s.wmEmptyFlag = false)
    (hcurr : s.pwmCurr = some (q, c)) (hq : q ∈ s.column c) : Shape s m :=
  { h with
    low := by omega
    high := fun c hc => by
      have hle : ¬ k < c := fun hkc => hc (habove c hkc)
      omega
    top := fun c hc => by
      obtain rfl : k = c := by omega
      exact hne
    idle := fun hidle => by omega
    busy := fun _ => ⟨hflag, q, c, hcurr, hq⟩ }

theorem Shape.curr_mem {c : ℕ} (h : Shape s m) (hcurr : s.pwmCurr = some (q, c)) : q ∈ s.column c := by
  have hbusy : s.currMaxColumn ≠ -1 := fun hidle => by simp [(h.idle hidle).1] at hcurr
  obtain ⟨-, q', c', hcurr', hq⟩ := h.busy hbusy
  obtain ⟨rfl, rfl⟩ := Prod.mk.inj (Option.some.inj (hcurr.symm.trans hcurr'))
  exact hq

theorem Shape.column_eq_nil {k c : ℕ} (h : Shape s m) (hk : s.currMaxColumn = k) (hkc : k < c) :
    s.column c = [] := by
  by_contra hne
  have := h.high c hne
  omega

theorem PtrOk.of_lt {k : ℕ} (hk : s.currMaxColumn = k) (h : s.ptr + 2 ≤ 2 ^ (k + 1)) : PtrOk s where
  idle hidle := by omega
  lt k' hk' := by
    obtain rfl : k = k' := by omega
    exact h

/-! ## A queue joins -/

theorem column_addNode_self : (s.addNode q i).column i = s.columnWith q i :=
  Function.update_self _ _ _

theorem column_addNode_of_ne {c : ℕ} (hc : c ≠ i) : (s.addNode q i).column c = s.column c :=
  Function.update_of_ne hc _ _

theorem mem_columnWith (h : Shape s m) (x : ℕ) : x ∈ s.columnWith q i ↔ x = q ∨ x ∈ s.column i := by
  have hend : x ∈ s.column i ++ [q] ↔ x = q ∨ x ∈ s.column i := by
    rw [List.mem_append, List.mem_singleton, or_comm]
  unfold SRR.columnWith
  cases hcurr : s.pwmCurr with
  | none => exact hend
  | some curr =>
    obtain ⟨p, c⟩ := curr
    have hp := h.curr_mem hcurr
    dsimp only
    split_ifs with hc
    · exact mem_insertBefore (hc ▸ hp)
    · exact hend

theorem nodup_columnWith (h : Shape s m) (hq : q ∉ s.column i) : (s.columnWith q i).Nodup := by
  have hend : (s.column i ++ [q]).Nodup :=
    List.nodup_append.mpr ⟨h.nodup i, List.nodup_singleton q, fun a ha b hb hab =>
      hq (List.mem_singleton.mp hb ▸ hab ▸ ha)⟩
  unfold SRR.columnWith
  cases hcurr : s.pwmCurr with
  | none => exact hend
  | some curr =>
    obtain ⟨p, c⟩ := curr
    have hp := h.curr_mem hcurr
    dsimp only
    split_ifs with hc
    · exact nodup_insertBefore (h.nodup i) (hc ▸ hp) hq
    · exact hend

/-- A new node. -/
theorem addNode_shape (h : Shape s m) (hq : ¬ m q i) :
    Shape (s.addNode q i) fun x c => m x c ∨ x = q ∧ c = i := by
  have hcolumn : ∀ c x, x ∈ (s.addNode q i).column c ↔ x ∈ s.column c ∨ x = q ∧ c = i := by
    intro c x
    by_cases hc : c = i
    · subst hc
      rw [column_addNode_self, mem_columnWith h]
      tauto
    · rw [column_addNode_of_ne hc]
      tauto
  have hne : ∀ c, s.column c ≠ [] → (s.addNode q i).column c ≠ [] := by
    intro c hc
    obtain ⟨x, hx⟩ := List.exists_mem_of_ne_nil _ hc
    exact List.ne_nil_of_mem ((hcolumn c x).mpr (Or.inl hx))
  have hnew : (s.addNode q i).column i ≠ [] :=
    List.ne_nil_of_mem ((hcolumn i q).mpr (Or.inr ⟨rfl, rfl⟩))
  have hlow := h.low
  refine
    { nodup := fun c => ?_
      mem := fun c x => (hcolumn c x).trans (or_congr_left (h.mem c x))
      row := fun x c => ?_
      low := le_max_of_le_left h.low
      high := fun c hc => ?_
      top := fun c hc => ?_
      idle := fun hidle => ?_
      busy := fun _ => ⟨rfl, ?_⟩ }
  · by_cases hc : c = i
    · subst hc
      rw [column_addNode_self]
      exact nodup_columnWith h fun hmem => hq ((h.mem c q).mp hmem)
    · rw [column_addNode_of_ne hc]
      exact h.nodup c
  · by_cases hx : x = q
    · subst hx
      have hself : (s.addNode x i).row x = s.row x ++ [i] := Function.update_self _ _ _
      rw [hself, List.mem_append, List.mem_singleton, h.row]
      tauto
    · have hother : (s.addNode q i).row x = s.row x := Function.update_of_ne hx _ _
      rw [hother, h.row]
      tauto
  · obtain ⟨x, hx⟩ := List.exists_mem_of_ne_nil _ hc
    rcases (hcolumn c x).mp hx with hx | ⟨-, rfl⟩
    · exact le_max_of_le_left (h.high c (List.ne_nil_of_mem hx))
    · exact le_max_right _ _
  · have hmax : max s.currMaxColumn (i : ℤ) = c := hc
    rcases max_choice s.currMaxColumn (i : ℤ) with hl | hr
    · exact hne c (h.top c (hl.symm.trans hmax))
    · obtain rfl : i = c := by exact_mod_cast hr.symm.trans hmax
      exact hnew
  · have hmax : max s.currMaxColumn (i : ℤ) = -1 := hidle
    have := le_max_right s.currMaxColumn (i : ℤ)
    omega
  · by_cases hempty : s.currMaxColumn = -1
    · obtain ⟨hnone, hflag⟩ := h.idle hempty
      exact ⟨q, i, if_pos ⟨hflag, hnone⟩, (hcolumn i q).mpr (Or.inr ⟨rfl, rfl⟩)⟩
    · obtain ⟨hflag, p, c, hcurr, hp⟩ := h.busy hempty
      refine ⟨p, c, ?_, (hcolumn c p).mpr (Or.inl hp)⟩
      rw [← hcurr]
      exact if_neg fun hc => by simp [hflag] at hc

/-- **The row of a queue.** -/
theorem addNodes_shape {w n : ℕ} (h : Shape s m) (hq : ∀ c < n, ¬ m q c) :
    Shape (SRR.addNodes q w n s) (fun x c => m x c ∨ x = q ∧ c < n ∧ w.testBit c = true) ∧
      (SRR.addNodes q w n s).ptr = s.ptr ∧ (SRR.addNodes q w n s).maxColumn = s.maxColumn ∧
      s.currMaxColumn ≤ (SRR.addNodes q w n s).currMaxColumn := by
  induction n generalizing s m with
  | zero => exact ⟨h.congr fun x c => by simp, rfl, rfl, le_rfl⟩
  | succ n ih =>
    rw [SRR.addNodes]
    split_ifs with hbit
    · obtain ⟨h1, h2, h3, h4⟩ := ih (addNode_shape h (hq n (Nat.lt_succ_self n))) fun c hc => by
        rintro (hm | ⟨-, rfl⟩)
        · exact hq c (by omega) hm
        · exact absurd hc (lt_irrefl _)
      refine ⟨h1.congr fun x c => ?_, h2, h3, (le_max_left _ _).trans h4⟩
      constructor
      · rintro ((hm | ⟨rfl, rfl⟩) | ⟨rfl, hc, hb⟩)
        · exact Or.inl hm
        · exact Or.inr ⟨rfl, Nat.lt_succ_self _, hbit⟩
        · exact Or.inr ⟨rfl, by omega, hb⟩
      · rintro (hm | ⟨rfl, hc, hb⟩)
        · exact Or.inl (Or.inl hm)
        · rcases Nat.lt_succ_iff_lt_or_eq.mp hc with hc | rfl
          · exact Or.inr ⟨rfl, hc, hb⟩
          · exact Or.inl (Or.inr ⟨rfl, rfl⟩)
    · obtain ⟨h1, h2, h3, h4⟩ := ih h fun c hc => hq c (by omega)
      refine ⟨h1.congr fun x c => or_congr_right ⟨?_, ?_⟩, h2, h3, h4⟩
      · rintro ⟨rfl, hc, hb⟩
        exact ⟨rfl, by omega, hb⟩
      · rintro ⟨rfl, hc, hb⟩
        rcases Nat.lt_succ_iff_lt_or_eq.mp hc with hc | rfl
        · exact ⟨rfl, hc, hb⟩
        · exact absurd hb hbit

/-- The pointer when the highest column becomes higher. -/
theorem grow_lt {ptr a b : ℕ} (h : ptr + 2 ≤ 2 ^ (a + 1)) (hab : a < b) :
    (ptr + 1) * 2 ^ (b - a) - 1 + 2 ≤ 2 ^ (b + 1) := by
  have hsplit : 2 ^ (b + 1) = 2 ^ (a + 1) * 2 ^ (b - a) := by
    rw [← pow_add]
    congr 1
    omega
  have htwo : 2 ≤ 2 ^ (b - a) := by
    calc 2 = 2 ^ 1 := rfl
      _ ≤ 2 ^ (b - a) := Nat.pow_le_pow_right (by decide) (by omega)
  have hmul : (ptr + 1 + 1) * 2 ^ (b - a) ≤ 2 ^ (a + 1) * 2 ^ (b - a) :=
    Nat.mul_le_mul_right _ h
  rw [Nat.add_mul, Nat.one_mul] at hmul
  omega

theorem two_le_two_pow (k : ℕ) : 2 ≤ 2 ^ (k + 1) := by
  have : 1 ≤ 2 ^ k := Nat.one_le_two_pow
  rw [pow_succ]
  omega

theorem lt_of_testBit {w c n : ℕ} (hw : w < 2 ^ n) (hc : w.testBit c = true) : c < n :=
  (Nat.pow_lt_pow_iff_right (by decide)).mp ((Nat.ge_two_pow_of_testBit hc).trans_lt hw)

/-- **`add_to_WM`** of a queue that is not in the matrix, with a weight for which there are columns. -/
theorem add_to_WM_spec {w : ℕ} (h : Shape s m) (hptr : PtrOk s) (hq : ∀ c, ¬ m q c) (hw : 1 ≤ w)
    (hlt : w < 2 ^ (s.maxColumn + 1)) :
    ∃ s', s.add_to_WM q w = some s' ∧
      Shape s' (fun x c => m x c ∨ x = q ∧ c < s.maxColumn + 1 ∧ w.testBit c = true) ∧ PtrOk s' ∧
      s'.maxColumn = s.maxColumn := by
  obtain ⟨h1, h2, h3, h4⟩ := addNodes_shape (w := w) (n := s.maxColumn + 1) h fun c _ => hq c
  have hlow := h.low
  have hbusy : (SRR.addNodes q w (s.maxColumn + 1) s).currMaxColumn ≠ -1 := by
    -- some bit of the weight is set
    obtain ⟨c, hc⟩ := Nat.exists_testBit_of_ne_zero (by omega : w ≠ 0)
    have hmem := (h1.mem c q).mpr (Or.inr ⟨rfl, lt_of_testBit hlt hc, hc⟩)
    have := h1.high c (List.ne_nil_of_mem hmem)
    omega
  unfold SRR.add_to_WM
  rw [if_neg (by omega), if_neg (by omega)]
  dsimp only
  by_cases hgrow : s.currMaxColumn < (SRR.addNodes q w (s.maxColumn + 1) s).currMaxColumn ∧
      0 ≤ s.currMaxColumn
  · rw [if_pos hgrow]
    refine ⟨_, rfl, { h1 with }, ⟨fun hidle => absurd hidle hbusy, fun k hk => ?_⟩, h3⟩
    obtain ⟨a, ha⟩ := Int.eq_ofNat_of_zero_le hgrow.2
    have hk' : (SRR.addNodes q w (s.maxColumn + 1) s).currMaxColumn = k := hk
    have hold := hptr.lt a ha
    have hexp : ((SRR.addNodes q w (s.maxColumn + 1) s).currMaxColumn - s.currMaxColumn).toNat =
        k - a := by omega
    dsimp only
    rw [hexp, h2]
    exact grow_lt hold (by omega)
  · rw [if_neg hgrow]
    refine ⟨_, rfl, h1, ⟨fun hidle => absurd hidle hbusy, fun k hk => ?_⟩, h3⟩
    rw [h2]
    by_cases hidle : s.currMaxColumn = -1
    · rw [hptr.idle hidle]
      exact two_le_two_pow k
    · exact hptr.lt k (by omega)

/-! ## Reading the sequence -/

/-- One term. -/
theorem get_spec {ptr k : ℕ} (h : ptr + 2 ≤ 2 ^ (k + 1)) :
    WSS.get ptr (k + 1) = some (pwss ptr) ∧ WSS.inc_ptr ptr (k + 1) + 2 ≤ 2 ^ (k + 1) := by
  refine ⟨if_neg (by omega), ?_⟩
  rw [WSS.inc_ptr]
  split_ifs
  · exact two_le_two_pow k
  · omega

/-- After a term for a lower column comes one for the highest column. -/
theorem next_even {ptr k : ℕ} (hk : k < MAXWSSORDER) (h : ptr + 2 ≤ 2 ^ (k + 1))
    (hne : pwss ptr ≠ 1) : pwss (WSS.inc_ptr ptr (k + 1)) = 1 := by
  have hpow : 2 ^ (k + 1) ≤ 2 ^ MAXWSSORDER := Nat.pow_le_pow_right (by decide) hk
  have hsucc : 2 ^ (k + 1) = 2 * 2 ^ k := by ring
  have hodd : ptr % 2 = 1 := by
    by_contra heven
    exact hne (pwss_even (by omega) (by omega))
  rw [WSS.inc_ptr, if_neg (by omega)]
  exact pwss_even (by omega) (by omega)

theorem two_le_terms {k : ℕ} (hk : s.currMaxColumn = k) : 2 ≤ s.terms := by
  rw [SRR.terms, show (s.currMaxColumn + 1).toNat = k + 1 by omega]
  exact two_le_two_pow k

/-- **Reading ends** at a column with a node, and it takes two terms at most. -/
theorem again_spec {k fuel : ℕ} (hcurr : s.currMaxColumn = k) (hk : k < MAXWSSORDER)
    (hcol : s.column k ≠ []) (hptr : s.ptr + 2 ≤ 2 ^ (k + 1)) (hfuel : 2 ≤ fuel) :
    ∃ p q c, s.again fuel = some { s with ptr := p, pwmCurr := some (q, c) } ∧ p + 2 ≤ 2 ^ (k + 1) ∧
      q ∈ s.column c := by
  obtain ⟨n, rfl⟩ : ∃ n, fuel = n + 2 := ⟨fuel - 2, by omega⟩
  have horder : (s.currMaxColumn + 1).toNat = k + 1 := by omega
  obtain ⟨hget, hinc⟩ := get_spec hptr
  unfold SRR.again
  dsimp only
  rw [horder, hget, Option.bind_some]
  cases hc : s.column (k + 1 - pwss s.ptr) with
  | cons q l => exact ⟨_, q, _, rfl, hinc, hc ▸ List.mem_cons_self⟩
  | nil =>
    have hne : pwss s.ptr ≠ 1 := by
      intro h1
      rw [h1, Nat.add_sub_cancel] at hc
      exact hcol hc
    have hone := next_even hk hptr hne
    obtain ⟨hget', hinc'⟩ := get_spec hinc
    obtain ⟨q, l, hql⟩ := List.exists_cons_of_ne_nil hcol
    dsimp only
    unfold SRR.again
    dsimp only
    rw [horder, hget', Option.bind_some, hone]
    rw [Nat.add_sub_cancel, hql]
    exact ⟨_, q, k, rfl, hinc', hql ▸ List.mem_cons_self⟩

/-! ## A queue leaves -/

theorem highest_spec (column : ℕ → List ℕ) (n : ℕ) :
    (SRR.highest column n = -1 ∧ ∀ c < n, column c = []) ∨
      ∃ k < n, SRR.highest column n = k ∧ column k ≠ [] ∧ ∀ c, k < c → c < n → column c = [] := by
  induction n with
  | zero => exact Or.inl ⟨rfl, fun c hc => absurd hc (Nat.not_lt_zero c)⟩
  | succ n ih =>
    rw [SRR.highest]
    split_ifs with hn
    · exact Or.inr ⟨n, Nat.lt_succ_self n, rfl, hn, fun c h1 h2 => by omega⟩
    · rw [not_not] at hn
      have hlast : ∀ c, (c < n → column c = []) → c < n + 1 → column c = [] := by
        intro c hc hlt
        rcases Nat.lt_succ_iff_lt_or_eq.mp hlt with hlt | rfl
        · exact hc hlt
        · exact hn
      rcases ih with ⟨h1, h2⟩ | ⟨k, hk, h1, h2, h3⟩
      · exact Or.inl ⟨h1, fun c hc => hlast c (h2 c) hc⟩
      · exact Or.inr ⟨k, by omega, h1, h2, fun c hkc hc => hlast c (h3 c hkc) hc⟩

theorem withoutRow_cells (h : Cells s m) (curr : ℕ × ℕ) :
    Cells (s.withoutRow q curr) fun x c => m x c ∧ x ≠ q where
  nodup c := by
    have hcol : (s.withoutRow q curr).column c =
      if c ∈ s.row q then (s.column c).erase q else s.column c := rfl
    rw [hcol]
    split_ifs
    · exact (h.nodup c).erase q
    · exact h.nodup c
  mem c x := by
    have hcol : (s.withoutRow q curr).column c =
      if c ∈ s.row q then (s.column c).erase q else s.column c := rfl
    rw [hcol]
    split_ifs with hrow
    · rw [(h.nodup c).mem_erase_iff, h.mem]
      exact and_comm
    · rw [h.mem]
      refine ⟨fun hm => ⟨hm, fun hxq => hrow ((h.row q c).mpr (hxq ▸ hm))⟩, And.left⟩
  row x c := by
    have hrow : (s.withoutRow q curr).row x = update s.row q [] x := rfl
    rw [hrow]
    by_cases hx : x = q
    · subst hx
      rw [Function.update_self]
      simp
    · rw [Function.update_of_ne hx, h.row]
      simp [hx]

/-- The pointer when the highest column becomes lower. -/
theorem shrinkPtr_lt {a b : ℕ} (h : s.ptr + 2 ≤ 2 ^ (a + 1)) (hab : b < a) :
    s.shrinkPtr a b + 2 ≤ 2 ^ (b + 1) := by
  have hsplit : 2 ^ (a + 1) = 2 ^ (a - b) * 2 ^ (b + 1) := by
    rw [← pow_add]
    congr 1
    omega
  have hmul : ((a : ℤ) - b).toNat = a - b := by omega
  have hexp : ((b : ℤ) + 1).toNat = b + 1 := by omega
  have htwo := two_le_two_pow b
  have hpos : 0 < 2 ^ (a - b) := by positivity
  have hlt : (s.ptr + 1) / 2 ^ (a - b) < 2 ^ (b + 1) := by
    rw [Nat.div_lt_iff_lt_mul hpos, Nat.mul_comm, ← hsplit]
    omega
  unfold SRR.shrinkPtr
  rw [hmul, hexp]
  dsimp only
  split_ifs with hmod hbig
  · omega
  · omega
  · rw [not_not] at hmod
    have hdvd := Nat.div_pos (Nat.le_of_dvd (Nat.succ_pos _) (Nat.dvd_of_mod_eq_zero hmod)) hpos
    omega

/-- The current node, once the row of a queue has been removed, is still in its column. -/
theorem withoutRow_curr (h : Shape s m) {curr : ℕ × ℕ} (hcurr : s.pwmCurr = some curr) {p c : ℕ}
    (hp : (s.withoutRow q curr).pwmCurr = some (p, c)) : p ∈ (s.withoutRow q curr).column c := by
  obtain ⟨p', c'⟩ := curr
  have hmem := h.curr_mem hcurr
  refine ((withoutRow_cells h.toCells (p', c')).mem c p).mpr ?_
  have hdef : (s.withoutRow q (p', c')).pwmCurr =
      if p' = q then (nextOf p' (s.column c')).map fun q => (q, c') else some (p', c') := rfl
  rw [hdef] at hp
  split_ifs at hp with hpq
  · obtain ⟨x, hx, hxp⟩ := Option.map_eq_some_iff.mp hp
    obtain ⟨rfl, rfl⟩ := Prod.mk.inj hxp
    obtain ⟨h1, h2⟩ := mem_of_nextOf (h.nodup c') hx
    exact ⟨(h.mem c' x).mp h1, fun hxq => h2 (hxq.trans hpq.symm)⟩
  · obtain ⟨rfl, rfl⟩ := Prod.mk.inj (Option.some.inj hp)
    exact ⟨(h.mem c' p').mp hmem, hpq⟩

/-- The end of `del_from_WM`: without a current node the sequence is read. -/
theorem resume_spec {k : ℕ} (h : Cells s m) (hk : s.currMaxColumn = k) (hlt : k < MAXWSSORDER)
    (hne : s.column k ≠ []) (habove : ∀ c, k < c → s.column c = []) (hflag : s.wmEmptyFlag = false)
    (hcurr : ∀ p c, s.pwmCurr = some (p, c) → p ∈ s.column c) (hptr : s.ptr + 2 ≤ 2 ^ (k + 1)) :
    ∃ s', (if s.pwmCurr = none then SRR.again s.terms s else some s) = some s' ∧ Shape s' m ∧ PtrOk s' ∧
      s'.maxColumn = s.maxColumn := by
  cases hnone : s.pwmCurr with
  | none =>
    obtain ⟨ptr, x, c, hagain, hle, hx⟩ := again_spec hk hlt hne hptr (two_le_terms hk)
    have hcells : Cells { s with ptr := ptr, pwmCurr := some (x, c) } m := h.congr rfl rfl
    rw [if_pos rfl]
    exact ⟨_, hagain, hcells.toShape hk hne habove hflag rfl hx, PtrOk.of_lt hk hle, rfl⟩
  | some curr =>
    rw [if_neg (Option.some_ne_none curr)]
    exact ⟨s, rfl, h.toShape hk hne habove hflag hnone (hcurr _ _ hnone), PtrOk.of_lt hk hptr, rfl⟩

/-- **`del_from_WM`**, while there is a queue in the matrix. -/
theorem del_from_WM_spec (h : Shape s m) (hptr : PtrOk s) (hbusy : s.currMaxColumn ≠ -1)
    (hcols : ∀ k : ℕ, s.currMaxColumn = k → k < MAXWSSORDER) :
    ∃ s', s.del_from_WM q = some s' ∧ Shape s' (fun x c => m x c ∧ x ≠ q) ∧ PtrOk s' ∧
      s'.maxColumn = s.maxColumn := by
  obtain ⟨-, p, c, hcurr, hp⟩ := h.busy hbusy
  have hcells := withoutRow_cells (q := q) h.toCells (p, c)
  have hlow := h.low
  obtain ⟨a, ha⟩ := Int.eq_ofNat_of_zero_le (by omega : 0 ≤ s.currMaxColumn)
  have hexp : (s.currMaxColumn + 1).toNat = a + 1 := by omega
  -- nothing is above the column that was the highest
  have habove : ∀ c, a + 1 ≤ c → (s.withoutRow q (p, c)).column c = [] := by
    intro c hc
    refine List.eq_nil_iff_forall_not_mem.mpr fun x hx => ?_
    have hold := (h.mem c x).mpr ((hcells.mem c x).mp hx).1
    rw [h.column_eq_nil ha hc] at hold
    exact List.not_mem_nil hold
  unfold SRR.del_from_WM
  rw [hcurr, Option.bind_some]
  dsimp only
  rw [hexp]
  rcases highest_spec (s.withoutRow q (p, c)).column (a + 1) with ⟨hi, hall⟩ | ⟨k, hk, hi, hne, hall⟩
  · have hempty : ∀ c, (s.withoutRow q (p, c)).column c = [] := by
      intro c
      rcases Nat.lt_or_ge c (a + 1) with hlt | hge
      · exact hall c hlt
      · exact habove c hge
    rw [hi, if_pos (by decide)]
    refine ⟨_, rfl, ?_, ⟨fun _ => rfl, fun k hk => ?_⟩, rfl⟩
    · exact
        { nodup := hcells.nodup
          mem := hcells.mem
          row := hcells.row
          low := le_rfl
          high := fun c hc => absurd (hempty c) hc
          top := fun c hc => absurd hc (by dsimp only; omega)
          idle := fun _ => ⟨rfl, rfl⟩
          busy := fun hne => absurd rfl hne }
    · exact absurd hk (by dsimp only; omega)
  · rw [hi, if_neg (by omega)]
    have hflag := (h.busy hbusy).1
    have hptr' : (if (k : ℤ) < s.currMaxColumn then (s.withoutRow q (p, c)).shrinkPtr s.currMaxColumn k
        else s.ptr) + 2 ≤ 2 ^ (k + 1) := by
      have hold := hptr.lt a ha
      split_ifs with hlt
      · rw [ha]
        exact shrinkPtr_lt hold (by omega)
      · obtain rfl : k = a := by omega
        exact hold
    have hcells' : Cells { s.withoutRow q (p, c) with
        currMaxColumn := (k : ℤ)
        ptr := if (k : ℤ) < s.currMaxColumn then (s.withoutRow q (p, c)).shrinkPtr s.currMaxColumn k
          else s.ptr } fun x c => m x c ∧ x ≠ q := hcells.congr rfl rfl
    have hlt : k < MAXWSSORDER := (by omega : k ≤ a).trans_lt (hcols a ha)
    have hnone : ∀ c', k < c' → (s.withoutRow q (p, c)).column c' = [] := by
      intro c' hkc
      rcases Nat.lt_or_ge c' (a + 1) with hle | hge
      · exact hall c' hkc hle
      · exact habove c' hge
    exact resume_spec hcells' rfl hlt hne hnone hflag (fun _ _ hp' => withoutRow_curr h hcurr hp') hptr'

/-! ## The next node -/

/-- **`getNextNode`**, while there is a queue in the matrix. -/
theorem getNextNode_spec {b : ℤ} {k : ℕ} (h : Shape s m) (hptr : PtrOk s) (hk : s.currMaxColumn = k)
    (hlt : k < MAXWSSORDER) :
    ∃ s', s.getNextNode b = some s' ∧ Shape s' m ∧ PtrOk s' ∧ s'.maxColumn = s.maxColumn := by
  have hbusy : s.currMaxColumn ≠ -1 := by omega
  obtain ⟨hflag, q, c, hcurr, hq⟩ := h.busy hbusy
  have hne := h.top k hk
  have habove : ∀ c, k < c → s.column c = [] := fun c hkc => h.column_eq_nil hk hkc
  unfold SRR.getNextNode
  split_ifs with hb
  · exact ⟨s, rfl, h, hptr, rfl⟩
  · rw [hcurr, Option.bind_some]
    cases hnext : nextOf q (s.column c) with
    | some x =>
      have hx := (mem_of_nextOf (h.nodup c) hnext).1
      have hcells : Cells { s with pwmCurr := some (x, c) } m := h.toCells.congr rfl rfl
      exact ⟨_, rfl, hcells.toShape hk hne habove hflag rfl hx, PtrOk.of_lt hk (hptr.lt k hk), rfl⟩
    | none =>
      obtain ⟨ptr, x, c', hagain, hle, hx⟩ := again_spec hk hlt hne (hptr.lt k hk) (two_le_terms hk)
      have hcells : Cells { s with ptr := ptr, pwmCurr := some (x, c') } m := h.toCells.congr rfl rfl
      exact ⟨_, hagain, hcells.toShape hk hne habove hflag rfl hx, PtrOk.of_lt hk hle, rfl⟩

/-! ## The invariant -/

/-- The matrix holds the bits of the weights, and there are columns for them. -/
structure Matrix.Inv (m : Matrix) : Prop where
  shape : Shape m.srr fun q c => (m.weight q).testBit c = true
  ptr : PtrOk m.srr
  columns : m.srr.maxColumn + 1 ≤ MAXWSSORDER
  weight_lt : ∀ q, m.weight q < 2 ^ (m.srr.maxColumn + 1)
  ids : ∀ q, MAXFLOW ≤ q → m.weight q = 0

namespace Matrix

variable {m m' : Matrix} {op : Op}

/-- A queue has a node when it has a weight. -/
theorem Inv.mem_column (h : m.Inv) {q : ℕ} (hq : m.weight q ≠ 0) : ∃ c, q ∈ m.srr.column c := by
  obtain ⟨c, hc⟩ := Nat.exists_testBit_of_ne_zero hq
  exact ⟨c, (h.shape.mem c q).mpr hc⟩

theorem Inv.weight_ne (h : m.Inv) {q c : ℕ} (hq : q ∈ m.srr.column c) : m.weight q ≠ 0 := by
  intro hzero
  have hbit := (h.shape.mem c q).mp hq
  rw [hzero, Nat.zero_testBit] at hbit
  exact absurd hbit (by decide)

/-- While a queue has a weight, there is a highest column. -/
theorem Inv.busy (h : m.Inv) {q : ℕ} (hq : m.weight q ≠ 0) : m.srr.currMaxColumn ≠ -1 := by
  obtain ⟨c, hc⟩ := h.mem_column hq
  have := h.shape.high c (List.ne_nil_of_mem hc)
  omega

/-- The sequence is long enough for every column with a node. -/
theorem Inv.lt_order (h : m.Inv) {k : ℕ} (hk : m.srr.currMaxColumn = k) : k < MAXWSSORDER := by
  obtain ⟨q, hq⟩ := List.exists_mem_of_ne_nil _ (h.shape.top k hk)
  exact (lt_of_testBit (h.weight_lt q) ((h.shape.mem k q).mp hq)).trans_le h.columns

theorem Inv.new : Inv ⟨SRR.new, fun _ => 0⟩ where
  shape :=
    { nodup := fun _ => List.nodup_nil
      mem := fun c q => by simp [SRR.new]
      row := fun q c => by simp [SRR.new]
      low := le_rfl
      high := fun c hc => absurd rfl hc
      top := fun c hc => absurd hc (by simp only [SRR.new]; omega)
      idle := fun _ => ⟨rfl, rfl⟩
      busy := fun hne => absurd rfl hne }
  ptr := ⟨fun _ => rfl, fun k hk => absurd hk (by simp only [SRR.new]; omega)⟩
  columns := by decide
  weight_lt _ := by positivity
  ids _ _ := rfl

/-- The weight of one queue changes. -/
theorem Inv.update (h : m.Inv) {s' : SRR} {q w : ℕ}
    (hshape : Shape s' fun x c => (Function.update m.weight q w x).testBit c = true) (hptr : PtrOk s')
    (hmax : s'.maxColumn = m.srr.maxColumn) (hw : w < 2 ^ (m.srr.maxColumn + 1))
    (hid : MAXFLOW ≤ q → w = 0) : Inv ⟨s', Function.update m.weight q w⟩ := by
  refine ⟨hshape, hptr, hmax ▸ h.columns, fun x => ?_, fun x hx => ?_⟩
  · dsimp only
    rw [hmax]
    by_cases hxq : x = q
    · rw [hxq, Function.update_self]
      exact hw
    · rw [Function.update_of_ne hxq]
      exact h.weight_lt x
  · dsimp only
    by_cases hxq : x = q
    · rw [hxq, Function.update_self]
      exact hid (hxq ▸ hx)
    · rw [Function.update_of_ne hxq]
      exact h.ids x hx

/-- **Every operation succeeds** and keeps the invariant. -/
theorem step_inv (h : m.Inv) (hop : op.Legal m) : ∃ m', m.step op = some m' ∧ m'.Inv := by
  cases op with
  | setrate order =>
    have hle : m.srr.maxColumn ≤ max m.srr.maxColumn order := le_max_left _ _
    have hcols : max m.srr.maxColumn order + 1 ≤ MAXWSSORDER := by
      have hcols := h.columns
      have hlegal : order + 1 ≤ MAXWSSORDER := hop
      omega
    have hpow : 2 ^ (m.srr.maxColumn + 1) ≤ 2 ^ (max m.srr.maxColumn order + 1) :=
      Nat.pow_le_pow_right (by decide) (Nat.succ_le_succ hle)
    exact ⟨_, rfl,
      { shape := { h.shape with }
        ptr := ⟨h.ptr.idle, h.ptr.lt⟩
        columns := hcols
        weight_lt := fun q => (h.weight_lt q).trans_le hpow
        ids := h.ids }⟩
  | join q w =>
    obtain ⟨hid, hzero, hw, hlt⟩ := hop
    obtain ⟨s', h1, h2, h3, h4⟩ := add_to_WM_spec (q := q) h.shape h.ptr
      (fun c => by rw [hzero, Nat.zero_testBit]; exact Bool.false_ne_true) hw hlt
    refine ⟨⟨s', Function.update m.weight q w⟩, by rw [step, h1]; rfl, ?_⟩
    refine h.update (h2.congr fun x c => ?_) h3 h4 hlt fun hge => absurd hid (not_lt.mpr hge)
    by_cases hx : x = q
    · subst hx
      rw [Function.update_self, hzero, Nat.zero_testBit]
      simp only [Bool.false_eq_true, false_or, true_and]
      exact and_iff_right_of_imp (lt_of_testBit hlt)
    · rw [Function.update_of_ne hx]
      simp [hx]
  | leave q =>
    have hbusy := h.busy hop
    obtain ⟨s', h1, h2, h3, h4⟩ := del_from_WM_spec (q := q) h.shape h.ptr hbusy fun k hk => h.lt_order hk
    refine ⟨⟨s', Function.update m.weight q 0⟩, by rw [step, h1]; rfl, ?_⟩
    refine h.update (h2.congr fun x c => ?_) h3 h4 (by positivity) fun _ => rfl
    by_cases hx : x = q
    · subst hx
      rw [Function.update_self, Nat.zero_testBit]
      simp
    · rw [Function.update_of_ne hx]
      simp [hx]
  | next b =>
    by_cases hb : b = 0
    · exact ⟨m, by rw [step, SRR.getNextNode, if_pos hb]; rfl, h⟩
    · obtain ⟨q, hq⟩ := hop.resolve_left hb
      have hbusy := h.busy hq
      have hlow := h.shape.low
      obtain ⟨k, hk⟩ := Int.eq_ofNat_of_zero_le (by omega : 0 ≤ m.srr.currMaxColumn)
      obtain ⟨s', h1, h2, h3, h4⟩ := getNextNode_spec (b := b) h.shape h.ptr hk (h.lt_order hk)
      exact ⟨⟨s', m.weight⟩, by rw [step, h1]; rfl,
        { h with shape := h2, ptr := h3, columns := h4 ▸ h.columns, weight_lt := fun q => h4 ▸ h.weight_lt q }⟩

theorem Reachable.inv (h : m.Reachable) : m.Inv := by
  induction h with
  | new => exact Inv.new
  | step _ hop hstep ih =>
    obtain ⟨m', hstep', hinv⟩ := step_inv ih hop
    obtain rfl := Option.some.inj (hstep.symm.trans hstep')
    exact hinv

end Matrix

end Ns2.Queue
