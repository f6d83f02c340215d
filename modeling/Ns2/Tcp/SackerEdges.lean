import Ns2.Tcp.Sacker

/-!
# The edges of the first SACK block

What the two searches of `append_ack` find in the ring, when the acker has received the
packets `R`.

* `unseen_eq` — an entry of the window is empty if the packet is missing.
* `isRun_recent` — for a packet above the cumulative acknowledgment, the two edges are those
  of the run of packets that has it.
* `isRun_inOrder` — for the packet expected, `0` and the right edge are those of the run of
  packets that has it.
* `sackRight_le` — for a packet below the window, the right edge is not in the window.
-/

namespace Ns2.Tcp

open Ring Runs

/-- The packets received, as integers. -/
def received (R : Finset ℕ) : Set ℤ := {i | ∃ n ∈ R, (n : ℤ) = i}

variable {R : Finset ℕ} {size : ℕ → ℤ} {a : Acker} {n x lo r : ℕ}

theorem natCast_mem_received : (n : ℤ) ∈ received R ↔ n ∈ R := by
  refine ⟨?_, fun h => ⟨n, h, rfl⟩⟩
  rintro ⟨m, hm, heq⟩
  rwa [← Nat.cast_injective heq]

theorem received_insert : received (insert x R) = insert (x : ℤ) (received R) := by
  ext i
  constructor
  · rintro ⟨m, hm, rfl⟩
    rcases Finset.mem_insert.mp hm with rfl | hm
    · exact Set.mem_insert _ _
    · exact Set.mem_insert_of_mem _ ⟨m, hm, rfl⟩
  · rintro (rfl | ⟨m, hm, rfl⟩)
    · exact ⟨x, Finset.mem_insert_self x R, rfl⟩
    · exact ⟨m, Finset.mem_insert_of_mem hm, rfl⟩

/-- Packets that form a run, given by natural numbers. -/
theorem isRun_natCast {l r : ℕ} (hlt : l < r) (hsub : ∀ i, l ≤ i → i < r → i ∈ R)
    (hbefore : ∀ i, i + 1 = l → i ∉ R) (hafter : r ∉ R) : IsRun (received R) l r where
  lt := by omega
  sub i h1 h2 := ⟨i.toNat, hsub _ (by omega) (by omega), by omega⟩
  before := by
    rintro ⟨m, hm, heq⟩
    exact hbefore m (by omega) hm
  after h := hafter (natCast_mem_received.mp h)

namespace Sacker

/-- The entry of a packet of the window is empty if the packet is missing. -/
theorem unseen_eq (hsize : ∀ i, 0 < size i)
    (hw : Window a.wndmask_ a.seen_ lo (a.maxseen_ + 1) (Acker.entries size R)) (hlo : lo ≤ n)
    (hn : n ≤ a.maxseen_ + 1) : unseen a n = decide (n ∉ R) := by
  unfold unseen
  rw [hw.entry n hlo hn, Acker.entries]
  by_cases hmem : n ∈ R
  · simp [hmem, (hsize n).ne']
  · simp [hmem]

/-- A search to the right finds the first number. -/
theorem find?_range' {p : ℕ → Bool} {s m : ℕ} :
    (∃ i, s ≤ i ∧ i < s + m ∧ (List.range' s m).find? p = some i ∧ p i = true ∧
        ∀ j, s ≤ j → j < i → p j = false) ∨
      (List.range' s m).find? p = none ∧ ∀ j, s ≤ j → j < s + m → p j = false := by
  induction m generalizing s with
  | zero => exact Or.inr ⟨rfl, fun j h1 h2 => absurd h2 (by omega)⟩
  | succ m ih =>
    rw [List.range'_succ, List.find?_cons]
    cases hp : p s with
    | true => exact Or.inl ⟨s, le_rfl, by omega, rfl, hp, fun j h1 h2 => absurd h2 (by omega)⟩
    | false =>
      have hfirst : ∀ j, s ≤ j → ¬ s + 1 ≤ j → p j = false := fun j h1 h2 => by
        rwa [show j = s by omega]
      rcases ih (s := s + 1) with ⟨i, h1, h2, hfind, hpi, hbelow⟩ | ⟨hfind, hnone⟩
      · refine Or.inl ⟨i, by omega, by omega, hfind, hpi, fun j hj hj' => ?_⟩
        by_cases hle : s + 1 ≤ j
        · exact hbelow j hle hj'
        · exact hfirst j hj hle
      · refine Or.inr ⟨hfind, fun j hj hj' => ?_⟩
        by_cases hle : s + 1 ≤ j
        · exact hnone j hle (by omega)
        · exact hfirst j hj hle

/-- A search to the left finds the last number. -/
theorem find?_range'_reverse {p : ℕ → Bool} {s m : ℕ} (h : ∃ i, s ≤ i ∧ i < s + m ∧ p i = true) :
    ∃ i, s ≤ i ∧ i < s + m ∧ (List.range' s m).reverse.find? p = some i ∧ p i = true ∧
      ∀ j, i < j → j < s + m → p j = false := by
  induction m with
  | zero =>
    obtain ⟨i, h1, h2, -⟩ := h
    omega
  | succ m ih =>
    rw [List.range'_concat, List.reverse_append, one_mul]
    simp only [List.reverse_cons, List.reverse_nil, List.nil_append, List.cons_append,
      List.find?_cons]
    cases hp : p (s + m) with
    | true => exact ⟨s + m, by omega, by omega, rfl, hp, fun j h1 h2 => absurd h2 (by omega)⟩
    | false =>
      have hbelow : ∃ i, s ≤ i ∧ i < s + m ∧ p i = true := by
        obtain ⟨i, h1, h2, hpi⟩ := h
        refine ⟨i, h1, ?_, hpi⟩
        by_contra hge
        rw [show i = s + m by omega, hp] at hpi
        cases hpi
      obtain ⟨i, h1, h2, hfind, hpi, habove⟩ := ih hbelow
      refine ⟨i, h1, by omega, hfind, hpi, fun j hj hj' => ?_⟩
      by_cases hlast : j = s + m
      · rwa [hlast]
      · exact habove j hj (by omega)

/-- The right edge is the first packet missing from the packet on. -/
theorem sackRight_spec (hsize : ∀ i, 0 < size i)
    (hw : Window a.wndmask_ a.seen_ lo (a.maxseen_ + 1) (Acker.entries size R))
    (htop : ∀ i ∈ R, i ≤ a.maxseen_) (hlo : lo ≤ x) (hx : x ∈ R) :
    x < sackRight a x ∧ sackRight a x ≤ a.maxseen_ + 1 ∧ sackRight a x ∉ R ∧
      ∀ i, x ≤ i → i < sackRight a x → i ∈ R := by
  have hxle := htop x hx
  have hseen : ∀ i, x ≤ i → i ≤ a.maxseen_ → unseen a i = false → i ∈ R := fun i h1 h2 h => by
    rw [unseen_eq hsize hw (by omega) (by omega)] at h
    simpa using h
  unfold sackRight
  rcases find?_range' (p := unseen a) (s := x) (m := a.maxseen_ + 1 - x) with
    ⟨i, h1, h2, hfind, hpi, hbelow⟩ | ⟨hfind, hnone⟩
  · rw [unseen_eq hsize hw (by omega) (by omega), decide_eq_true_eq] at hpi
    rw [hfind, Option.getD_some]
    have hne : x ≠ i := fun heq => hpi (heq ▸ hx)
    exact ⟨by omega, by omega, hpi, fun j h3 h4 => hseen j h3 (by omega) (hbelow j h3 h4)⟩
  · rw [hfind, Option.getD_none]
    refine ⟨by omega, le_rfl, fun hmem => ?_, fun j h3 h4 => hseen j h3 (by omega)
      (hnone j h3 (by omega))⟩
    have := htop _ hmem
    omega

/-- The edges of the block for a packet above the cumulative acknowledgment. -/
theorem isRun_recent (hsize : ∀ i, 0 < size i) (h : Acker.Exact size R a) (hx : x ∈ R)
    (habove : a.next_ ≤ x) :
    IsRun (received R) (sackLeft a (sackRight a x)) (sackRight a x) ∧
      (a.next_ : ℤ) < sackLeft a (sackRight a x) ∧ sackLeft a (sackRight a x) ≤ x ∧
      (x : ℤ) < sackRight a x := by
  obtain ⟨hlt, hle, hafter, hright⟩ := sackRight_spec hsize h.window h.le_maxseen habove hx
  have hunseen : ∀ {i}, a.next_ ≤ i → i < sackRight a x → unseen a i = decide (i ∉ R) :=
    fun {i} h1 h2 => unseen_eq hsize h.window h1 (by omega)
  have hnext : unseen a a.next_ = true := by
    rw [hunseen le_rfl (by omega), decide_eq_true_eq]
    exact h.point.1
  obtain ⟨i, h1, h2, hfind, hpi, hbetween⟩ :=
    find?_range'_reverse (p := unseen a) (s := a.next_) (m := sackRight a x - a.next_)
      ⟨a.next_, le_rfl, by omega, hnext⟩
  rw [hunseen h1 (by omega), decide_eq_true_eq] at hpi
  have hmem : ∀ j, i < j → j < sackRight a x → j ∈ R := fun j h3 h4 => by
    have hb := hbetween j h3 (by omega)
    rw [hunseen (by omega) h4] at hb
    simpa using hb
  have hix : i < x := by
    by_contra hge
    exact hpi (hright i (by omega) (by omega))
  have hleft : sackLeft a (sackRight a x) = ((i + 1 : ℕ) : ℤ) := by
    unfold sackLeft
    rw [hfind]
    rfl
  rw [hleft]
  refine ⟨isRun_natCast (by omega) (fun j h3 h4 => hmem j (by omega) h4) (fun j hj => ?_) hafter,
    by omega, by omega, by omega⟩
  rwa [show j = i by omega]

/-- The edges for the packet expected: the run starts at packet `0`. -/
theorem isRun_inOrder (hsize : ∀ i, 0 < size i) (h : Acker.Exact size R a) (hx : x ∈ R)
    (hw : Window a.wndmask_ a.seen_ x (a.maxseen_ + 1) (Acker.entries size R)) (hbelow : x < a.next_) :
    IsRun (received R) 0 (sackRight a x) ∧ (x : ℤ) < sackRight a x ∧
      sackRight a x = a.next_ := by
  obtain ⟨hlt, hle, hafter, hright⟩ := sackRight_spec hsize hw h.le_maxseen le_rfl hx
  have hpoint : ∀ i < a.next_, i ∈ R := fun i hi => by
    by_contra hmiss
    exact absurd (h.point.2 hmiss) (by omega)
  have heq : sackRight a x = a.next_ := by
    refine le_antisymm ?_ (h.point.2 hafter)
    by_contra hgt
    exact h.point.1 (hright a.next_ (by omega) (by omega))
  refine ⟨?_, by omega, heq⟩
  have hrun := isRun_natCast (l := 0) (show 0 < sackRight a x by omega)
    (fun i _ hi => hpoint i (by omega)) (fun i hi => absurd hi (by omega)) hafter
  exact_mod_cast hrun

/-- For a packet below the window the search ends before the window. -/
theorem sackRight_le (hsize : ∀ i, 0 < size i) (h : Acker.Exact size R a) (hbelow : x < a.next_) :
    sackRight a x ≤ a.next_ := by
  have hnext := h.next_le
  unfold sackRight
  rcases find?_range' (p := unseen a) (s := x) (m := a.maxseen_ + 1 - x) with
    ⟨i, h1, h2, hfind, hpi, hfirst⟩ | ⟨hfind, hnone⟩
  · rw [hfind, Option.getD_some]
    by_contra hgt
    have hseen := hfirst a.next_ hbelow.le (by omega)
    rw [unseen_eq hsize h.window le_rfl hnext] at hseen
    exact h.point.1 (by simpa using hseen)
  · rw [hfind, Option.getD_none]
    by_contra hgt
    have hseen := hnone a.next_ hbelow.le (by omega)
    rw [unseen_eq hsize h.window le_rfl hnext] at hseen
    exact h.point.1 (by simpa using hseen)

end Sacker

end Ns2.Tcp
