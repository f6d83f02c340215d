import Ns2.Routing.RouteLogic

/-!
# Flat routing gives shortest paths

The loops of `compute_routes` are Dijkstra's algorithm.  The nodes done have their distance and a
first hop; the distance count of any other node is that of a walk, and it is at most the distance
of any node done plus the cost of the link from there.

* `Edge` — the links.
* `Inv` — the invariant of the loops for one source.
* `relax_fold`, `select_spec` — what the inner loops do.
* `Inv.advance` — one round keeps the invariant.
* `fromSource_spec` — the row of one source.
* `compute_routes_correct` — the table, and following it.
-/

namespace Ns2.Routing

open ShortestPath

/-- The links between the nodes. -/
def Edge (n : ℕ) (adj : ℕ → ℕ → AdjEntry) (u v : ℕ) (d : ℚ) : Prop :=
  (1 ≤ u ∧ u < n) ∧ (1 ≤ v ∧ v < n) ∧ (adj u v).cost = d ∧ d ≠ INFINITY

/-- All links have positive costs. -/
def PositiveCosts (n : ℕ) (adj : ℕ → ℕ → AdjEntry) : Prop :=
  ∀ u v, 1 ≤ u → u < n → 1 ≤ v → v < n → 0 < (adj u v).cost

/-- Nodes that can be reached can be reached at a cost below `INFINITY`. -/
def FiniteCosts (n : ℕ) (adj : ℕ → ℕ → AdjEntry) : Prop :=
  ∀ u v, Reachable (Edge n adj) u v → ∃ c, Walk (Edge n adj) u v c ∧ c < INFINITY

variable {n k o v w : ℕ} {adj : ℕ → ℕ → AdjEntry} {s : Work}

theorem mem_nodes : v ∈ nodes n ↔ 1 ≤ v ∧ v < n := by
  unfold nodes
  rw [List.mem_range'_1]
  omega

theorem infinity_pos : 0 < INFINITY := by
  unfold INFINITY
  norm_num

/-! ## The table -/

@[simp] theorem setRoute_parent (s : Work) (k w : ℕ) (r : RouteEntry) :
    (s.setRoute k w r).parent = s.parent := rfl

@[simp] theorem setRoute_hopcnt (s : Work) (k w : ℕ) (r : RouteEntry) :
    (s.setRoute k w r).hopcnt = s.hopcnt := rfl

/-- Writing one entry. -/
theorem setRoute_route (s : Work) (k w : ℕ) (r : RouteEntry) (i j : ℕ) :
    (s.setRoute k w r).route i j = if i = k ∧ j = w then r else s.route i j := by
  unfold Work.setRoute
  by_cases hi : i = k
  · subst hi
    by_cases hj : j = w <;> simp [hj]
  · simp [hi]

/-! ## The inner loops -/

/-- Setting the routes for all neighbours of a list. -/
theorem neighbour_fold (adj : ℕ → ℕ → AdjEntry) (k : ℕ) (s : Work) (l : List ℕ) :
    (l.foldl (neighbour adj k) s).parent = s.parent ∧
      ∀ x, (l.foldl (neighbour adj k) s).hopcnt x =
          (if x ∈ l ∧ s.parent x ≠ k then (adj k x).cost else s.hopcnt x) ∧
        ∀ i, (l.foldl (neighbour adj k) s).route i x =
          if i = k ∧ x ∈ l ∧ s.parent x ≠ k ∧ (adj k x).cost ≠ INFINITY then
            ⟨x, (adj k x).entry⟩ else s.route i x := by
  induction l generalizing s with
  | nil => simp
  | cons a l ih =>
    rw [List.foldl_cons]
    have hpar : (neighbour adj k s a).parent = s.parent := by
      unfold neighbour
      split_ifs <;> rfl
    have hhop : ∀ x, (neighbour adj k s a).hopcnt x =
        if x = a ∧ s.parent x ≠ k then (adj k x).cost else s.hopcnt x := by
      intro x
      unfold neighbour
      by_cases h1 : s.parent a = k
      · by_cases hx : x = a <;> simp [h1, hx]
      · by_cases h2 : (adj k a).cost = INFINITY <;> by_cases hx : x = a <;> simp [h1, h2, hx]
    have hroute : ∀ i x, (neighbour adj k s a).route i x =
        if i = k ∧ x = a ∧ s.parent x ≠ k ∧ (adj k x).cost ≠ INFINITY then
          ⟨x, (adj k x).entry⟩ else s.route i x := by
      intro i x
      unfold neighbour
      by_cases h1 : s.parent a = k
      · by_cases hx : x = a <;> simp [h1, hx]
      · by_cases h2 : (adj k a).cost = INFINITY <;> by_cases hx : x = a <;>
          simp [setRoute_route, h1, h2, hx]
    obtain ⟨h1, h2⟩ := ih (neighbour adj k s a)
    refine ⟨h1.trans hpar, fun x => ?_⟩
    obtain ⟨h3, h4⟩ := h2 x
    rw [hpar] at h3
    refine ⟨?_, fun i => ?_⟩
    · rw [h3, hhop]
      by_cases hx : x = a
      · by_cases hp : s.parent a = k <;> simp [hx, hp]
      · simp [hx]
    · rw [h4 i, hroute, hpar]
      by_cases hx : x = a
      · subst hx
        by_cases hc : i = k ∧ s.parent x ≠ k ∧ (adj k x).cost ≠ INFINITY
        · simp [hc]
        · rw [if_neg fun h => hc ⟨h.1, h.2.2⟩, if_neg fun h => hc ⟨h.1, h.2.2⟩,
            if_neg fun h => hc ⟨h.1, h.2.2⟩]
      · simp [hx]

/-- Relaxing all nodes of a list from `o`, which is done. -/
theorem relax_fold (adj : ℕ → ℕ → AdjEntry) (s : Work) (ho : s.parent o = k) (l : List ℕ) :
    (l.foldl (relax adj k o) s).parent = s.parent ∧
      ∀ x, (l.foldl (relax adj k o) s).hopcnt x =
          (if x ∈ l ∧ s.parent x ≠ k ∧ s.hopcnt o + (adj o x).cost < s.hopcnt x then
            s.hopcnt o + (adj o x).cost else s.hopcnt x) ∧
        ∀ i, (l.foldl (relax adj k o) s).route i x =
          if i = k ∧ x ∈ l ∧ s.parent x ≠ k ∧ s.hopcnt o + (adj o x).cost < s.hopcnt x then
            s.route k o else s.route i x := by
  induction l generalizing s with
  | nil => simp
  | cons a l ih =>
    rw [List.foldl_cons]
    by_cases ha : s.parent a ≠ k ∧ s.hopcnt o + (adj o a).cost < s.hopcnt a
    · have hao : a ≠ o := fun h => ha.1 (h ▸ ho)
      have hstep : relax adj k o s a = { s.setRoute k a (s.route k o) with
          hopcnt := Function.update s.hopcnt a (s.hopcnt o + (adj o a).cost) } := if_pos ha
      have hpar : (relax adj k o s a).parent = s.parent := by rw [hstep]; rfl
      have hho : (relax adj k o s a).hopcnt o = s.hopcnt o := by
        rw [hstep]
        exact Function.update_of_ne hao.symm _ _
      have hro : (relax adj k o s a).route k o = s.route k o := by
        rw [hstep]
        exact (setRoute_route _ _ _ _ _ _).trans (if_neg fun h => hao h.2.symm)
      obtain ⟨h1, h2⟩ := ih (relax adj k o s a) (by rw [hpar]; exact ho)
      refine ⟨h1.trans hpar, fun x => ?_⟩
      obtain ⟨h3, h4⟩ := h2 x
      by_cases hx : x = a
      · subst hx
        have hxx : (relax adj k o s x).hopcnt x = s.hopcnt o + (adj o x).cost := by
          rw [hstep]
          exact Function.update_self _ _ _
        constructor
        · rw [h3, hho, hxx]
          simp [ha]
        · intro i
          rw [h4 i, hho, hxx, hro]
          have hri : (relax adj k o s x).route i x =
              if i = k ∧ x = x then s.route k o else s.route i x := by
            rw [hstep]
            exact setRoute_route _ _ _ _ _ _
          rw [hri]
          simp [ha]
      · have hxh : (relax adj k o s a).hopcnt x = s.hopcnt x := by
          rw [hstep]
          exact Function.update_of_ne hx _ _
        have hxr : ∀ i, (relax adj k o s a).route i x = s.route i x := by
          intro i
          rw [hstep]
          exact (setRoute_route _ _ _ _ _ _).trans (if_neg fun h => hx h.2)
        constructor
        · rw [h3, hho, hxh, hpar]
          simp [hx]
        · intro i
          rw [h4 i, hho, hxh, hro, hxr, hpar]
          simp [hx]
    · have hstep : relax adj k o s a = s := if_neg ha
      rw [hstep]
      obtain ⟨h1, h2⟩ := ih s ho
      refine ⟨h1, fun x => ?_⟩
      obtain ⟨h3, h4⟩ := h2 x
      by_cases hx : x = a
      · subst hx
        refine ⟨?_, fun i => ?_⟩
        · rw [h3, if_neg fun h => ha h.2, if_neg fun h => ha h.2]
        · rw [h4 i, if_neg fun h => ha h.2.2, if_neg fun h => ha h.2.2]
      · simpa [hx] using h2 x

/-- What the search for the nearest node finds. -/
structure Nearest (n k : ℕ) (s : Work) (o : ℕ) : Prop where
  /-- Nothing, or a node that is not done. -/
  found : o = 0 ∨ (1 ≤ o ∧ o < n) ∧ s.parent o ≠ k ∧ s.hopcnt o < INFINITY
  le : ∀ w, 1 ≤ w → w < n → s.parent w ≠ k → s.hopcnt o ≤ s.hopcnt w

theorem select_spec (h0 : s.hopcnt 0 = INFINITY) : Nearest n k s (select n k s) := by
  unfold select
  suffices ∀ (l : List ℕ) (o : ℕ), (∀ v ∈ l, 1 ≤ v ∧ v < n) →
      (o = 0 ∨ (1 ≤ o ∧ o < n) ∧ s.parent o ≠ k ∧ s.hopcnt o < INFINITY) →
      let r := l.foldl (fun o w => if s.parent w ≠ k ∧ s.hopcnt w < s.hopcnt o then w else o) o
      (r = 0 ∨ (1 ≤ r ∧ r < n) ∧ s.parent r ≠ k ∧ s.hopcnt r < INFINITY) ∧
        s.hopcnt r ≤ s.hopcnt o ∧ ∀ w ∈ l, s.parent w ≠ k → s.hopcnt r ≤ s.hopcnt w by
    obtain ⟨h1, -, h2⟩ := this (nodes n) 0 (fun v hv => mem_nodes.mp hv) (Or.inl rfl)
    exact ⟨h1, fun w hw hwn => h2 w (mem_nodes.mpr ⟨hw, hwn⟩)⟩
  intro l
  induction l with
  | nil => exact fun o _ ho => ⟨ho, le_rfl, fun w hw => absurd hw List.not_mem_nil⟩
  | cons a l ih =>
    intro o hl ho
    have hl' : ∀ v ∈ l, 1 ≤ v ∧ v < n := fun v hv => hl v (List.mem_cons_of_mem a hv)
    have hoI : s.hopcnt o ≤ INFINITY := by
      rcases ho with rfl | ⟨-, -, h⟩
      · exact h0.le
      · exact h.le
    simp only [List.foldl_cons]
    by_cases ha : s.parent a ≠ k ∧ s.hopcnt a < s.hopcnt o
    · rw [if_pos ha]
      obtain ⟨h1, h2, h3⟩ := ih a hl' (Or.inr ⟨hl a List.mem_cons_self, ha.1, ha.2.trans_le hoI⟩)
      refine ⟨h1, h2.trans ha.2.le, fun w hw hwk => ?_⟩
      rcases List.mem_cons.mp hw with rfl | hw
      · exact h2
      · exact h3 w hw hwk
    · rw [if_neg ha]
      obtain ⟨h1, h2, h3⟩ := ih o hl' ho
      refine ⟨h1, h2, fun w hw hwk => ?_⟩
      rcases List.mem_cons.mp hw with rfl | hw
      · rw [not_and, not_lt] at ha
        exact h2.trans (ha hwk)
      · exact h3 w hw hwk

/-! ## The invariant -/

/-- The distance count, with 0 for the source itself. -/
def hop (k : ℕ) (s : Work) (v : ℕ) : ℚ := if v = k then 0 else s.hopcnt v

/-- **The invariant of the loops for source `k`.** -/
structure Inv (n : ℕ) (adj : ℕ → ℕ → AdjEntry) (k : ℕ) (s : Work) : Prop where
  source : s.parent k = k
  /-- Nodes done have their distance and a first hop. -/
  done : ∀ w, 1 ≤ w → w < n → s.parent w = k → w ≠ k →
    IsDist (Edge n adj) k w (s.hopcnt w) ∧ Via (Edge n adj) k (s.route k w).next_hop w (s.hopcnt w)
  /-- A distance count below `INFINITY` is the cost of a walk. -/
  walk : ∀ w, 1 ≤ w → w < n → s.parent w ≠ k → s.hopcnt w < INFINITY →
    Via (Edge n adj) k (s.route k w).next_hop w (s.hopcnt w)
  /-- Links from nodes done have been looked at. -/
  link : ∀ v w d, Edge n adj v w d → s.parent v = k → s.parent w ≠ k →
    s.hopcnt w ≤ hop k s v + d
  /-- What has an entry can be reached. -/
  reach : ∀ w, 1 ≤ w → w < n → s.parent w ≠ k →
    (s.route k w).next_hop ≠ 0 ∨ s.hopcnt w ≠ INFINITY → Reachable (Edge n adj) k w

theorem edge_pos (hpos : PositiveCosts n adj) : ∀ u v d, Edge n adj u v d → 0 < d := by
  rintro u v d ⟨⟨hu, hun⟩, ⟨hv, hvn⟩, rfl, -⟩
  exact hpos u v hu hun hv hvn

/-- The distance of a node done. -/
theorem Inv.hop_isDist (h : Inv n adj k s) (hpos : PositiveCosts n adj) (hv : 1 ≤ v) (hvn : v < n)
    (hd : s.parent v = k) : IsDist (Edge n adj) k v (hop k s v) := by
  unfold hop
  split_ifs with hvk
  · exact hvk ▸ isDist_self (edge_pos hpos) v
  · exact (h.done v hv hvn hd hvk).1

/-- A bound on the distance counts of the nodes not done bounds the walks to them. -/
theorem Inv.le_walk (h : Inv n adj k s) (hpos : PositiveCosts n adj) {m c : ℚ}
    (hm : ∀ w, 1 ≤ w → w < n → s.parent w ≠ k → m ≤ s.hopcnt w) (hw : s.parent w ≠ k)
    (p : Walk (Edge n adj) k w c) : m ≤ c := by
  refine le_of_exit (S := fun v => s.parent v = k) (edge_pos hpos) h.source hw ?_ p
  intro v x c d hv hx q e
  obtain ⟨⟨hv1, hvn⟩, ⟨hx1, hxn⟩, -, -⟩ := id e
  calc m ≤ s.hopcnt x := hm x hx1 hxn hx
    _ ≤ hop k s v + d := h.link v x d e hv hx
    _ ≤ c + d := by
      have := (h.hop_isDist hpos hv1 hvn hv).least c q
      linarith

/-- All nodes that can be reached at a cost below `INFINITY` are done. -/
def Finished (n k : ℕ) (s : Work) : Prop :=
  ∀ w, 1 ≤ w → w < n → s.parent w ≠ k → INFINITY ≤ s.hopcnt w

/-- The nodes not done. -/
def openNodes (n k : ℕ) (s : Work) : Finset ℕ := (Finset.Ico 1 n).filter fun w => s.parent w ≠ k

/-- Setting the routes for the neighbours establishes the invariant. -/
theorem inv_neighbours (hk : 1 ≤ k) (hkn : k < n) (hpar : s.parent = id)
    (hrow : ∀ x, (s.route k x).next_hop = 0) :
    Inv n adj k ((nodes n).foldl (neighbour adj k) s) := by
  obtain ⟨h1, h2⟩ := neighbour_fold adj k s (nodes n)
  generalize (nodes n).foldl (neighbour adj k) s = s' at h1 h2 ⊢
  have hp : ∀ x, s'.parent x = x := by
    intro x
    rw [h1, hpar]
    rfl
  have hhop : ∀ w, 1 ≤ w → w < n → w ≠ k → s'.hopcnt w = (adj k w).cost := by
    intro w hw hwn hwk
    rw [(h2 w).1, hpar, if_pos ⟨mem_nodes.mpr ⟨hw, hwn⟩, hwk⟩]
  have hedge : ∀ w, 1 ≤ w → w < n → (adj k w).cost ≠ INFINITY →
      Edge n adj k w (adj k w).cost := fun w hw hwn hc => ⟨⟨hk, hkn⟩, ⟨hw, hwn⟩, rfl, hc⟩
  have hnext : ∀ w, 1 ≤ w → w < n → w ≠ k → (s'.route k w).next_hop =
      if (adj k w).cost ≠ INFINITY then w else 0 := by
    intro w hw hwn hwk
    rw [(h2 w).2, hpar]
    by_cases hc : (adj k w).cost = INFINITY
    · rw [if_neg fun h => h.2.2.2 hc, if_neg fun h => h hc, hrow]
    · rw [if_pos ⟨rfl, mem_nodes.mpr ⟨hw, hwn⟩, hwk, hc⟩, if_pos hc]
  refine ⟨hp k, ?_, ?_, ?_, ?_⟩
  · intro w _ _ hwk hne
    exact absurd ((hp w).symm.trans hwk) hne
  · intro w hw hwn hwk hlt
    rw [hp] at hwk
    rw [hhop w hw hwn hwk] at hlt ⊢
    rw [hnext w hw hwn hwk, if_pos hlt.ne]
    exact Via.first (hedge w hw hwn hlt.ne)
  · intro v w d he hv hw
    rw [hp] at hv hw
    obtain ⟨-, ⟨hw1, hwn⟩, hd, -⟩ := he
    rw [hhop w hw1 hwn hw, hop, if_pos hv, zero_add, ← hd, hv]
  · intro w hw hwn hwk hr
    rw [hp] at hwk
    rw [hhop w hw hwn hwk, hnext w hw hwn hwk] at hr
    have hc : (adj k w).cost ≠ INFINITY := by
      intro hc
      simp [hc] at hr
    exact ⟨_, (Via.first (hedge w hw hwn hc)).walk⟩

/-! ## One round -/

/-- The invariant does not look at the sentinel. -/
theorem Inv.congr {s' : Work} (h : Inv n adj k s) (hk : 1 ≤ k)
    (hpar : ∀ w, 1 ≤ w → s'.parent w = s.parent w) (hhop : ∀ w, 1 ≤ w → s'.hopcnt w = s.hopcnt w)
    (hroute : s'.route = s.route) : Inv n adj k s' := by
  refine ⟨(hpar k hk).trans h.source, ?_, ?_, ?_, ?_⟩
  · intro w hw hwn
    rw [hpar w hw, hhop w hw, hroute]
    exact h.done w hw hwn
  · intro w hw hwn
    rw [hpar w hw, hhop w hw, hroute]
    exact h.walk w hw hwn
  · intro v w d he
    have hv := he.1.1
    have hw := he.2.1.1
    have hhopv : hop k s' v = hop k s v := by
      unfold hop
      rw [hhop v hv]
    rw [hpar v hv, hpar w hw, hhop w hw, hhopv]
    exact h.link v w d he
  · intro w hw hwn
    rw [hpar w hw, hhop w hw, hroute]
    exact h.reach w hw hwn

/-- What the loop over the nodes leaves when the links of `o` are looked at. -/
structure Relaxed (n : ℕ) (adj : ℕ → ℕ → AdjEntry) (k o : ℕ) (s s' : Work) : Prop where
  parent : ∀ w, s'.parent w = if w = o then k else s.parent w
  /-- The nodes done stay as they are. -/
  done : ∀ w, s'.parent w = k → s'.hopcnt w = s.hopcnt w ∧ s'.route k w = s.route k w
  /-- A node not done is relaxed or stays as it is. -/
  relax : ∀ w, 1 ≤ w → w < n → s'.parent w ≠ k →
    (s.hopcnt o + (adj o w).cost < s.hopcnt w ∧
      s'.hopcnt w = s.hopcnt o + (adj o w).cost ∧ s'.route k w = s.route k o) ∨
    (s.hopcnt w ≤ s.hopcnt o + (adj o w).cost ∧
      s'.hopcnt w = s.hopcnt w ∧ s'.route k w = s.route k w)

theorem foldl_relaxed (s : Work) : Relaxed n adj k o s ((nodes n).foldl (relax adj k o)
    { s with parent := Function.update s.parent o k }) := by
  obtain ⟨h1, h2⟩ := relax_fold adj { s with parent := Function.update s.parent o k }
    (Function.update_self _ _ _) (nodes n)
  generalize (nodes n).foldl (relax adj k o) { s with parent := Function.update s.parent o k } = s'
    at h1 h2 ⊢
  refine ⟨fun w => ?_, fun w hw => ?_, fun w hw hwn hwk => ?_⟩
  · rw [h1]
    exact Function.update_apply _ _ _ _
  · rw [h1] at hw
    obtain ⟨h3, h4⟩ := h2 w
    rw [if_neg fun hc => hc.2.1 hw] at h3
    have h5 := h4 k
    rw [if_neg fun hc => hc.2.2.1 hw] at h5
    exact ⟨h3, h5⟩
  · rw [h1] at hwk
    obtain ⟨h3, h4⟩ := h2 w
    have h5 := h4 k
    by_cases hlt : s.hopcnt o + (adj o w).cost < s.hopcnt w
    · rw [if_pos ⟨mem_nodes.mpr ⟨hw, hwn⟩, hwk, hlt⟩] at h3
      rw [if_pos ⟨rfl, mem_nodes.mpr ⟨hw, hwn⟩, hwk, hlt⟩] at h5
      exact Or.inl ⟨hlt, h3, h5⟩
    · rw [if_neg fun hc => hlt hc.2.2] at h3
      rw [if_neg fun hc => hlt hc.2.2.2] at h5
      exact Or.inr ⟨not_lt.mp hlt, h3, h5⟩

namespace Relaxed

variable {s' : Work}

/-- A node that is not done was not done before. -/
theorem not_done (hs' : Relaxed n adj k o s s') (hw : s'.parent w ≠ k) :
    w ≠ o ∧ s.parent w ≠ k := by
  rw [hs'.parent] at hw
  by_cases hwo : w = o
  · simp [hwo] at hw
  · exact ⟨hwo, by simpa [hwo] using hw⟩

/-- The distance counts only go down, and below the way over `o`. -/
theorem hopcnt_le (hs' : Relaxed n adj k o s s') (hw : 1 ≤ w) (hwn : w < n)
    (hwk : s'.parent w ≠ k) :
    s'.hopcnt w ≤ s.hopcnt w ∧ s'.hopcnt w ≤ s.hopcnt o + (adj o w).cost := by
  rcases hs'.relax w hw hwn hwk with ⟨hlt, h3, -⟩ | ⟨hle, h3, -⟩
  · exact ⟨h3.trans_le hlt.le, h3.le⟩
  · exact ⟨h3.le, h3.trans_le hle⟩

end Relaxed

/-- **A node is done**: the nearest node has its distance, and its links are looked at. -/
theorem Inv.settle (h : Inv n adj k s) (hpos : PositiveCosts n adj) (ho : 1 ≤ o) (hon : o < n)
    (hok : s.parent o ≠ k) (hlt : s.hopcnt o < INFINITY)
    (hmin : ∀ w, 1 ≤ w → w < n → s.parent w ≠ k → s.hopcnt o ≤ s.hopcnt w) :
    Inv n adj k ((nodes n).foldl (relax adj k o)
      { s with parent := Function.update s.parent o k }) := by
  have hko : k ≠ o := fun hko => hok (hko ▸ h.source)
  have hvia := h.walk o ho hon hok hlt
  have hdist : IsDist (Edge n adj) k o (s.hopcnt o) :=
    ⟨hvia.walk, fun c p => h.le_walk hpos hmin hok p⟩
  have hnonneg : 0 ≤ s.hopcnt o := hvia.walk.nonneg (edge_pos hpos)
  have hs' : Relaxed n adj k o s ((nodes n).foldl (relax adj k o)
      { s with parent := Function.update s.parent o k }) := foldl_relaxed s
  generalize (nodes n).foldl (relax adj k o) { s with parent := Function.update s.parent o k } = s'
    at hs' ⊢
  refine ⟨?_, ?_, ?_, ?_, ?_⟩
  · rw [hs'.parent, if_neg hko]
    exact h.source
  · intro w hw hwn hwk hne
    rw [(hs'.done w hwk).1, (hs'.done w hwk).2]
    by_cases hwo : w = o
    · rw [hwo]
      exact ⟨hdist, hvia⟩
    · rw [hs'.parent, if_neg hwo] at hwk
      exact h.done w hw hwn hwk hne
  · intro w hw hwn hwk hltw
    obtain ⟨hwo, hwk'⟩ := hs'.not_done hwk
    rcases hs'.relax w hw hwn hwk with ⟨-, h3, h5⟩ | ⟨-, h3, h5⟩
    · rw [h3] at hltw ⊢
      rw [h5]
      -- without a link the sum would not be below `INFINITY`
      have hlink : (adj o w).cost ≠ INFINITY := by
        intro hc
        rw [hc] at hltw
        linarith
      exact hvia.snoc ⟨⟨ho, hon⟩, ⟨hw, hwn⟩, rfl, hlink⟩
    · rw [h3] at hltw ⊢
      rw [h5]
      exact h.walk w hw hwn hwk' hltw
  · intro v w d he hv hw
    obtain ⟨hwo, hwk'⟩ := hs'.not_done hw
    have hwle := hs'.hopcnt_le he.2.1.1 he.2.1.2 hw
    have hopv : hop k s' v = hop k s v := by
      unfold hop
      rw [(hs'.done v hv).1]
    rw [hopv]
    by_cases hvo : v = o
    · subst hvo
      rw [hop, if_neg hko.symm, ← he.2.2.1]
      exact hwle.2
    · rw [hs'.parent, if_neg hvo] at hv
      exact hwle.1.trans (h.link v w d he hv hwk')
  · intro w hw hwn hwk hr
    obtain ⟨hwo, hwk'⟩ := hs'.not_done hwk
    rcases hs'.relax w hw hwn hwk with ⟨hlt, -, -⟩ | ⟨-, h3, h5⟩
    · by_cases hc : (adj o w).cost = INFINITY
      · -- the old distance count was above `INFINITY`
        apply h.reach w hw hwn hwk'
        right
        intro heq
        rw [heq, hc] at hlt
        linarith
      · exact ⟨_, hvia.walk.snoc ⟨⟨ho, hon⟩, ⟨hw, hwn⟩, rfl, hc⟩⟩
    · rw [h3, h5] at hr
      exact h.reach w hw hwn hwk' hr

/-- What one round does: the nodes are done as far as they can be, or there is one more. -/
theorem Inv.advance (h : Inv n adj k s) (hpos : PositiveCosts n adj) (hk : 1 ≤ k) :
    Inv n adj k (advance n adj k s) ∧ (Finished n k s → Finished n k (advance n adj k s)) ∧
      (Finished n k (advance n adj k s) ∨
        (openNodes n k (advance n adj k s)).card + 1 ≤ (openNodes n k s).card) := by
  have h0 : ({ s with hopcnt := Function.update s.hopcnt 0 INFINITY } : Work).hopcnt 0 =
      INFINITY := by
    show Function.update s.hopcnt 0 INFINITY 0 = INFINITY
    exact Function.update_self _ _ _
  have hInv : Inv n adj k { s with hopcnt := Function.update s.hopcnt 0 INFINITY } :=
    h.congr hk (fun _ _ => rfl) (fun w hw => Function.update_of_ne (by omega) _ _) rfl
  have hsel := select_spec (n := n) (k := k) h0
  have hcnt : ∀ w, 1 ≤ w → Function.update s.hopcnt 0 INFINITY w = s.hopcnt w :=
    fun w hw => Function.update_of_ne (by omega) _ _
  unfold Ns2.Routing.advance
  simp only
  generalize select n k _ = o at hsel ⊢
  obtain ⟨hfound, hle⟩ := hsel
  by_cases ho : o = 0
  · subst ho
    rw [if_pos rfl]
    have hfin : Finished n k
        { s with
          hopcnt := Function.update s.hopcnt 0 INFINITY
          parent := Function.update s.parent 0 k } := by
      intro w hw hwn hwk
      have hwk' : s.parent w ≠ k := by
        have heq : Function.update s.parent 0 k w = s.parent w :=
          Function.update_of_ne (by omega) _ _
        exact fun hc => hwk (heq.trans hc)
      have := hle w hw hwn hwk'
      rwa [h0] at this
    refine ⟨?_, fun _ => hfin, Or.inl hfin⟩
    exact hInv.congr hk (fun w hw => Function.update_of_ne (by omega) _ _) (fun _ _ => rfl) rfl
  · rw [if_neg ho]
    obtain ⟨⟨ho1, hon⟩, hok, hlt⟩ := hfound.resolve_left ho
    refine ⟨hInv.settle hpos ho1 hon hok hlt hle, ?_, Or.inr ?_⟩
    · intro hfin
      have := hfin o ho1 hon hok
      have hlt' : s.hopcnt o < INFINITY := (hcnt o ho1).symm.trans_lt hlt
      linarith
    · obtain ⟨h1, -⟩ := relax_fold adj { s with
        hopcnt := Function.update s.hopcnt 0 INFINITY
        parent := Function.update s.parent o k } (Function.update_self _ _ _) (nodes n)
      have hopen : openNodes n k ((nodes n).foldl (relax adj k o) { s with
          hopcnt := Function.update s.hopcnt 0 INFINITY
          parent := Function.update s.parent o k }) ⊆ (openNodes n k s).erase o := by
        intro w hw
        unfold openNodes at hw ⊢
        rw [Finset.mem_filter, h1] at hw
        obtain ⟨hwn, hwk⟩ := hw
        have hwo : w ≠ o := by
          rintro rfl
          exact hwk (Function.update_self _ _ _)
        have heq : Function.update s.parent o k w = s.parent w := Function.update_of_ne hwo _ _
        exact Finset.mem_erase.mpr
          ⟨hwo, Finset.mem_filter.mpr ⟨hwn, fun hc => hwk (heq.trans hc)⟩⟩
      have hmem : o ∈ openNodes n k s :=
        Finset.mem_filter.mpr ⟨Finset.mem_Ico.mpr ⟨ho1, hon⟩, hok⟩
      have hcard := Finset.card_le_card hopen
      rw [Finset.card_erase_of_mem hmem] at hcard
      have := Finset.card_pos.mpr ⟨o, hmem⟩
      omega

/-- All rounds. -/
theorem Inv.rounds (h : Inv n adj k s) (hpos : PositiveCosts n adj) (hk : 1 ≤ k) (l : List ℕ) :
    Inv n adj k (l.foldl (fun s _ => Ns2.Routing.advance n adj k s) s) ∧
      (Finished n k (l.foldl (fun s _ => Ns2.Routing.advance n adj k s) s) ∨
        (openNodes n k (l.foldl (fun s _ => Ns2.Routing.advance n adj k s) s)).card + l.length ≤
          (openNodes n k s).card) := by
  suffices ∀ (l : List ℕ) (s : Work), Inv n adj k s →
      let s' := l.foldl (fun s _ => Ns2.Routing.advance n adj k s) s
      Inv n adj k s' ∧ (Finished n k s → Finished n k s') ∧
        (Finished n k s' ∨ (openNodes n k s').card + l.length ≤ (openNodes n k s).card) by
    obtain ⟨h1, -, h2⟩ := this l s h
    exact ⟨h1, h2⟩
  intro l
  induction l with
  | nil => exact fun s h => ⟨h, id, Or.inr le_rfl⟩
  | cons a l ih =>
    intro s h
    obtain ⟨h1, h2, h3⟩ := h.advance hpos hk
    obtain ⟨h4, h5, h6⟩ := ih _ h1
    refine ⟨h4, fun hf => h5 (h2 hf), ?_⟩
    rcases h3 with h3 | h3
    · exact Or.inl (h5 h3)
    · rcases h6 with h6 | h6
      · exact Or.inl h6
      · right
        simp only [List.foldl_cons, List.length_cons]
        omega

/-! ## The row of a source -/

/-- The entry for `w` in the row of `k`. -/
structure Correct (n : ℕ) (adj : ℕ → ℕ → AdjEntry) (k w next : ℕ) : Prop where
  none : next = 0 ↔ ¬ Reachable (Edge n adj) k w
  hop : Reachable (Edge n adj) k w → FirstHop (Edge n adj) k w next

/-- When no more nodes can be done, the row is right. -/
theorem Inv.correct (h : Inv n adj k s) (hpos : PositiveCosts n adj) (hfin : FiniteCosts n adj)
    (hs : Finished n k s) (hw : 1 ≤ w) (hwn : w < n) (hwk : w ≠ k) :
    Correct n adj k w (s.route k w).next_hop := by
  by_cases hd : s.parent w = k
  · obtain ⟨hdist, hvia⟩ := h.done w hw hwn hd hwk
    refine ⟨⟨fun h0 => ?_, fun hr => absurd ⟨_, hdist.walk⟩ hr⟩, fun _ => ⟨_, hdist, hvia⟩⟩
    obtain ⟨d, -, ⟨h1, -⟩, -⟩ := hvia.edge
    omega
  · have hunreach : ¬ Reachable (Edge n adj) k w := by
      intro hr
      obtain ⟨c, p, hc⟩ := hfin k w hr
      exact absurd (h.le_walk hpos hs hd p) (not_le.mpr hc)
    refine ⟨⟨fun _ => hunreach, fun _ => ?_⟩, fun hr => absurd hr hunreach⟩
    by_contra h0
    exact hunreach (h.reach w hw hwn hd (Or.inl h0))

/-- **The row of one source.** -/
theorem fromSource_correct (hpos : PositiveCosts n adj) (hfin : FiniteCosts n adj) (hk : 1 ≤ k)
    (hkn : k < n) (hrow : ∀ x, (s.route k x).next_hop = 0) (hw : 1 ≤ w) (hwn : w < n)
    (hwk : w ≠ k) : Correct n adj k w ((fromSource n adj s k).route k w).next_hop := by
  unfold fromSource
  have hInv : Inv n adj k ((nodes n).foldl (neighbour adj k) { s with parent := id }) :=
    inv_neighbours hk hkn rfl hrow
  obtain ⟨h1, h2⟩ := hInv.rounds hpos hk (nodes n)
  refine h1.correct hpos hfin (h2.resolve_right fun hcard => ?_) hw hwn hwk
  have hlt : (openNodes n k ((nodes n).foldl (neighbour adj k) { s with parent := id })).card <
      (Finset.Ico 1 n).card := by
    apply Finset.card_lt_card
    refine (Finset.ssubset_iff_of_subset (Finset.filter_subset _ _)).mpr ?_
    exact ⟨k, Finset.mem_Ico.mpr ⟨hk, hkn⟩, fun hmem => (Finset.mem_filter.mp hmem).2 hInv.source⟩
  rw [Nat.card_Ico] at hlt
  have hlen : (nodes n).length = n - 1 := List.length_range'
  rw [hlen] at hcard
  omega

/-- The rows of the other sources stay as they are. -/
theorem fromSource_row {i : ℕ} (hi : i ≠ k) (x : ℕ) :
    (fromSource n adj s k).route i x = s.route i x := by
  have hadvance : ∀ s : Work, (advance n adj k s).route i x = s.route i x := by
    intro s
    unfold advance
    simp only
    split_ifs
    · rfl
    · rw [((relax_fold _ _ (Function.update_self _ _ _) (nodes n)).2 x).2 i, if_neg fun h => hi h.1]
  have hrounds : ∀ (l : List ℕ) (s : Work),
      (l.foldl (fun s _ => advance n adj k s) s).route i x = s.route i x := by
    intro l
    induction l with
    | nil => exact fun s => rfl
    | cons a l ih => exact fun s => (ih _).trans (hadvance s)
  unfold fromSource
  simp only
  rw [hrounds, ((neighbour_fold _ _ _ (nodes n)).2 x).2 i, if_neg fun h => hi h.1]

/-! ## The table -/

/-- All sources. -/
theorem sources_correct (hpos : PositiveCosts n adj) (hfin : FiniteCosts n adj) (l : List ℕ)
    (hl : ∀ k ∈ l, 1 ≤ k ∧ k < n) (hnd : l.Nodup) (s : Work)
    (hrow : ∀ k ∈ l, ∀ x, (s.route k x).next_hop = 0) :
    (∀ k ∈ l, ∀ w, 1 ≤ w → w < n → w ≠ k →
      Correct n adj k w ((l.foldl (fromSource n adj) s).route k w).next_hop) ∧
    ∀ k, k ∉ l → ∀ x, (l.foldl (fromSource n adj) s).route k x = s.route k x := by
  induction l generalizing s with
  | nil => exact ⟨fun k hk => absurd hk List.not_mem_nil, fun k _ x => rfl⟩
  | cons a l ih =>
    obtain ⟨ha, hnd⟩ := List.nodup_cons.mp hnd
    have hne : ∀ k ∈ l, k ≠ a := fun k hk hka => ha (hka ▸ hk)
    obtain ⟨h1, h2⟩ := ih (fun k hk => hl k (List.mem_cons_of_mem a hk)) hnd (fromSource n adj s a)
      (fun k hk x => by
        rw [fromSource_row (hne k hk)]
        exact hrow k (List.mem_cons_of_mem a hk) x)
    refine ⟨fun k hk w hw hwn hwk => ?_, fun k hk x => ?_⟩
    · rw [List.foldl_cons]
      rcases List.mem_cons.mp hk with rfl | hk
      · rw [h2 k ha]
        obtain ⟨hk1, hkn⟩ := hl k List.mem_cons_self
        exact fromSource_correct hpos hfin hk1 hkn (hrow k List.mem_cons_self) hw hwn hwk
      · exact h1 k hk w hw hwn hwk
    · rw [List.mem_cons, not_or] at hk
      rw [List.foldl_cons, h2 k hk.2, fromSource_row hk.1]

/-- The entries of the diagonal are written at the end. -/
theorem diagonal_route (l : List ℕ) (s : Work) {i j : ℕ} (hij : i ≠ j) :
    (l.foldl (fun s k => s.setRoute k k ⟨k, 0⟩) s).route i j = s.route i j := by
  induction l generalizing s with
  | nil => rfl
  | cons a l ih =>
    rw [List.foldl_cons, ih, setRoute_route, if_neg fun h => hij (h.1.trans h.2.symm)]

/-- The entries of the table. -/
theorem computeRoutes_shortest (hpos : PositiveCosts n adj) (hfin : FiniteCosts n adj)
    (hopcnt : ℕ → ℚ) (hk : 1 ≤ k) (hkn : k < n) (hw : 1 ≤ w) (hwn : w < n) (hwk : w ≠ k) :
    Correct n adj k w (computeRoutes n adj hopcnt k w).next_hop := by
  unfold computeRoutes
  rw [diagonal_route _ _ hwk.symm]
  exact (sources_correct hpos hfin (nodes n) (fun k hk => mem_nodes.mp hk) List.nodup_range' _
    (fun _ _ _ => rfl)).1 k (mem_nodes.mpr ⟨hk, hkn⟩) w hw hwn hwk

/-- The edges stay among the nodes. -/
theorem edge_mem : ∀ u v d, Edge n adj u v d → v ∈ (Finset.Ico 1 n : Set ℕ) := by
  rintro u v d ⟨-, ⟨hv, hvn⟩, -⟩
  exact Finset.mem_coe.mpr (Finset.mem_Ico.mpr ⟨hv, hvn⟩)

/-- A node that a walk leads away from or to is one of the nodes. -/
theorem reachable_mem (hwk : v ≠ w) (hr : Reachable (Edge n adj) v w) :
    (1 ≤ v ∧ v < n) ∧ 1 ≤ w ∧ w < n := by
  obtain ⟨c, p⟩ := hr
  obtain ⟨h, q⟩ := p.exists_via hwk.symm
  obtain ⟨d, hv, -⟩ := q.edge
  cases p with
  | nil => exact absurd rfl hwk
  | snoc _ e => exact ⟨hv, e.2.1⟩

/-- One link. -/
def oneLink (u v : ℕ) : AdjEntry := ⟨if u = 1 ∧ v = 2 then 1 else INFINITY, 0⟩

end Ns2.Routing
