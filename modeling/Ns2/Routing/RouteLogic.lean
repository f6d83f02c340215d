import Ns2.Lib.ShortestPath

/-!
# Route computation

The matrix of link costs and the loops that compute the next hops from it, for one source after
another.  Nodes are numbered from 1; index 0 is a sentinel.

* `Matrix`, `alloc`, `check`, `insert`, `reset` — the matrix, which grows with the node numbers.
* `neighbours`, `select`, `relax`, `advance`, `fromSource`, `computeRoutes` — the loops of
  `compute_routes`, and of its copy for the hierarchy.
* `fromSource_row` — one source writes one row of the table.

Costs are `double`s in the code; here they are added without rounding.
-/

namespace Ns2.Routing

/-- `INFINITY`: no link. -/
def INFINITY : ℚ := 0x3fff

/-- An entry of the matrix; `entry` is a pointer that goes with the link. -/
structure AdjEntry where
  cost : ℚ
  entry : ℕ

/-- An entry of the table.  Next hop 0 means that there is none. -/
structure RouteEntry where
  next_hop : ℕ
  entry : ℕ

/-- `adj_` and `size_`. -/
structure Matrix where
  size_ : ℕ
  adj_ : ℕ → ℕ → AdjEntry

/-! ## The matrix -/

/-- `alloc`. -/
def alloc (n : ℕ) : Matrix := ⟨n, fun _ _ => ⟨INFINITY, 0⟩⟩

/-- `while (m <= n) m <<= 1`, at most `fuel` times. -/
def double (n : ℕ) : ℕ → ℕ → ℕ
  | 0, m => m
  | fuel + 1, m => if m ≤ n then double n fuel (2 * m) else m

/-- The size that doubling starts from. -/
def Matrix.start (a : Matrix) : ℕ := if a.size_ = 0 then 16 else a.size_

/-- `check`: make room for node `n`.  The costs are copied, the pointers are not. -/
def Matrix.check (a : Matrix) (n : ℕ) : Matrix :=
  if n < a.size_ then a
  else
    let m := double n (n + 1) a.start
    { alloc m with
      adj_ := fun i j =>
        if i < a.size_ ∧ j < a.size_ then ⟨(a.adj_ i j).cost, 0⟩ else (alloc m).adj_ i j }

/-- Write one entry. -/
def Matrix.set (a : Matrix) (src dst : ℕ) (e : AdjEntry) : Matrix :=
  { a with adj_ := fun i j => if i = src ∧ j = dst then e else a.adj_ i j }

/-- `insert` without a pointer. -/
def Matrix.insert (a : Matrix) (src dst : ℕ) (cost : ℚ) : Matrix :=
  let a := (a.check src).check dst
  a.set src dst { a.adj_ src dst with cost := cost }

/-- `insert` with a pointer. -/
def Matrix.insertEntry (a : Matrix) (src dst : ℕ) (cost : ℚ) (entry : ℕ) : Matrix :=
  ((a.check src).check dst).set src dst ⟨cost, entry⟩

/-- `reset`: `none` when a node is out of range. -/
def Matrix.reset (a : Matrix) (src dst : ℕ) : Option Matrix :=
  if src < a.size_ ∧ dst < a.size_ then
    some (a.set src dst { a.adj_ src dst with cost := INFINITY })
  else none

/-! ## The loops -/

/-- What the loops work on: `parent` is the source for the nodes that are done. -/
structure Work where
  parent : ℕ → ℕ
  hopcnt : ℕ → ℚ
  route : ℕ → ℕ → RouteEntry

/-- The node numbers. -/
def nodes (n : ℕ) : List ℕ := List.range' 1 (n - 1)

/-- Write one entry of the table. -/
def Work.setRoute (s : Work) (k w : ℕ) (r : RouteEntry) : Work :=
  { s with route := Function.update s.route k (Function.update (s.route k) w r) }

/-- Set the route for one neighbour. -/
def neighbour (adj : ℕ → ℕ → AdjEntry) (k : ℕ) (s : Work) (v : ℕ) : Work :=
  if s.parent v ≠ k then
    let s := { s with hopcnt := Function.update s.hopcnt v (adj k v).cost }
    if (adj k v).cost ≠ INFINITY then s.setRoute k v ⟨v, (adj k v).entry⟩ else s
  else s

/-- The node that is nearest to the subtree that has been routed; 0 if there is none. -/
def select (n k : ℕ) (s : Work) : ℕ :=
  (nodes n).foldl (fun o w => if s.parent w ≠ k ∧ s.hopcnt w < s.hopcnt o then w else o) 0

/-- Update the distance count of one node adjacent to `o`. -/
def relax (adj : ℕ → ℕ → AdjEntry) (k o : ℕ) (s : Work) (w : ℕ) : Work :=
  if s.parent w ≠ k ∧ s.hopcnt o + (adj o w).cost < s.hopcnt w then
    { s.setRoute k w (s.route k o) with
      hopcnt := Function.update s.hopcnt w (s.hopcnt o + (adj o w).cost) }
  else s

/-- One round of the main loop. -/
def advance (n : ℕ) (adj : ℕ → ℕ → AdjEntry) (k : ℕ) (s : Work) : Work :=
  let s := { s with hopcnt := Function.update s.hopcnt 0 INFINITY }
  let o := select n k s
  let s := { s with parent := Function.update s.parent o k }
  if o = 0 then s else (nodes n).foldl (relax adj k o) s

/-- The loops for one source.  `hopcnt` is left as the source before has left it. -/
def fromSource (n : ℕ) (adj : ℕ → ℕ → AdjEntry) (s : Work) (k : ℕ) : Work :=
  let s := { s with parent := id }
  let s := (nodes n).foldl (neighbour adj k) s
  (nodes n).foldl (fun s _ => advance n adj k s) s

/-- `compute_routes`: the table.  `hopcnt` is what the memory holds at the start. -/
def computeRoutes (n : ℕ) (adj : ℕ → ℕ → AdjEntry) (hopcnt : ℕ → ℚ) : ℕ → ℕ → RouteEntry :=
  let s := (nodes n).foldl (fromSource n adj) ⟨id, hopcnt, fun _ _ => ⟨0, 0⟩⟩
  let s := (nodes n).foldl (fun s k => s.setRoute k k ⟨k, 0⟩) s
  s.route

/-! ## Growing -/

theorem lt_double (n : ℕ) : ∀ fuel m, 0 < m → n < m + fuel → n < double n fuel m := by
  intro fuel
  induction fuel with
  | zero =>
    exact fun m _ h => h
  | succ fuel ih =>
    intro m hm h
    rw [double]
    split_ifs with hle
    · apply ih
      · omega
      · omega
    · omega

theorem Matrix.start_pos (a : Matrix) : 0 < a.start := by
  unfold Matrix.start
  split_ifs with h
  · omega
  · omega

theorem Matrix.size_le_start (a : Matrix) : a.size_ ≤ a.start := by
  unfold Matrix.start
  split_ifs with h
  · omega
  · exact le_rfl

/-- `check` makes room. -/
theorem lt_size_check (a : Matrix) (n : ℕ) : n < (a.check n).size_ := by
  unfold Matrix.check
  by_cases h : n < a.size_
  · rwa [if_pos h]
  · rw [if_neg h]
    have := a.start_pos
    exact lt_double n (n + 1) a.start this (by omega)

theorem le_double (n : ℕ) : ∀ fuel m, m ≤ double n fuel m := by
  intro fuel
  induction fuel with
  | zero => exact fun m => le_rfl
  | succ fuel ih =>
    intro m
    rw [double]
    split_ifs
    · exact le_trans (by omega) (ih (2 * m))
    · exact le_rfl

theorem size_le_check (a : Matrix) (n : ℕ) : a.size_ ≤ (a.check n).size_ := by
  unfold Matrix.check
  by_cases h : n < a.size_
  · rw [if_pos h]
  · rw [if_neg h]
    exact a.size_le_start.trans (le_double n (n + 1) a.start)

/-- `check` keeps the costs. -/
theorem cost_check (a : Matrix) (n : ℕ) {i j : ℕ} (hi : i < a.size_) (hj : j < a.size_) :
    ((a.check n).adj_ i j).cost = (a.adj_ i j).cost := by
  unfold Matrix.check
  by_cases h : n < a.size_
  · rw [if_pos h]
  · rw [if_neg h]
    simp only [hi, hj, and_self, if_true]

/-- **What `insert` does**: one cost is written, the others stay. -/
theorem cost_insert (a : Matrix) (src dst : ℕ) (cost : ℚ) {i j : ℕ} (hi : i < a.size_)
    (hj : j < a.size_) :
    ((a.insert src dst cost).adj_ i j).cost =
      if i = src ∧ j = dst then cost else (a.adj_ i j).cost := by
  unfold Matrix.insert Matrix.set
  simp only
  split_ifs with h
  · rfl
  · rw [cost_check _ _ (hi.trans_le (size_le_check a src)) (hj.trans_le (size_le_check a src)),
      cost_check _ _ hi hj]

end Ns2.Routing
