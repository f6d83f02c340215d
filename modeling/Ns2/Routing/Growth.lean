import Ns2.Routing.FlatRoutes

/-!
# Growing the matrix

The matrix grows whenever a node number does not fit, and is copied.  The costs survive.  The
pointers do not: `check` copies `cost` and leaves `entry` null.

* `Op`, `Matrix.exec`, `run` — the calls, from an empty matrix.
* `wanted` — the table the calls describe.
* `tableSize` — the size the matrix has, from the node numbers alone.
* `EntriesKept` — the matrix has not grown since the pointers in it were inserted.
* `cost_run`, `entry_run` — what the matrix holds after any calls.
* `RowEntries`, `computeRoutes_entry` — the pointer of a route is that of its first link.
* `growth_keeps_iff` — the matrix is what the calls describe exactly when `EntriesKept`.
-/

namespace Ns2.Routing

/-- A call that changes the matrix. -/
inductive Op where
  /-- `insert(src, dst, cost)`. -/
  | insert (src dst : ℕ) (cost : ℚ)
  /-- `insert(src, dst, cost, entry)`. -/
  | insertEntry (src dst : ℕ) (cost : ℚ) (entry : ℕ)
  /-- `reset(src, dst)`. -/
  | reset (src dst : ℕ)

/-- The matrix after a call; `none` when an `assert` fails. -/
def Matrix.exec (a : Matrix) : Op → Option Matrix
  | .insert src dst cost => some (a.insert src dst cost)
  | .insertEntry src dst cost entry => some (a.insertEntry src dst cost entry)
  | .reset src dst => a.reset src dst

/-- The matrix after the calls. -/
def run (ops : List Op) : Option Matrix :=
  ops.foldl (fun a o => a.bind (Matrix.exec · o)) (some (alloc 0))

/-- What the matrix holds for a pair: no link when a node is out of range. -/
def Matrix.lookup (a : Matrix) (i j : ℕ) : AdjEntry :=
  if i < a.size_ ∧ j < a.size_ then a.adj_ i j else ⟨INFINITY, 0⟩

/-! ## What the calls describe -/

/-- A call on a table without a size. -/
def describe (T : ℕ → ℕ → AdjEntry) : Op → ℕ → ℕ → AdjEntry
  | .insert src dst cost, i, j => if i = src ∧ j = dst then ⟨cost, (T i j).entry⟩ else T i j
  | .insertEntry src dst cost entry, i, j => if i = src ∧ j = dst then ⟨cost, entry⟩ else T i j
  | .reset src dst, i, j => if i = src ∧ j = dst then ⟨INFINITY, (T i j).entry⟩ else T i j

/-- The table the calls describe: for each pair the cost and the entry of the last insertion. -/
def wanted (ops : List Op) : ℕ → ℕ → AdjEntry := ops.foldl describe fun _ _ => ⟨INFINITY, 0⟩

/-- The size after `check(n)`. -/
def grown (size n : ℕ) : ℕ :=
  if n < size then size else double n (n + 1) (if size = 0 then 16 else size)

/-- The size after a call. -/
def sizeAfter (size : ℕ) : Op → ℕ
  | .insert src dst _ => grown (grown size src) dst
  | .insertEntry src dst _ _ => grown (grown size src) dst
  | .reset _ _ => size

/-- The size after the calls. -/
def tableSize (ops : List Op) : ℕ := ops.foldl sizeAfter 0

/-- `q` inserts no entry for a pair. -/
def NoEntry (i j : ℕ) (q : List Op) : Prop := ∀ c e, Op.insertEntry i j c e ∉ q

/-- The matrix has the size that it had when the last entry of a pair was inserted, unless that
entry is null. -/
def EntryKept (i j : ℕ) (ops : List Op) : Prop :=
  ∀ p q c e, ops = p ++ .insertEntry i j c e :: q → NoEntry i j q → e ≠ 0 →
    tableSize ops = tableSize (p ++ [.insertEntry i j c e])

/-- That holds for every pair. -/
def EntriesKept (ops : List Op) : Prop := ∀ i j, EntryKept i j ops

variable {a a' : Matrix} {o : Op} {ops p q : List Op} {i j n size : ℕ}

theorem run_append_singleton (ops : List Op) (o : Op) :
    run (ops ++ [o]) = (run ops).bind (Matrix.exec · o) := by
  rw [run, List.foldl_append]
  rfl

theorem wanted_append_singleton (ops : List Op) (o : Op) :
    wanted (ops ++ [o]) = describe (wanted ops) o := by
  rw [wanted, List.foldl_append]
  rfl

theorem tableSize_append_singleton (ops : List Op) (o : Op) :
    tableSize (ops ++ [o]) = sizeAfter (tableSize ops) o := by
  rw [tableSize, List.foldl_append]
  rfl

/-! ## Sizes -/

theorem size_check (a : Matrix) (n : ℕ) : (a.check n).size_ = grown a.size_ n := by
  unfold Matrix.check grown
  by_cases h : n < a.size_
  · rw [if_pos h, if_pos h]
  · rw [if_neg h, if_neg h]
    rfl

theorem le_grown (size n : ℕ) : size ≤ grown size n := by
  unfold grown
  split_ifs with h h'
  · exact le_rfl
  · omega
  · exact le_double n (n + 1) size

theorem lt_grown (size n : ℕ) : n < grown size n := by
  unfold grown
  split_ifs with h h'
  · exact h
  · exact lt_double n (n + 1) 16 (by omega) (by omega)
  · exact lt_double n (n + 1) size (by omega) (by omega)

theorem grown_eq_iff : grown size n = size ↔ n < size := by
  constructor
  · intro h
    exact h ▸ lt_grown size n
  · exact fun h => if_pos h

theorem le_sizeAfter (size : ℕ) (o : Op) : size ≤ sizeAfter size o := by
  cases o with
  | insert src dst cost => exact (le_grown size src).trans (le_grown _ dst)
  | insertEntry src dst cost entry => exact (le_grown size src).trans (le_grown _ dst)
  | reset src dst => exact le_rfl

/-- The matrix does not shrink. -/
theorem tableSize_le_append (p q : List Op) : tableSize p ≤ tableSize (p ++ q) := by
  induction q using List.reverseRecOn with
  | nil => rw [List.append_nil]
  | append_singleton q o ih =>
    rw [← List.append_assoc, tableSize_append_singleton]
    exact ih.trans (le_sizeAfter _ o)

theorem size_exec (h : a.exec o = some a') : a'.size_ = sizeAfter a.size_ o := by
  cases o with
  | insert src dst cost =>
    obtain rfl := Option.some.inj h
    exact (size_check _ dst).trans (by rw [size_check]; rfl)
  | insertEntry src dst cost entry =>
    obtain rfl := Option.some.inj h
    exact (size_check _ dst).trans (by rw [size_check]; rfl)
  | reset src dst =>
    rw [Matrix.exec, Matrix.reset] at h
    split_ifs at h
    obtain rfl := Option.some.inj h
    rfl

theorem size_run (h : run ops = some a) : a.size_ = tableSize ops := by
  induction ops using List.reverseRecOn generalizing a with
  | nil =>
    obtain rfl := Option.some.inj h
    rfl
  | append_singleton ops o ih =>
    rw [run_append_singleton] at h
    obtain ⟨b, hb, ho⟩ := Option.bind_eq_some_iff.mp h
    rw [size_exec ho, ih hb, tableSize_append_singleton]

/-! ## What a call writes -/

/-- The costs are copied when the matrix grows. -/
theorem cost_lookup_check (a : Matrix) (n i j : ℕ) :
    ((a.check n).lookup i j).cost = (a.lookup i j).cost := by
  by_cases h : i < a.size_ ∧ j < a.size_
  · have hle := size_le_check a n
    rw [Matrix.lookup, Matrix.lookup, if_pos h, if_pos ⟨by omega, by omega⟩]
    exact cost_check a n h.1 h.2
  · unfold Matrix.check
    by_cases hn : n < a.size_
    · rw [if_pos hn]
    · rw [if_neg hn, Matrix.lookup, Matrix.lookup, if_neg h]
      simp only [if_neg h]
      split_ifs
      · rfl
      · rfl

/-- The pointers are not. -/
theorem entry_lookup_check (a : Matrix) (n i j : ℕ) :
    ((a.check n).lookup i j).entry = if n < a.size_ then (a.lookup i j).entry else 0 := by
  unfold Matrix.check
  by_cases hn : n < a.size_
  · rw [if_pos hn, if_pos hn]
  · rw [if_neg hn, if_neg hn, Matrix.lookup]
    simp only
    split_ifs
    · rfl
    · rfl
    · rfl

/-- Room for both nodes. -/
theorem lt_size_checks (a : Matrix) (src dst : ℕ) :
    src < ((a.check src).check dst).size_ ∧ dst < ((a.check src).check dst).size_ :=
  ⟨(lt_size_check a src).trans_le (size_le_check _ dst), lt_size_check _ dst⟩

/-- After both checks the pointers are there if the matrix has not grown. -/
theorem entry_lookup_checks (a : Matrix) (src dst i j : ℕ) :
    (((a.check src).check dst).lookup i j).entry =
      if grown (grown a.size_ src) dst = a.size_ then (a.lookup i j).entry else 0 := by
  rw [entry_lookup_check, entry_lookup_check, size_check]
  have h1 := le_grown a.size_ src
  have h2 := le_grown (grown a.size_ src) dst
  by_cases hs : src < a.size_
  · rw [if_pos hs, grown_eq_iff.mpr hs]
    simp only [grown_eq_iff]
  · have hlt : a.size_ ≠ grown a.size_ src := fun h => hs (grown_eq_iff.mp h.symm)
    rw [if_neg hs, ite_self, if_neg (by omega)]

theorem lookup_set {src dst : ℕ} (h : src < a.size_ ∧ dst < a.size_) (e : AdjEntry) (i j : ℕ) :
    (a.set src dst e).lookup i j = if i = src ∧ j = dst then e else a.lookup i j := by
  by_cases hij : i = src ∧ j = dst
  · obtain ⟨rfl, rfl⟩ := hij
    simp [Matrix.lookup, Matrix.set, h]
  · simp [Matrix.lookup, Matrix.set, hij]

/-- Writing the cost of an entry. -/
theorem lookup_setCost {src dst : ℕ} (h : src < a.size_ ∧ dst < a.size_) (cost : ℚ) (i j : ℕ) :
    (a.set src dst { a.adj_ src dst with cost := cost }).lookup i j =
      if i = src ∧ j = dst then ⟨cost, (a.lookup i j).entry⟩ else a.lookup i j := by
  rw [lookup_set h]
  refine ite_congr rfl (fun hij => ?_) fun _ => rfl
  obtain ⟨rfl, rfl⟩ := hij
  rw [Matrix.lookup, if_pos h]

/-- A call writes the cost it is told to. -/
theorem cost_exec {T : ℕ → ℕ → AdjEntry} (h : a.exec o = some a')
    (ha : ∀ i j, (a.lookup i j).cost = (T i j).cost) (i j : ℕ) :
    (a'.lookup i j).cost = (describe T o i j).cost := by
  cases o with
  | insert src dst cost =>
    obtain rfl := Option.some.inj h
    rw [Matrix.insert, lookup_setCost (lt_size_checks a src dst), describe]
    split_ifs
    · rfl
    · rw [cost_lookup_check, cost_lookup_check, ha]
  | insertEntry src dst cost entry =>
    obtain rfl := Option.some.inj h
    rw [Matrix.insertEntry, lookup_set (lt_size_checks a src dst), describe]
    split_ifs
    · rfl
    · rw [cost_lookup_check, cost_lookup_check, ha]
  | reset src dst =>
    rw [Matrix.exec, Matrix.reset] at h
    split_ifs at h with hr
    obtain rfl := Option.some.inj h
    rw [lookup_setCost hr, describe]
    split_ifs
    · rfl
    · exact ha i j

/-- **The costs are those the calls describe.** -/
theorem cost_run (h : run ops = some a) (i j : ℕ) :
    (a.lookup i j).cost = (wanted ops i j).cost := by
  induction ops using List.reverseRecOn generalizing a i j with
  | nil =>
    obtain rfl := Option.some.inj h
    rfl
  | append_singleton ops o ih =>
    rw [run_append_singleton] at h
    obtain ⟨b, hb, ho⟩ := Option.bind_eq_some_iff.mp h
    rw [wanted_append_singleton]
    exact cost_exec ho (ih hb) i j

/-- The pointer of a pair after a call that does not insert one: it is lost if the matrix
grows. -/
theorem entry_exec (h : a.exec o = some a') (hne : ∀ c e, o ≠ .insertEntry i j c e) :
    (a'.lookup i j).entry = if sizeAfter a.size_ o = a.size_ then (a.lookup i j).entry else 0 := by
  cases o with
  | insert src dst cost =>
    obtain rfl := Option.some.inj h
    rw [Matrix.insert, lookup_setCost (lt_size_checks a src dst), sizeAfter,
      ← entry_lookup_checks a src dst]
    split_ifs
    · rfl
    · rfl
  | insertEntry src dst cost entry =>
    obtain rfl := Option.some.inj h
    have hij : ¬ (i = src ∧ j = dst) := by
      rintro ⟨rfl, rfl⟩
      exact hne cost entry rfl
    rw [Matrix.insertEntry, lookup_set (lt_size_checks a src dst), if_neg hij, sizeAfter,
      ← entry_lookup_checks a src dst]
  | reset src dst =>
    rw [Matrix.exec, Matrix.reset] at h
    split_ifs at h with hr
    obtain rfl := Option.some.inj h
    rw [lookup_setCost hr, sizeAfter, if_pos rfl]
    split_ifs
    · rfl
    · rfl

/-- A call that does not insert a pointer describes no other one. -/
theorem entry_describe (T : ℕ → ℕ → AdjEntry) (hne : ∀ c e, o ≠ .insertEntry i j c e) :
    (describe T o i j).entry = (T i j).entry := by
  cases o with
  | insert src dst cost =>
    rw [describe]
    split_ifs
    · rfl
    · rfl
  | insertEntry src dst cost entry =>
    have hij : ¬ (i = src ∧ j = dst) := by
      rintro ⟨rfl, rfl⟩
      exact hne cost entry rfl
    rw [describe, if_neg hij]
  | reset src dst =>
    rw [describe]
    split_ifs
    · rfl
    · rfl

/-! ## The pointers -/

theorem NoEntry.append_singleton_iff :
    NoEntry i j (q ++ [o]) ↔ NoEntry i j q ∧ ∀ c e, o ≠ .insertEntry i j c e := by
  constructor
  · intro h
    constructor
    · exact fun c e hmem => h c e (List.mem_append_left _ hmem)
    · rintro c e rfl
      exact h c e (List.mem_append_right _ (List.mem_singleton_self _))
  · rintro ⟨h1, h2⟩ c e hmem
    rcases List.mem_append.mp hmem with hq | ho
    · exact h1 c e hq
    · exact h2 c e (List.mem_singleton.mp ho).symm

/-- The last pointer inserted for a pair, if there is one. -/
theorem exists_lastEntry (i j : ℕ) (ops : List Op) :
    NoEntry i j ops ∨ ∃ p q c e, ops = p ++ .insertEntry i j c e :: q ∧ NoEntry i j q := by
  induction ops using List.reverseRecOn with
  | nil => exact Or.inl fun c e hmem => absurd hmem List.not_mem_nil
  | append_singleton ops o ih =>
    by_cases ho : ∃ c e, o = .insertEntry i j c e
    · obtain ⟨c, e, rfl⟩ := ho
      exact Or.inr ⟨ops, [], c, e, rfl, fun c e hmem => absurd hmem List.not_mem_nil⟩
    · have hne : ∀ c e, o ≠ .insertEntry i j c e := fun c e heq => ho ⟨c, e, heq⟩
      rcases ih with ih | ⟨p, q, c, e, rfl, hq⟩
      · exact Or.inl (NoEntry.append_singleton_iff.mpr ⟨ih, hne⟩)
      · refine Or.inr ⟨p, q ++ [o], c, e, ?_, NoEntry.append_singleton_iff.mpr ⟨hq, hne⟩⟩
        rw [List.append_assoc, List.cons_append]

/-- A pair for which no pointer has been inserted. -/
theorem entry_run_none (h : run ops = some a) (hno : NoEntry i j ops) :
    (wanted ops i j).entry = 0 ∧ (a.lookup i j).entry = 0 := by
  induction ops using List.reverseRecOn generalizing a with
  | nil =>
    obtain rfl := Option.some.inj h
    exact ⟨rfl, rfl⟩
  | append_singleton ops o ih =>
    obtain ⟨hops, ho⟩ := NoEntry.append_singleton_iff.mp hno
    rw [run_append_singleton] at h
    obtain ⟨b, hb, hexec⟩ := Option.bind_eq_some_iff.mp h
    obtain ⟨h1, h2⟩ := ih hb hops
    rw [wanted_append_singleton, entry_describe _ ho, entry_exec hexec ho, h1, h2, ite_self]
    exact ⟨rfl, rfl⟩

/-- **The pointer of a pair** is there as long as the matrix does not grow. -/
theorem entry_run {c : ℚ} {e : ℕ} (h : run (p ++ .insertEntry i j c e :: q) = some a)
    (hq : NoEntry i j q) :
    (wanted (p ++ .insertEntry i j c e :: q) i j).entry = e ∧ (a.lookup i j).entry =
      if tableSize (p ++ .insertEntry i j c e :: q) = tableSize (p ++ [.insertEntry i j c e]) then e
      else 0 := by
  induction q using List.reverseRecOn generalizing a with
  | nil =>
    rw [run_append_singleton] at h
    obtain ⟨b, hb, hexec⟩ := Option.bind_eq_some_iff.mp h
    obtain rfl := Option.some.inj hexec
    rw [wanted_append_singleton, describe, if_pos ⟨rfl, rfl⟩, if_pos rfl, Matrix.insertEntry,
      lookup_set (lt_size_checks b i j), if_pos ⟨rfl, rfl⟩]
    exact ⟨rfl, rfl⟩
  | append_singleton q o ih =>
    obtain ⟨hq, ho⟩ := NoEntry.append_singleton_iff.mp hq
    rw [← List.cons_append, ← List.append_assoc] at h ⊢
    rw [run_append_singleton] at h
    obtain ⟨b, hb, hexec⟩ := Option.bind_eq_some_iff.mp h
    obtain ⟨h1, h2⟩ := ih hb hq
    rw [wanted_append_singleton, entry_describe _ ho, entry_exec hexec ho, h1, h2, size_run hb,
      tableSize_append_singleton _ o]
    refine ⟨rfl, ?_⟩
    have hle : tableSize (p ++ [Op.insertEntry i j c e]) ≤
        tableSize (p ++ Op.insertEntry i j c e :: q) := by
      have := tableSize_le_append (p ++ [Op.insertEntry i j c e]) q
      rwa [List.append_assoc, List.singleton_append] at this
    have hle' := le_sizeAfter (tableSize (p ++ Op.insertEntry i j c e :: q)) o
    generalize tableSize (p ++ [Op.insertEntry i j c e]) = first at hle ⊢
    generalize tableSize (p ++ Op.insertEntry i j c e :: q) = before at hle hle' ⊢
    generalize sizeAfter before o = after at hle' ⊢
    by_cases hafter : after = before
    · rw [hafter, if_pos rfl]
    · have hne : after ≠ first := by omega
      rw [if_neg hafter, if_neg hne]

/-- A pointer is as described exactly when the matrix has not grown since. -/
theorem entry_eq_iff (h : run ops = some a) :
    (a.lookup i j).entry = (wanted ops i j).entry ↔ EntryKept i j ops := by
  constructor
  · rintro heq p q c e rfl hq he
    obtain ⟨h1, h2⟩ := entry_run h hq
    rw [h1, h2] at heq
    by_contra hsize
    rw [if_neg hsize] at heq
    exact he heq.symm
  · intro hkept
    rcases exists_lastEntry i j ops with hno | ⟨p, q, c, e, rfl, hq⟩
    · obtain ⟨h1, h2⟩ := entry_run_none h hno
      rw [h1, h2]
    · obtain ⟨h1, h2⟩ := entry_run h hq
      rw [h1, h2]
      by_cases he : e = 0
      · rw [he, ite_self]
      · exact if_pos (hkept p q c e rfl hq he)

/-! ## The pointers of the routes -/

/-- The entries in the row of source `k` have first links, and the pointers of these. -/
def RowEntries (n : ℕ) (adj : ℕ → ℕ → AdjEntry) (k : ℕ) (s : Work) : Prop :=
  ∀ w, (s.route k w).next_hop ≠ 0 →
    (s.route k w).next_hop ∈ nodes n ∧ (adj k (s.route k w).next_hop).cost ≠ INFINITY ∧
      (s.route k w).entry = (adj k (s.route k w).next_hop).entry

variable {adj : ℕ → ℕ → AdjEntry} {k w : ℕ} {s : Work}

/-- The neighbours are their own first hops. -/
theorem RowEntries.neighbours (h : RowEntries n adj k s) :
    RowEntries n adj k ((nodes n).foldl (neighbour adj k) s) := by
  intro w
  rw [((neighbour_fold adj k s (nodes n)).2 w).2 k]
  split_ifs with hw
  · exact fun _ => ⟨hw.2.1, hw.2.2.2, rfl⟩
  · exact h w

/-- A better route is copied with its pointer. -/
theorem RowEntries.advance (h : RowEntries n adj k s) :
    RowEntries n adj k (Ns2.Routing.advance n adj k s) := by
  intro w
  rw [Ns2.Routing.advance]
  simp only
  split_ifs
  · exact h w
  · rw [((relax_fold _ _ (Function.update_self _ _ _) (nodes n)).2 w).2 k]
    split_ifs
    · exact h _
    · exact h w

theorem RowEntries.fromSource (h : RowEntries n adj k s) :
    RowEntries n adj k (Ns2.Routing.fromSource n adj s k) := by
  have hstart : RowEntries n adj k { s with parent := id } := h
  exact List.foldlRecOn (motive := RowEntries n adj k) (nodes n)
    (fun s _ => Ns2.Routing.advance n adj k s) hstart.neighbours fun s hs _ _ => hs.advance

/-- All sources. -/
theorem RowEntries.sources (l : List ℕ) (h : RowEntries n adj k s) :
    RowEntries n adj k (l.foldl (Ns2.Routing.fromSource n adj) s) := by
  refine List.foldlRecOn (motive := RowEntries n adj k) l _ h fun s hs i _ => ?_
  by_cases hik : k = i
  · subst hik
    exact hs.fromSource
  · intro w
    rw [fromSource_row hik]
    exact hs w

/-- **A route has the pointer of its first link.** -/
theorem computeRoutes_entry (n : ℕ) (adj : ℕ → ℕ → AdjEntry) (hopcnt : ℕ → ℚ) (hkw : k ≠ w)
    (hnext : (computeRoutes n adj hopcnt k w).next_hop ≠ 0) :
    (computeRoutes n adj hopcnt k w).next_hop ∈ nodes n ∧
      (adj k (computeRoutes n adj hopcnt k w).next_hop).cost ≠ INFINITY ∧
      (computeRoutes n adj hopcnt k w).entry =
        (adj k (computeRoutes n adj hopcnt k w).next_hop).entry := by
  have hempty : RowEntries n adj k ⟨id, hopcnt, fun _ _ => ⟨0, 0⟩⟩ := fun w h => absurd rfl h
  have hall := hempty.sources (nodes n) w
  unfold computeRoutes at hnext ⊢
  simp only [diagonal_route _ _ hkw] at hnext ⊢
  exact hall hnext

/-! ## The matrix and the calls -/

/-- The matrix is the table `T`, and every route computed from it has the pointer of its first link
in `T`; where all costs are positive, the nodes that can be reached have such a route. -/
structure Represents (a : Matrix) (T : ℕ → ℕ → AdjEntry) : Prop where
  table : ∀ i j, a.lookup i j = T i j
  routes : ∀ hopcnt k w, 1 ≤ k ∧ k < a.size_ → 1 ≤ w ∧ w < a.size_ → k ≠ w →
    ((computeRoutes a.size_ a.adj_ hopcnt k w).next_hop ≠ 0 →
      (T k (computeRoutes a.size_ a.adj_ hopcnt k w).next_hop).cost ≠ INFINITY ∧
      (computeRoutes a.size_ a.adj_ hopcnt k w).entry =
        (T k (computeRoutes a.size_ a.adj_ hopcnt k w).next_hop).entry) ∧
    (PositiveCosts a.size_ a.adj_ → FiniteCosts a.size_ a.adj_ →
      ShortestPath.Reachable (Edge a.size_ a.adj_) k w →
      ShortestPath.FirstHop (Edge a.size_ a.adj_) k w
        (computeRoutes a.size_ a.adj_ hopcnt k w).next_hop)

theorem adjEntry_ext {x y : AdjEntry} (hcost : x.cost = y.cost) (hentry : x.entry = y.entry) :
    x = y := by
  cases x
  cases y
  simp only at hcost hentry
  rw [hcost, hentry]

/-- A matrix that is the table gives the routes with the pointers of the table. -/
theorem Represents.of_table {T : ℕ → ℕ → AdjEntry} (h : ∀ i j, a.lookup i j = T i j) :
    Represents a T := by
  refine ⟨h, fun hopcnt k w hk hw hkw => ⟨fun hnext => ?_, fun hpos hfin hr => ?_⟩⟩
  · obtain ⟨hmem, hcost, hentry⟩ := computeRoutes_entry _ _ _ hkw hnext
    rw [← h, Matrix.lookup, if_pos ⟨hk.2, (mem_nodes.mp hmem).2⟩]
    exact ⟨hcost, hentry⟩
  · exact (computeRoutes_shortest hpos hfin hopcnt hk.1 hk.2 hw.1 hw.2 hkw.symm).hop hr

/-- **Growing loses the pointers, and only these.**  After any insertions and resets, the matrix is
the table they describe exactly when it has not grown since the last pointer that is not null was
inserted for each pair. -/
theorem growth_keeps_iff (ops : List Op) (a : Matrix) (h : run ops = some a) :
    Represents a (wanted ops) ↔ EntriesKept ops := by
  constructor
  · exact fun hrep i j => (entry_eq_iff h).mp (congrArg AdjEntry.entry (hrep.table i j))
  · intro hkept
    refine Represents.of_table fun i j => ?_
    exact adjEntry_ext (cost_run h i j) ((entry_eq_iff h).mpr (hkept i j))

/-- A link with a pointer, and one to a node that does not fit. -/
def growingCalls : List Op := [.insertEntry 1 2 1 7, .insertEntry 1 16 1 8]

/-- Two links with pointers between nodes that fit. -/
def fittingCalls : List Op := [.insertEntry 1 2 1 7, .insert 1 2 3, .insertEntry 2 1 1 8, .reset 1 2]

theorem growth_keeps_iff_fitting :
    ∃ a, run fittingCalls = some a ∧ (Represents a (wanted fittingCalls) ↔ EntriesKept fittingCalls) :=
  ⟨_, rfl, growth_keeps_iff fittingCalls _ rfl⟩

/-- The pointer of the first link is lost. -/
theorem growth_loses_entry :
    ∃ a, run growingCalls = some a ∧ ¬ Represents a (wanted growingCalls) := by
  refine ⟨_, rfl, fun h => ?_⟩
  have hentry := congrArg AdjEntry.entry (h.table 1 2)
  exact absurd hentry (by decide)

end Ns2.Routing
