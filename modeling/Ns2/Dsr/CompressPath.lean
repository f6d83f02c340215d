import Ns2.Dsr.RouteCache
import Ns2.Lib.LoopErase

/-!
# Cutting the loops out of a source route

`compressPath` of `dsr/path.cc`, which `replyFromRouteCache` of `dsr/dsragent.cc` calls on the route
of a request that is completed from the cache.

* `Cells` — the array of a path while its length shrinks.
* `copyDown`, `scanBack`, `compress` — the three loops.  `fuel` bounds the rounds of each; without
  enough of it, or with an index outside of the array, there is no result.
* `compress_erases` — the outer loop erases the loops of what is in front of it.
-/

namespace Ns2.Dsr

/-! ## The loops -/

/-- The array of a path, and how much of it is in use. -/
structure Cells where
  path : List ID
  len : ℕ
  length_le : path.length ≤ MAX_SR_LEN

namespace Cells

/-- `path.path[dst] = x` -/
def set (s : Cells) (dst : ℕ) (x : ID) : Cells :=
  { s with
    path := s.path.set dst x
    length_le := by
      rw [List.length_set]
      exact s.length_le }

/-- The nodes in use. -/
def used (s : Cells) : List ID := s.path.take s.len

end Cells

/-- The nodes from `src` on are copied to `dst` and after; then the path ends there. -/
def copyDown : ℕ → Cells → ℕ → ℕ → Option Cells
  | 0, _, _, _ => none
  | fuel + 1, s, src, dst =>
      if src < s.len then do
        let x ← s.path[src]?
        copyDown fuel (s.set dst x) (src + 1) (dst + 1)
      else some { s with len := dst }

/-- `bp` walks back to `fp`, until a node is the one at `fp`. -/
def scanBack (rounds : ℕ) : ℕ → Cells → ℕ → ℕ → Option Cells
  | 0, _, _, _ => none
  | fuel + 1, s, fp, bp =>
      if bp = fp then some s
      else do
        let x ← s.path[fp]?
        let y ← s.path[bp]?
        if x.key = y.key then copyDown rounds s bp fp
        else scanBack rounds fuel s fp (bp - 1)

/-- `fp` walks forward to the end. -/
def compress (rounds : ℕ) : ℕ → Cells → ℕ → Option Cells
  | 0, _, _ => none
  | fuel + 1, s, fp =>
      if fp < s.len then do
        let s ← scanBack rounds rounds s fp (s.len - 1)
        compress rounds fuel s (fp + 1)
      else some s

/-- `compressPath(path)` -/
def compressPath (fuel : ℕ) (p : Path) : Option Path := do
  let s ← compress fuel fuel ⟨p.path, p.path.length, p.length_le⟩ 0
  some
    { p with
      path := s.used
      length_le := (List.length_take_le' _ _).trans s.length_le }

/-! ## What the array holds -/

/-- The nodes in use are `l`. -/
structure Cells.Holds (s : Cells) (l : List ID) : Prop where
  len_eq : s.len = l.length
  isPrefix : l <+: s.path

namespace Cells.Holds

variable {s : Cells} {l : List ID}

theorem used (h : s.Holds l) : s.used = l := by
  rw [Cells.used, h.len_eq]
  exact (List.prefix_iff_eq_take.1 h.isPrefix).symm

theorem getElem? (h : s.Holds l) {i : ℕ} (hi : i < l.length) : s.path[i]? = l[i]? := by
  obtain ⟨Z, hZ⟩ := h.isPrefix
  rw [← hZ, List.getElem?_append_left hi]

theorem set (h : s.Holds l) {i : ℕ} (hi : i < l.length) (x : ID) :
    (s.set i x).Holds (l.set i x) := by
  obtain ⟨Z, hZ⟩ := h.isPrefix
  refine ⟨by rw [List.length_set]; exact h.len_eq, Z, ?_⟩
  change l.set i x ++ Z = s.path.set i x
  rw [← hZ, List.set_append_left _ _ hi]

end Cells.Holds

/-! ## One loop is cut out -/

/-- The nodes after the gap move down to its start. -/
theorem copyDown_holds (S : List ID) : ∀ {fuel : ℕ} {s : Cells} {D G : List ID},
    s.Holds (D ++ G ++ S) → G ≠ [] → S.length < fuel →
    ∃ t, copyDown fuel s (D ++ G).length D.length = some t ∧ t.Holds (D ++ S) := by
  induction S with
  | nil =>
      intro fuel s D G hs _ hfuel
      obtain ⟨fuel, rfl⟩ := Nat.exists_eq_add_one_of_ne_zero (Nat.ne_of_gt hfuel)
      have hlen : ¬ (D ++ G).length < s.len := by
        rw [hs.len_eq, List.append_nil]
        exact lt_irrefl _
      refine ⟨{ s with len := D.length }, if_neg hlen, by rw [List.append_nil], ?_⟩
      rw [List.append_nil]
      exact (List.prefix_append D (G ++ [])).trans (by simpa using hs.isPrefix)
  | cons x S ih =>
      intro fuel s D G hs hG hfuel
      obtain ⟨fuel, rfl⟩ := Nat.exists_eq_add_one_of_ne_zero (Nat.ne_of_gt (Nat.zero_lt_of_lt hfuel))
      obtain ⟨g, G, rfl⟩ := List.exists_cons_of_ne_nil hG
      have hlt : (D ++ g :: G).length < s.len := by
        rw [hs.len_eq]
        simp
      have hx : s.path[(D ++ g :: G).length]? = some x := by
        rw [hs.getElem? (by simp), List.getElem?_append_right le_rfl]
        simp
      -- the node at the start of the gap is gone, and the gap is one further
      have hset : (D ++ g :: G ++ x :: S).set D.length x = D ++ [x] ++ (G ++ [x]) ++ S := by simp
      have hs' := hs.set (i := D.length) (by simp) x
      rw [hset] at hs'
      have hfuel' : S.length < fuel := by simpa using hfuel
      obtain ⟨t, ht, hholds⟩ := ih hs' (by simp) hfuel'
      refine ⟨t, ?_, by simpa using hholds⟩
      rw [copyDown, if_pos hlt, hx]
      simpa [Nat.add_assoc] using ht

/-- The scan leaves a node whose key does not come back in place of the one at `fp`. -/
theorem scanBack_holds {rounds : ℕ} {A : List ID} {x : ID} (M : List ID) :
    ∀ {fuel : ℕ} {s : Cells} {N : List ID}, s.Holds (A ++ x :: (M ++ N)) →
      x.key ∉ N.map ID.key → M.length < fuel → (M ++ N).length < rounds →
      ∃ t B y ys, scanBack rounds fuel s A.length (A.length + M.length) = some t ∧
        x :: (M ++ N) = B ++ y :: ys ∧ (∀ z ∈ B.head?, ID.key z = ID.key y) ∧
        y.key ∉ ys.map ID.key ∧ t.Holds (A ++ y :: ys) := by
  induction M using List.reverseRecOn with
  | nil =>
      intro fuel s N hs hN hfuel _
      obtain ⟨fuel, rfl⟩ := Nat.exists_eq_add_one_of_ne_zero (Nat.ne_of_gt hfuel)
      exact ⟨s, [], x, N, if_pos rfl, rfl, by simp, hN, hs⟩
  | append_singleton M y ih =>
      intro fuel s N hs hN hfuel hrounds
      obtain ⟨fuel, rfl⟩ := Nat.exists_eq_add_one_of_ne_zero (Nat.ne_of_gt (Nat.zero_lt_of_lt hfuel))
      have hlen : A.length + (M ++ [y]).length = (A ++ x :: M).length := by simp
      have hne : (A ++ x :: M).length ≠ A.length := by simp
      have hsplit : A ++ x :: (M ++ [y] ++ N) = A ++ x :: M ++ y :: N := by simp
      have hx : s.path[A.length]? = some x := by
        rw [hs.getElem? (by simp), List.getElem?_append_right le_rfl]
        simp
      have hy : s.path[(A ++ x :: M).length]? = some y := by
        rw [hs.getElem? (by simp), hsplit, List.getElem?_append_right le_rfl]
        simp
      rw [hlen, scanBack, if_neg hne, hx, hy]
      by_cases hkey : x.key = y.key
      · -- the last node with the key: what is after it moves down
        have hs' : s.Holds (A ++ x :: M ++ y :: N) := by rwa [← hsplit]
        have hrounds' : (y :: N).length < rounds := by
          simp only [List.length_append, List.length_cons, List.length_nil] at hrounds ⊢
          omega
        obtain ⟨t, ht, hholds⟩ := copyDown_holds (y :: N) hs' (by simp) hrounds'
        exact ⟨t, x :: M, y, N, by simpa [hkey] using ht, by simp, by simp [hkey], hkey ▸ hN, hholds⟩
      · have hs' : s.Holds (A ++ x :: (M ++ y :: N)) := by simpa using hs
        have hpred : (A ++ x :: M).length - 1 = A.length + M.length := by simp
        have hfuel' : M.length < fuel := by simpa using hfuel
        obtain ⟨t, B, z, ys, ht, hB, hhead, hz, hholds⟩ := ih hs' (by simpa [hkey] using hN) hfuel'
          (by simpa using hrounds)
        exact ⟨t, B, z, ys, by simpa [hkey, hpred] using ht, by simpa using hB, hhead, hz, hholds⟩

/-! ## All loops are cut out -/

/-- The outer loop erases the loops of what is in front of it, and leaves what is behind it. -/
theorem compress_erases {rounds fuel : ℕ} : ∀ {s : Cells} {A R : List ID}, s.Holds (A ++ R) →
    R.length < fuel → R.length ≤ rounds →
    ∃ t r, compress rounds fuel s A.length = some t ∧ LoopErase.Erases ID.key R r ∧
      t.Holds (A ++ r) := by
  induction fuel with
  | zero => exact fun _ hfuel _ => absurd hfuel (Nat.not_lt_zero _)
  | succ fuel ih =>
      intro s A R hs hfuel hrounds
      cases R with
      | nil =>
          have hlen : ¬ A.length < s.len := by
            rw [hs.len_eq, List.append_nil]
            exact lt_irrefl _
          exact ⟨s, [], if_neg hlen, .nil, hs⟩
      | cons x R =>
          have hlen : s.len = A.length + R.length + 1 := by
            rw [hs.len_eq, List.length_append, List.length_cons]
            omega
          have hscanned : s.Holds (A ++ x :: (R ++ [])) := by simpa using hs
          obtain ⟨s', B, y, ys, hscan, hB, hhead, hy, hs'⟩ :=
            scanBack_holds R hscanned List.not_mem_nil hrounds (by simpa using hrounds)
          have hys : ys.length ≤ R.length := by
            have := congrArg List.length hB
            simp only [List.length_cons, List.length_append, List.length_nil] at this
            omega
          have hstep : s'.Holds (A ++ [y] ++ ys) := by simpa using hs'
          obtain ⟨t, r, ht, hr, hholds⟩ := ih hstep
            (by rw [List.length_cons] at hfuel; omega) (by rw [List.length_cons] at hrounds; omega)
          refine ⟨t, y :: r, ?_, ?_, by simpa using hholds⟩
          · rw [compress, if_pos (by omega), hlen, Nat.add_sub_cancel, hscan]
            simpa using ht
          · rw [← List.append_nil R, hB]
            exact .cons hhead hy hr

/-- With a round more than there are nodes, `compressPath` erases the loops of the path. -/
theorem compressPath_erases (p : Path) {fuel : ℕ} (hfuel : p.path.length < fuel) :
    ∃ q, compressPath fuel p = some q ∧ LoopErase.Erases ID.key p.path q.path ∧
      q.cur_index = p.cur_index := by
  have hs : Cells.Holds ⟨p.path, p.path.length, p.length_le⟩ ([] ++ p.path) :=
    ⟨rfl, List.prefix_rfl⟩
  obtain ⟨t, r, ht, hr, hholds⟩ := compress_erases hs hfuel hfuel.le
  refine ⟨⟨t.used, p.cur_index, (List.length_take_le' _ _).trans t.length_le⟩, ?_, ?_, rfl⟩
  · rw [compressPath, ← List.length_nil (α := ID), ht]
    rfl
  · change LoopErase.Erases ID.key p.path t.used
    rw [hholds.used]
    exact hr

/-- **`compressPath` removes exactly the loops.**  For every path it returns; no id is left twice,
the first and the last id are the same, the nodes left are nodes of the path in their order, two ids
in a row were in a row in the path, and a path without loops does not change. -/
theorem compressPath_removes_loops (p : Path) :
    ∃ q, (∀ fuel, p.path.length < fuel → compressPath fuel p = some q) ∧ q.keys.Nodup ∧
      q.keys.head? = p.keys.head? ∧ q.keys.getLast? = p.keys.getLast? ∧
      q.path.Sublist p.path ∧ (∀ a b, [a, b] <:+: q.keys → [a, b] <:+: p.keys) ∧
      (p.keys.Nodup → q = p) := by
  obtain ⟨q, hq, herases, hindex⟩ := compressPath_erases p (Nat.lt_succ_self _)
  have hext {r : Path} (hpath : q.path = r.path) (hcur : r.cur_index = p.cur_index) : q = r := by
    cases q
    cases r
    simp_all
  refine ⟨q, ?_, herases.nodup, herases.head?, ?_, herases.sublist, fun a b => herases.isInfix,
    fun hp => hext (herases.eq_of_nodup hp) rfl⟩
  · -- more fuel does not change the result, since there is one way to erase the loops
    intro fuel hfuel
    obtain ⟨r, hr, herases', hindex'⟩ := compressPath_erases p hfuel
    rw [hr, hext (herases.unique herases') hindex']
  · rw [Path.keys, Path.keys, List.getLast?_map, List.getLast?_map, herases.getLast?]

/-- `A B C B D` becomes `A B D`. -/
example : (compressPath 6 ⟨[1, 2, 3, 2, 4].map (ID.new · .ip), 0, by decide⟩).map Path.keys =
    some [(.ip, 1), (.ip, 2), (.ip, 4)] := by decide

end Ns2.Dsr
