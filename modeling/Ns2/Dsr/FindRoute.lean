import Ns2.Dsr.CachePaths

/-!
# The route that is found

* `Cache.hits` — the paths of a cache that have a node.
* `Cache.eachRoute_eq` — the loop goes over all of them.
* `Best.Of` — the best path among those that were looked at.
* `Shortest` — a shortest part of a path, from its start, that ends in a node.
* `MobiCache.findRoute_spec` — **`findRoute` finds a shortest route, if a path has the node.**
-/

namespace Ns2.Dsr

variable {k : Cache} {dest : ID} {x : Hit} {index : ℕ}

/-! ## The loop over the paths -/

namespace Cache

/-- The paths with the node, from `index` on. -/
def hitsFrom (k : Cache) (dest : ID) (index : ℕ) : List Hit :=
  ((List.range k.cache.length).drop index).filterMap (k.hit dest)

/-- The paths with the node. -/
def hits (k : Cache) (dest : ID) : List Hit := k.hitsFrom dest 0

theorem hit_eq_some : k.hit dest index = some x ↔ x.index = index ∧
    k.cache[index]? = some x.path ∧
    (x.path.path.findIdx? fun y => y.key = dest.key) = some x.i := by
  unfold hit
  constructor
  · intro h
    obtain ⟨c, hc, h⟩ := Option.bind_eq_some_iff.mp h
    obtain ⟨n, hn, rfl⟩ := Option.map_eq_some_iff.mp h
    exact ⟨rfl, hc, hn⟩
  · rintro ⟨rfl, hc, hn⟩
    rw [hc, Option.bind_some, hn, Option.map_some]

theorem mem_hits : x ∈ k.hits dest ↔ k.cache[x.index]? = some x.path ∧
    (x.path.path.findIdx? fun y => y.key = dest.key) = some x.i := by
  rw [hits, hitsFrom, List.drop_zero, List.mem_filterMap]
  constructor
  · rintro ⟨index, -, h⟩
    obtain ⟨rfl, h⟩ := hit_eq_some.mp h
    exact h
  · intro h
    obtain ⟨hlt, -⟩ := List.getElem?_eq_some_iff.mp h.1
    exact ⟨x.index, List.mem_range.mpr hlt, hit_eq_some.mpr ⟨rfl, h⟩⟩

/-- `searchRoute` returns the first path with the node. -/
theorem searchRoute_eq : k.searchRoute dest index = (k.hitsFrom dest index).head? := by
  rw [hitsFrom, List.head?_filterMap, searchRoute]

theorem hitsFrom_of_le (h : k.cache.length ≤ index) : k.hitsFrom dest index = [] := by
  rw [hitsFrom, List.drop_eq_nil_of_le (by rwa [List.length_range]), List.filterMap_nil]

/-- The path at `index` comes first, if it has the node. -/
theorem hitsFrom_eq (h : index < k.cache.length) :
    k.hitsFrom dest index = (k.hit dest index).toList ++ k.hitsFrom dest (index + 1) := by
  have hdrop : (List.range k.cache.length).drop index =
      index :: (List.range k.cache.length).drop (index + 1) := by
    rw [List.drop_eq_getElem_cons (by rwa [List.length_range]), List.getElem_range]
  rw [hitsFrom, hdrop, List.filterMap_cons, hitsFrom]
  cases k.hit dest index <;> rfl

/-- After a path that was found, the loop goes on with the next one. -/
theorem hitsFrom_eq_cons {l : List Hit} (h : k.hitsFrom dest index = x :: l) :
    index ≤ x.index ∧ k.hitsFrom dest (x.index + 1) = l := by
  induction hd : k.cache.length - index generalizing index with
  | zero =>
    rw [hitsFrom_of_le (by omega)] at h
    cases h
  | succ d ih =>
    rw [hitsFrom_eq (by omega)] at h
    cases hhit : k.hit dest index with
    | none =>
      rw [hhit] at h
      obtain ⟨hle, hrest⟩ := ih h (by omega)
      exact ⟨by omega, hrest⟩
    | some y =>
      rw [hhit] at h
      obtain ⟨rfl, rfl⟩ := List.cons_eq_cons.mp h
      obtain ⟨rfl, -⟩ := hit_eq_some.mp hhit
      exact ⟨le_rfl, rfl⟩

/-- With enough turns, the loop goes over all paths with the node. -/
theorem eachRoute_hitsFrom {σ : Type} (f : σ → Hit → σ) {fuel : ℕ} (b : σ)
    (hfuel : k.cache.length < fuel + index) :
    k.eachRoute dest f fuel index b = (k.hitsFrom dest index).foldl f b := by
  induction fuel generalizing index b with
  | zero => rw [hitsFrom_of_le (by omega), eachRoute, List.foldl_nil]
  | succ fuel ih =>
    rw [eachRoute, searchRoute_eq]
    cases hhits : k.hitsFrom dest index with
    | nil => rfl
    | cons x l =>
      obtain ⟨hle, hrest⟩ := hitsFrom_eq_cons hhits
      rw [List.head?_cons, List.foldl_cons, ← hrest]
      exact ih (f b x) (by omega)

theorem eachRoute_eq {σ : Type} (f : σ → Hit → σ) (b : σ) :
    k.eachRoute dest f (k.cache.length + 1) 0 b = (k.hits dest).foldl f b :=
  eachRoute_hitsFrom f b (by omega)

end Cache

/-! ## The best path -/

namespace MobiCache

/-- The best path of those that were looked at. -/
structure Best.Of (l : List Hit) (b : Best) : Prop where
  least : ∀ x ∈ l, b.min_length ≤ x.i
  none : b.min_cache = 0 → l = [] ∧ b.min_length = MAX_SR_LEN + 1
  found : b.min_cache ≠ 0 → ∃ x ∈ l, x.i = b.min_length ∧ x.path = b.route

variable {l : List Hit} {b b' : Best}

/-- Another path is looked at. -/
theorem Best.Of.push (h : b.Of l) (hcache : b'.min_cache ≠ 0)
    (hb' : if x.i < b.min_length then b'.min_length = x.i ∧ b'.route = x.path
      else b.min_cache ≠ 0 ∧ b'.min_length = b.min_length ∧ b'.route = b.route) :
    b'.Of (l ++ [x]) := by
  split at hb'
  · rename_i hlt
    obtain ⟨hlen, hroute⟩ := hb'
    refine ⟨fun y hy => ?_, fun h0 => absurd h0 hcache,
      fun _ => ⟨x, List.mem_append_right _ List.mem_cons_self, hlen.symm, hroute.symm⟩⟩
    rw [hlen]
    rcases List.mem_append.mp hy with hy | hy
    · exact hlt.le.trans (h.least y hy)
    · rw [List.mem_singleton.mp hy]
  · rename_i hge
    obtain ⟨hold, hlen, hroute⟩ := hb'
    refine ⟨fun y hy => ?_, fun h0 => absurd h0 hcache, fun _ => ?_⟩
    · rw [hlen]
      rcases List.mem_append.mp hy with hy | hy
      · exact h.least y hy
      · rw [List.mem_singleton.mp hy]
        exact not_lt.mp hge
    · obtain ⟨y, hy, hyi, hyp⟩ := h.found hold
      exact ⟨y, List.mem_append_left _ hy, hyi.trans hlen.symm, hyp.trans hroute.symm⟩

theorem Best.Of.old (h : b.Of l) (hx : x.i ≤ MAX_SR_LEN) (hge : ¬ x.i < b.min_length) :
    b.min_cache ≠ 0 := by
  intro h0
  have := (h.none h0).2
  omega

theorem Best.Of.primary (h : b.Of l) (hx : x.i ≤ MAX_SR_LEN) :
    (b.primary x).Of (l ++ [x]) := by
  unfold Best.primary
  split
  · rename_i hlt
    exact h.push two_ne_zero (by rw [if_pos hlt]; exact ⟨rfl, rfl⟩)
  · rename_i hge
    exact h.push two_ne_zero (by rw [if_neg hge]; exact ⟨h.old hx hge, rfl, rfl⟩)

theorem Best.Of.secondary (h : b.Of l) (hx : x.i ≤ MAX_SR_LEN) :
    (b.secondary x).Of (l ++ [x]) := by
  unfold Best.secondary
  split
  · rename_i hlt
    exact h.push one_ne_zero (by rw [if_pos hlt]; exact ⟨rfl, rfl⟩)
  · rename_i hge
    exact h.push (h.old hx hge) (by rw [if_neg hge]; exact ⟨h.old hx hge, rfl, rfl⟩)

theorem Best.Of.foldl {f : Best → Hit → Best}
    (hf : ∀ l b x, Best.Of l b → x.i ≤ MAX_SR_LEN → (f b x).Of (l ++ [x])) (h : b.Of l)
    (l' : List Hit) (hl' : ∀ x ∈ l', x.i ≤ MAX_SR_LEN) : (l'.foldl f b).Of (l ++ l') := by
  induction l' generalizing l b with
  | nil => rwa [List.append_nil]
  | cons x l' ih =>
    have h' := ih (hf l b x h (hl' x List.mem_cons_self)) fun y hy =>
      hl' y (List.mem_cons_of_mem x hy)
    rwa [List.append_assoc] at h'

theorem hit_le (hx : x ∈ k.hits dest) : x.i ≤ MAX_SR_LEN := by
  obtain ⟨-, hfind⟩ := Cache.mem_hits.mp hx
  obtain ⟨hlt, -⟩ := List.findIdx?_eq_some_iff_getElem.mp hfind
  exact hlt.le.trans x.path.length_le

/-- The best path is one of the paths of the two caches that have the node. -/
theorem best_of (m : MobiCache) (dest : ID) :
    (m.best dest).Of (m.primary_cache.hits dest ++ m.secondary_cache.hits dest) := by
  have hinit : Best.Of [] ⟨-1, MAX_SR_LEN + 1, 0, Path.empty⟩ :=
    ⟨fun x hx => (nomatch hx), fun _ => ⟨rfl, rfl⟩, fun h0 => absurd rfl h0⟩
  rw [best, Cache.eachRoute_eq, Cache.eachRoute_eq]
  have hprimary := hinit.foldl (fun _ _ _ h hx => h.primary hx) (m.primary_cache.hits dest)
    fun x hx => hit_le hx
  exact hprimary.foldl (fun _ _ _ h hx => h.secondary hx) (m.secondary_cache.hits dest)
    fun x hx => hit_le hx

/-! ## Routes -/

variable {m : MobiCache} {r c : Path}

/-- A part of a path, from its start, that ends in the node, and no other one is shorter. -/
structure Shortest (paths : List Path) (dest : ID) (r : Path) : Prop where
  part : ∃ c ∈ paths, r.keys <+: c.keys
  ends : r.keys.getLast? = some dest.key
  least : ∀ c ∈ paths, ∀ l, l <+: c.keys → l.getLast? = some dest.key → r.keys.length ≤ l.length

/-- The hits are the paths of the caches with the node. -/
theorem exists_hit (hc : c ∈ m.paths) (hdest : dest.key ∈ c.keys) :
    ∃ x ∈ m.primary_cache.hits dest ++ m.secondary_cache.hits dest, x.path = c := by
  obtain ⟨y, hy, hkey⟩ := List.mem_map.mp hdest
  obtain ⟨n, hn⟩ : ∃ n, (c.path.findIdx? fun y => y.key = dest.key) = some n := by
    rw [← Option.isSome_iff_exists, List.findIdx?_isSome, List.any_eq_true]
    exact ⟨y, hy, decide_eq_true hkey⟩
  rcases List.mem_append.mp hc with hc | hc
  · obtain ⟨index, hindex⟩ := List.mem_iff_getElem?.mp hc
    exact ⟨⟨n, c, index⟩, List.mem_append_left _ (Cache.mem_hits.mpr ⟨hindex, hn⟩), rfl⟩
  · obtain ⟨index, hindex⟩ := List.mem_iff_getElem?.mp hc
    exact ⟨⟨n, c, index⟩, List.mem_append_right _ (Cache.mem_hits.mpr ⟨hindex, hn⟩), rfl⟩

theorem hit_spec (hx : x ∈ m.primary_cache.hits dest ++ m.secondary_cache.hits dest) :
    x.path ∈ m.paths ∧ x.path.keys[x.i]? = some dest.key ∧
      ∀ j < x.i, x.path.keys[j]? ≠ some dest.key := by
  have hmem : x.path ∈ m.paths := by
    rcases List.mem_append.mp hx with hx | hx
    · exact List.mem_append_left _ (List.mem_of_getElem? (Cache.mem_hits.mp hx).1)
    · exact List.mem_append_right _ (List.mem_of_getElem? (Cache.mem_hits.mp hx).1)
  have hfind : (x.path.path.findIdx? fun y => y.key = dest.key) = some x.i := by
    rcases List.mem_append.mp hx with hx | hx <;> exact (Cache.mem_hits.mp hx).2
  obtain ⟨hlt, hkey, hbefore⟩ := List.findIdx?_eq_some_iff_getElem.mp hfind
  refine ⟨hmem, ?_, fun j hj hj' => ?_⟩
  · rw [Path.keys, List.getElem?_map, List.getElem?_eq_getElem hlt, Option.map_some,
      of_decide_eq_true hkey]
  · rw [Path.keys, List.getElem?_map, List.getElem?_eq_getElem (hj.trans hlt), Option.map_some,
      Option.some_inj] at hj'
    exact hbefore j hj (decide_eq_true hj')

/-- A part of a path that ends in a node is as long as the position of the node. -/
theorem getLast?_part {l l' : List (IDType × ℕ)} {y : IDType × ℕ} (hl : l <+: l')
    (hlast : l.getLast? = some y) : ∃ n, l.length = n + 1 ∧ l'[n]? = some y := by
  cases hlen : l.length with
  | zero =>
    rw [List.length_eq_zero_iff.mp hlen] at hlast
    cases hlast
  | succ n =>
    refine ⟨n, rfl, ?_⟩
    rw [List.getLast?_eq_getElem?, hlen, Nat.add_sub_cancel] at hlast
    obtain ⟨s, rfl⟩ := hl
    rw [List.getElem?_append_left (by omega), hlast]

/-- **`findRoute` finds a shortest route.**  It succeeds if a path of the cache has the node, and
only then. -/
theorem findRoute_spec (m : MobiCache) (dest : ID) (for_me : Bool) :
    ((m.findRoute dest for_me).2.isSome = true ↔ ∃ c ∈ m.paths, dest.key ∈ c.keys) ∧
    ∀ r ∈ (m.findRoute dest for_me).2, Shortest m.paths dest r := by
  have hbest := best_of m dest
  rw [findRoute_snd]
  by_cases hfound : (m.best dest).min_cache ≠ 0
  · obtain ⟨x, hx, hlen, hroute⟩ := hbest.found hfound
    obtain ⟨hmem, hkey, -⟩ := hit_spec hx
    rw [if_pos hfound, ← hlen, ← hroute]
    refine ⟨iff_of_true rfl ⟨x.path, hmem, List.mem_of_getElem? hkey⟩, fun r hr => ?_⟩
    cases hr
    obtain ⟨hlt, -⟩ := List.getElem?_eq_some_iff.mp hkey
    have hlength : (x.path.setLength (x.i + 1)).keys.length = x.i + 1 := by
      rw [keys_setLength, List.length_take]
      omega
    refine ⟨⟨x.path, hmem, keys_setLength_part _⟩, ?_, fun c hc l hl hlast => ?_⟩
    · rw [List.getLast?_eq_getElem?, hlength, keys_setLength, Nat.add_sub_cancel,
        List.getElem?_take_of_lt (Nat.lt_succ_self _), hkey]
    · obtain ⟨n, hn, hcn⟩ := getLast?_part hl hlast
      obtain ⟨y, hy, rfl⟩ := exists_hit hc (List.mem_of_getElem? hcn)
      have hle := hbest.least y hy
      have hfirst := (hit_spec hy).2.2 n
      rw [hlength, hn]
      by_contra hlt
      exact hfirst (by omega) hcn
  · rw [if_neg hfound]
    obtain ⟨hnil, -⟩ := hbest.none (not_not.mp hfound)
    refine ⟨iff_of_false Bool.false_ne_true ?_, fun r hr => nomatch hr⟩
    rintro ⟨c, hc, hdest⟩
    obtain ⟨x, hx, -⟩ := exists_hit hc hdest
    rw [hnil] at hx
    cases hx

end MobiCache

end Ns2.Dsr
