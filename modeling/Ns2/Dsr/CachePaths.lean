import Ns2.Dsr.RouteCache

/-!
# The paths of the route cache

What an operation leaves in the cache is a part, from its start, of what was there, or the route
that was added.

* `HasLink` — two nodes of a path follow each other.
* `Cache.addRoute_keys`, `Cache.noticeDeadLink_keys` — the operations of one cache.
* `MobiCache.added` — the route that an operation adds.
* `MobiCache.step_paths` — **what an operation leaves in the two caches.**
-/

namespace Ns2.Dsr

variable {p c c' : Path} {k : Cache} {src dst : ID}

/-! ## Paths -/

/-- The path has the link `a → b`. -/
def HasLink (a b : IDType × ℕ) (l : List (IDType × ℕ)) : Prop := [a, b] <:+: l

instance (a b : IDType × ℕ) (l : List (IDType × ℕ)) : Decidable (HasLink a b l) :=
  inferInstanceAs (Decidable (_ <:+: _))

theorem HasLink.of_part {a b : IDType × ℕ} {l l' : List (IDType × ℕ)} (h : HasLink a b l)
    (hl : l <+: l') : HasLink a b l' := h.trans hl.isInfix

/-- The first link is this one, or the link is further on. -/
theorem hasLink_cons_cons {a b x y : IDType × ℕ} {l : List (IDType × ℕ)} :
    HasLink a b (x :: y :: l) ↔ (x = a ∧ y = b) ∨ HasLink a b (y :: l) := by
  unfold HasLink
  rw [List.infix_cons_iff, List.cons_prefix_cons, List.cons_prefix_cons]
  simp [eq_comm]

theorem not_hasLink_short {a b : IDType × ℕ} {l : List (IDType × ℕ)} (h : l.length < 2) :
    ¬ HasLink a b l := fun hlink => by
  have := hlink.length_le
  simp only [List.length_cons, List.length_nil] at this
  omega

theorem keys_setLength (l : ℕ) : (p.setLength l).keys = p.keys.take l := List.map_take

theorem keys_setLength_part (l : ℕ) : (p.setLength l).keys <+: p.keys := by
  rw [keys_setLength]
  exact List.take_prefix l p.keys

theorem keys_freshen : (p.freshen c).keys = c.keys := freshenLinks_keys c.path p.path

theorem keys_stamp (t : ℚ) (who_from : ID) : (p.stamp t who_from).keys = p.keys :=
  stamp_keys t who_from .tested p.path

/-- A change of the state of one link does not change the nodes. -/
theorem map_key_modify {f : ID → ID} (hf : ∀ x, (f x).key = x.key) (n : ℕ) (l : List ID) :
    (l.modify n f).map ID.key = l.map ID.key := by
  induction l generalizing n with
  | nil => simp
  | cons x l ih =>
    cases n with
    | zero => simp [hf]
    | succ n => simp [ih]

theorem keys_modify {f : ID → ID} (hf : ∀ x, (f x).key = x.key) (n : ℕ) :
    (p.modify n f).keys = p.keys := map_key_modify hf n p.path

theorem keys_copyIntoPath (n : ℕ) : (p.copyIntoPath n).keys = p.keys.drop n := List.map_drop

/-- The nodes that two paths have in common at the start. -/
theorem take_commonPrefix (c p : List ID) :
    (c.map ID.key).take (commonPrefix c p) = (p.map ID.key).take (commonPrefix c p) := by
  induction c generalizing p with
  | nil => simp [commonPrefix]
  | cons x c ih =>
    cases p with
    | nil => simp [commonPrefix]
    | cons y p =>
      rw [commonPrefix]
      split
      · rename_i hxy
        rw [List.map_cons, List.map_cons, List.take_succ_cons, List.take_succ_cons, hxy, ih]
      · rw [List.take_zero, List.take_zero]

/-- A path that the route contains is extended to the route. -/
theorem keys_appendRest (h : commonPrefix c.path p.path = c.path.length) :
    (c.appendRest p _ h (commonPrefix_le c.path p.path)).keys = p.keys := by
  have htake := take_commonPrefix c.path p.path
  have hc : c.path.map ID.key = (p.path.map ID.key).take (commonPrefix c.path p.path) := by
    rw [← htake, h, ← List.length_map ID.key, List.take_length]
  show (c.path ++ p.path.drop (commonPrefix c.path p.path)).map ID.key = p.path.map ID.key
  rw [List.map_append, hc, List.map_drop, List.take_append_drop]

/-! ## Dead links -/

variable (src dst) in
/-- Before the link that was found, the path does not have it. -/
theorem deadIndex_spec (l : List ID) :
    (deadIndex src dst l = none → ¬ HasLink src.key dst.key (l.map ID.key)) ∧
    ∀ n, deadIndex src dst l = some n →
      ¬ HasLink src.key dst.key ((l.map ID.key).take (n + 1)) := by
  induction l with
  | nil => exact ⟨fun _ => not_hasLink_short (by simp), by simp [deadIndex]⟩
  | cons x l ih =>
    cases l with
    | nil => exact ⟨fun _ => not_hasLink_short (by simp), by simp [deadIndex]⟩
    | cons y l =>
      obtain ⟨ihnone, ihsome⟩ := ih
      rw [deadIndex]
      split
      · rename_i hxy
        refine ⟨fun h => by simp at h, fun n hn => ?_⟩
        cases hn
        exact not_hasLink_short (by simp)
      · rename_i hxy
        refine ⟨fun h => ?_, fun n hn => ?_⟩
        · rw [List.map_cons, List.map_cons, hasLink_cons_cons]
          exact not_or.mpr ⟨hxy, ihnone (by simpa using h)⟩
        · obtain ⟨m, hm, rfl⟩ := Option.map_eq_some_iff.mp hn
          have hrest := ihsome m hm
          rw [List.map_cons, List.take_succ_cons] at hrest
          rw [List.map_cons, List.map_cons, List.take_succ_cons, List.take_succ_cons,
            hasLink_cons_cons]
          exact not_or.mpr ⟨hxy, hrest⟩

/-- A path that was truncated is a part of the path, and does not have the link. -/
theorem keys_truncate : (p.truncate src dst).keys <+: p.keys ∧
    ¬ HasLink src.key dst.key (p.truncate src dst).keys := by
  obtain ⟨hnone, hsome⟩ := deadIndex_spec src dst p.path
  unfold Path.truncate
  split
  · rename_i h
    exact ⟨List.prefix_refl _, hnone h⟩
  · exact ⟨List.nil_prefix, not_hasLink_short (by simp [Path.keys, Path.empty])⟩
  · rename_i n h
    rw [keys_modify (f := ID.unlogged) (fun _ => rfl), keys_setLength]
    exact ⟨List.take_prefix _ _, hsome (n + 1) h⟩

/-! ## One cache -/

namespace Cache

theorem extend_keys {l l' : List Path} {n : ℕ} (h : extend p l = some (l', n)) (hc : c' ∈ l') :
    (∃ c ∈ l, c'.keys = c.keys) ∨ c'.keys = p.keys := by
  induction l generalizing l' with
  | nil => cases h
  | cons c l ih =>
    rw [extend] at h
    split at h
    · rename_i hprefix
      cases h
      cases hc with
      | head => exact .inr (keys_appendRest hprefix)
      | tail _ hc => exact .inl ⟨c', List.mem_cons_of_mem c hc, rfl⟩
    · split at h
      · cases h
        exact .inl ⟨c', hc, rfl⟩
      · obtain ⟨⟨l₁, n₁⟩, hx, heq⟩ := Option.map_eq_some_iff.mp h
        cases heq
        cases hc with
        | head => exact .inl ⟨c', List.mem_cons_self, rfl⟩
        | tail _ hc =>
          rcases ih hx hc with ⟨d, hd, hkeys⟩ | hkeys
          · exact .inl ⟨d, List.mem_cons_of_mem c hd, hkeys⟩
          · exact .inr hkeys

/-- A path of the cache was there before, or is the route. -/
theorem addRoute_keys (hc : c' ∈ (k.addRoute p).1.cache) :
    (∃ c ∈ k.cache, c'.keys = c.keys) ∨ c'.keys = p.keys := by
  obtain ⟨d, hd, rfl⟩ := List.mem_map.mp hc
  rw [keys_freshen]
  unfold placeRoute at hd
  split at hd
  · rename_i x hx
    exact extend_keys hx hd
  · rcases List.mem_or_eq_of_mem_set hd with hd | rfl
    · exact .inl ⟨d, hd, rfl⟩
    · exact .inr (keys_copyIntoPath 0)

/-- A path of the cache is a part of one that was there, and does not have the link. -/
theorem noticeDeadLink_keys (hc : c' ∈ (k.noticeDeadLink src dst).cache) :
    (∃ c ∈ k.cache, c'.keys <+: c.keys) ∧ ¬ HasLink src.key dst.key c'.keys := by
  obtain ⟨c, hmem, rfl⟩ := List.mem_map.mp hc
  exact ⟨⟨c, hmem, keys_truncate.1⟩, keys_truncate.2⟩

theorem mem_modify {f : Path → Path} {l : List Path} {n : ℕ} (h : c' ∈ l.modify n f) :
    ∃ c ∈ l, c' = c ∨ c' = f c := by
  induction l generalizing n with
  | nil => simp at h
  | cons c l ih =>
    cases n with
    | zero =>
      rw [List.modify_zero_cons] at h
      cases h with
      | head => exact ⟨c, List.mem_cons_self, .inr rfl⟩
      | tail _ h => exact ⟨c', List.mem_cons_of_mem c h, .inl rfl⟩
    | succ n =>
      rw [List.modify_succ_cons] at h
      cases h with
      | head => exact ⟨c', List.mem_cons_self, .inl rfl⟩
      | tail _ h =>
        obtain ⟨d, hd, hcases⟩ := ih h
        exact ⟨d, List.mem_cons_of_mem c hd, hcases⟩

theorem kill_keys {index : ℕ} (hc : c' ∈ (k.kill index).cache) :
    ∃ c ∈ k.cache, c'.keys <+: c.keys := by
  obtain ⟨c, hmem, rfl | rfl⟩ := mem_modify hc
  · exact ⟨c', hmem, List.prefix_refl _⟩
  · exact ⟨c, hmem, keys_setLength_part 0⟩

end Cache

/-! ## The routes that are added -/

theorem keys_appendUntilFull (p : Path) (l : List ID) :
    (p.appendUntilFull l).keys <+: p.keys ++ l.map ID.key := by
  induction l generalizing p with
  | nil => exact List.prefix_append _ _
  | cons x l ih =>
    rw [Path.appendUntilFull]
    unfold Path.appendToPath
    split_ifs
    · refine (ih _).trans ?_
      simp [Path.keys]
    · exact List.prefix_append _ _

/-- A call. -/
inductive CacheOp where
  | addRoute (route : Path) (t : ℚ) (who_from : ID)
  | noticeRouteUsed (p : Path) (t : ℚ) (who_from : ID)
  | noticeDeadLink (src dst : ID)
  | findRoute (dest : ID) (for_me : Bool)

namespace MobiCache

variable {m m' : MobiCache} {t : ℚ} {who_from : ID} {r : Path}

/-- The paths of both caches. -/
def paths (m : MobiCache) : List Path := m.primary_cache.cache ++ m.secondary_cache.cache

/-- Nothing, or nodes that start with this one and are different. -/
structure Usable (m : MobiCache) (l : List (IDType × ℕ)) : Prop where
  /-- The path starts with this node. -/
  own : ∀ x ∈ l.head?, m.Own x
  /-- No node is repeated. -/
  nodup : l.Nodup

theorem Usable.of_part {l l' : List (IDType × ℕ)} (h : m.Usable l) (hl : l' <+: l) :
    m.Usable l' := by
  refine ⟨fun x hx => h.own x ?_, h.nodup.sublist hl.sublist⟩
  obtain ⟨s, rfl⟩ := hl
  cases l' with
  | nil => cases hx
  | cons y l' => exact hx

/-- The route that `addRoute` adds. -/
theorem preAddRoute_usable (hroute : p.keys.Nodup) (h : m.preAddRoute p t who_from = some r) :
    m.Usable r.keys := by
  unfold preAddRoute at h
  split_ifs at h with hlen hown
  cases h
  rw [keys_stamp]
  refine ⟨fun x hx => ?_, hroute⟩
  cases hpath : p.path with
  | nil => simp [Path.length, hpath] at hlen
  | cons y l =>
    simp only [hpath, List.head?_cons, Option.any_some, decide_eq_false_iff_not, not_not] at hown
    rw [Path.keys, hpath] at hx
    cases hx
    exact hown

/-- The route that `noticeRouteUsed` adds: a part of the path from this node on, or this node and a
part of the path that it is not in. -/
theorem preNoticeRouteUsed_usable (hp : p.keys.Nodup)
    (h : m.preNoticeRouteUsed p t who_from = some (some r)) : m.Usable r.keys := by
  unfold preNoticeRouteUsed at h
  split at h
  · cases h
  split at h
  · cases h
  split at h
  · rename_i c hc
    split at h
    · cases h
    obtain ⟨hlt, hown, -⟩ := List.findIdx?_eq_some_iff_getElem.mp hc
    cases h
    rw [keys_stamp, keys_copyIntoPath]
    refine ⟨fun x hx => ?_, hp.sublist (List.drop_sublist c p.keys)⟩
    rw [List.head?_drop, Path.keys, List.getElem?_map, List.getElem?_eq_getElem hlt] at hx
    cases hx
    exact of_decide_eq_true hown
  · rename_i hnone
    have hother : ∀ x ∈ p.path, ¬ m.Own x.key := fun x hx =>
      of_decide_eq_false (List.findIdx?_eq_none_iff.mp hnone x hx)
    split at h
    · split at h
      · cases h
      split at h
      · cases h
      cases h
      rw [keys_modify (f := ID.untested) (fun _ => rfl), keys_stamp]
      refine Usable.of_part ?_ (keys_appendUntilFull _ _)
      rw [List.map_drop]
      refine ⟨fun x hx => ?_, ?_⟩
      · cases hx
        exact .inl rfl
      · refine List.nodup_cons.mpr ⟨fun hmem => ?_, hp.sublist (List.drop_sublist _ p.keys)⟩
        obtain ⟨x, hx, hkey⟩ := List.mem_map.mp (List.mem_of_mem_drop hmem)
        exact hother x hx (.inl hkey)
    · cases h

/-! ## Calls -/

/-- One call. -/
def step (m : MobiCache) : CacheOp → Option MobiCache
  | .addRoute route t who_from => some (m.addRoute route t who_from)
  | .noticeRouteUsed p t who_from => m.noticeRouteUsed p t who_from
  | .noticeDeadLink src dst => some (m.noticeDeadLink src dst)
  | .findRoute dest for_me => some (m.findRoute dest for_me).1

/-- The route that a call adds to the cache. -/
def added (m : MobiCache) : CacheOp → Option Path
  | .addRoute route t who_from => m.preAddRoute route t who_from
  | .noticeRouteUsed p t who_from => (m.preNoticeRouteUsed p t who_from).join
  | _ => none

/-- The cache of the same node. -/
def SameNode (m m' : MobiCache) : Prop := m'.net_id = m.net_id ∧ m'.MAC_id = m.MAC_id

theorem Usable.congr {l : List (IDType × ℕ)} (h : m.Usable l) (hnode : m.SameNode m') :
    m'.Usable l := by
  refine ⟨fun x hx => ?_, h.nodup⟩
  have := h.own x hx
  unfold Own at this ⊢
  rwa [hnode.1, hnode.2]

/-- Promotion moves a path. -/
theorem promote_paths {index : ℕ} (hc : c' ∈ (m.promote index).paths) :
    ∃ c ∈ m.paths, c'.keys <+: c.keys := by
  unfold promote at hc
  split at hc
  · rename_i p hp
    have hmem : p ∈ m.paths :=
      List.mem_append_right _ (List.mem_of_getElem? hp)
    rcases List.mem_append.mp hc with hc | hc
    · rcases Cache.addRoute_keys hc with ⟨c, hc, hkeys⟩ | hkeys
      · exact ⟨c, List.mem_append_left _ hc, hkeys ▸ List.prefix_refl _⟩
      · exact ⟨p, hmem, hkeys ▸ List.prefix_refl _⟩
    · obtain ⟨c, hc, hprefix⟩ := Cache.kill_keys hc
      exact ⟨c, List.mem_append_right _ hc, hprefix⟩
  · exact ⟨c', hc, List.prefix_refl _⟩

theorem findRoute_fst (dest : ID) (for_me : Bool) : (m.findRoute dest for_me).1 =
    if (m.best dest).min_cache = 1 ∧ for_me = true then m.promote (m.best dest).min_index.toNat
    else m :=
  (apply_ite Prod.fst _ _ _).trans (ite_self _)

theorem findRoute_snd (dest : ID) (for_me : Bool) : (m.findRoute dest for_me).2 =
    if (m.best dest).min_cache ≠ 0 then
      some ((m.best dest).route.setLength ((m.best dest).min_length + 1))
    else none :=
  apply_ite Prod.snd _ _ _

theorem findRoute_paths {dest : ID} {for_me : Bool} (hc : c' ∈ (m.findRoute dest for_me).1.paths) :
    ∃ c ∈ m.paths, c'.keys <+: c.keys := by
  rw [findRoute_fst] at hc
  split at hc
  · exact promote_paths hc
  · exact ⟨c', hc, List.prefix_refl _⟩

/-- **What a call leaves in the caches.**  A path is a part, from its start, of one that was there,
or it is the route that the call adds. -/
theorem step_paths {e : CacheOp} (h : m.step e = some m') (hc : c' ∈ m'.paths) :
    (∃ c ∈ m.paths, c'.keys <+: c.keys) ∨ ∃ r, m.added e = some r ∧ c'.keys = r.keys := by
  cases e with
  | addRoute route t who_from =>
    cases h
    unfold addRoute at hc
    split at hc
    · rename_i rt hrt
      rcases List.mem_append.mp hc with hc | hc
      · rcases Cache.addRoute_keys hc with ⟨c, hc, hkeys⟩ | hkeys
        · exact .inl ⟨c, List.mem_append_left _ hc, hkeys ▸ List.prefix_refl _⟩
        · exact .inr ⟨rt, hrt, hkeys⟩
      · exact .inl ⟨c', List.mem_append_right _ hc, List.prefix_refl _⟩
    · exact .inl ⟨c', hc, List.prefix_refl _⟩
  | noticeRouteUsed p t who_from =>
    obtain ⟨stub?, hstub, rfl⟩ := Option.map_eq_some_iff.mp h
    cases stub? with
    | none => exact .inl ⟨c', hc, List.prefix_refl _⟩
    | some stub =>
      rcases List.mem_append.mp hc with hc | hc
      · exact .inl ⟨c', List.mem_append_left _ hc, List.prefix_refl _⟩
      · rcases Cache.addRoute_keys hc with ⟨c, hc, hkeys⟩ | hkeys
        · exact .inl ⟨c, List.mem_append_right _ hc, hkeys ▸ List.prefix_refl _⟩
        · refine .inr ⟨stub, ?_, hkeys⟩
          rw [added, hstub, Option.join_some]
  | noticeDeadLink src dst =>
    cases h
    rcases List.mem_append.mp hc with hc | hc
    · obtain ⟨⟨c, hc, hprefix⟩, -⟩ := Cache.noticeDeadLink_keys hc
      exact .inl ⟨c, List.mem_append_left _ hc, hprefix⟩
    · obtain ⟨⟨c, hc, hprefix⟩, -⟩ := Cache.noticeDeadLink_keys hc
      exact .inl ⟨c, List.mem_append_right _ hc, hprefix⟩
  | findRoute dest for_me =>
    cases h
    exact .inl (findRoute_paths hc)

/-- After `noticeDeadLink` no path has the link. -/
theorem noticeDeadLink_paths (hc : c' ∈ (m.noticeDeadLink src dst).paths) :
    ¬ HasLink src.key dst.key c'.keys := by
  rcases List.mem_append.mp hc with hc | hc
  · exact (Cache.noticeDeadLink_keys hc).2
  · exact (Cache.noticeDeadLink_keys hc).2

theorem sameNode_promote (index : ℕ) : m.SameNode (m.promote index) := by
  unfold promote
  split <;> exact ⟨rfl, rfl⟩

theorem step_sameNode {e : CacheOp} (h : m.step e = some m') : m.SameNode m' := by
  cases e with
  | addRoute route t who_from =>
    cases h
    unfold addRoute
    split <;> exact ⟨rfl, rfl⟩
  | noticeRouteUsed p t who_from =>
    obtain ⟨stub?, -, rfl⟩ := Option.map_eq_some_iff.mp h
    cases stub? <;> exact ⟨rfl, rfl⟩
  | noticeDeadLink src dst =>
    cases h
    exact ⟨rfl, rfl⟩
  | findRoute dest for_me =>
    cases h
    rw [findRoute_fst]
    split
    · exact sameNode_promote _
    · exact ⟨rfl, rfl⟩

end MobiCache

end Ns2.Dsr
