import Ns2.Dsr.FindRoute
import Ns2.Lib.Run

/-!
# Runs of the route cache

* `Ledger` — the cache, with the links that are dead since the last route with them was added.
* `Exact` — the paths start with this node and repeat no node, a shortest route is found, and it
  has no dead link.
* `Inv.step` — one call.
* `route_cache_usable` — **the cache gives only usable routes.**
-/

namespace Ns2.Dsr

open MobiCache

/-- The routes of a call repeat no node. -/
def CacheOp.Distinct : CacheOp → Prop
  | .addRoute route _ _ => route.keys.Nodup
  | .noticeRouteUsed p _ _ => p.keys.Nodup
  | _ => True

instance : ∀ e : CacheOp, Decidable e.Distinct
  | .addRoute _ _ _ => inferInstanceAs (Decidable (List.Nodup _))
  | .noticeRouteUsed _ _ _ => inferInstanceAs (Decidable (List.Nodup _))
  | .noticeDeadLink _ _ => isTrue trivial
  | .findRoute _ _ => isTrue trivial

/-- The index into the path of a call is not negative. -/
def CacheOp.InPath : CacheOp → Prop
  | .noticeRouteUsed p _ _ => 0 ≤ p.cur_index
  | _ => True

/-- A cache and its dead links. -/
structure Ledger where
  cache : MobiCache
  /-- The links that have not been added again since they were noticed to be dead. -/
  dead : List ((IDType × ℕ) × (IDType × ℕ))

namespace Ledger

/-- The links that are dead after a call. -/
def deadAfter (l : Ledger) : CacheOp → List ((IDType × ℕ) × (IDType × ℕ))
  | .noticeDeadLink src dst => (src.key, dst.key) :: l.dead
  | e =>
    match l.cache.added e with
    | some r => l.dead.filter fun ab => ¬ HasLink ab.1 ab.2 r.keys
    | none => l.dead

/-- One call. -/
def step (l : Ledger) (e : CacheOp) : Option Ledger :=
  (l.cache.step e).map fun m => ⟨m, l.deadAfter e⟩

/-- One call of a run; nothing is left of a run in which an assertion has failed. -/
def exec (l? : Option Ledger) (e : CacheOp) : Option Ledger := l?.bind (step · e)

/-- The cache gives only usable routes. -/
structure Exact (l : Ledger) : Prop where
  /-- Every path is empty or starts with this node, and repeats no node. -/
  paths : ∀ c ∈ l.cache.paths, l.cache.Usable c.keys
  /-- A route is found if a path has the node, and only then. -/
  found : ∀ dest for_me,
    (l.cache.findRoute dest for_me).2.isSome = true ↔ ∃ c ∈ l.cache.paths, dest.key ∈ c.keys
  /-- It is a shortest one. -/
  shortest : ∀ dest for_me, ∀ r ∈ (l.cache.findRoute dest for_me).2,
    Shortest l.cache.paths dest r
  /-- It has no dead link. -/
  alive : ∀ dest for_me, ∀ r ∈ (l.cache.findRoute dest for_me).2, ∀ ab ∈ l.dead,
    ¬ HasLink ab.1 ab.2 r.keys

/-- The paths are usable and have no dead link. -/
structure Inv (l : Ledger) : Prop where
  usable : ∀ c ∈ l.cache.paths, l.cache.Usable c.keys
  alive : ∀ c ∈ l.cache.paths, ∀ ab ∈ l.dead, ¬ HasLink ab.1 ab.2 c.keys

variable {l l' : Ledger} {e : CacheOp}

theorem Inv.exact (h : l.Inv) : l.Exact where
  paths := h.usable
  found := fun dest for_me => (findRoute_spec l.cache dest for_me).1
  shortest := fun dest for_me => (findRoute_spec l.cache dest for_me).2
  alive := by
    intro dest for_me r hr ab hab hlink
    obtain ⟨c, hc, hprefix⟩ := ((findRoute_spec l.cache dest for_me).2 r hr).part
    exact h.alive c hc ab hab (hlink.of_part hprefix)

/-- The route that a call adds is usable. -/
theorem added_usable {r : Path} (he : e.Distinct) (h : l.cache.added e = some r) :
    l.cache.Usable r.keys := by
  cases e with
  | addRoute route t who_from => exact preAddRoute_usable he h
  | noticeRouteUsed p t who_from =>
    exact preNoticeRouteUsed_usable he (Option.join_eq_some_iff.mp h)
  | noticeDeadLink src dst => cases h
  | findRoute dest for_me => cases h

/-- A link that is dead after a call was dead before and the route that is added does not have it,
or the call notices that it is dead. -/
theorem mem_deadAfter {ab : (IDType × ℕ) × (IDType × ℕ)} (h : ab ∈ l.deadAfter e) :
    (ab ∈ l.dead ∧ ∀ r ∈ l.cache.added e, ¬ HasLink ab.1 ab.2 r.keys) ∨
    ∃ src dst, e = .noticeDeadLink src dst ∧ ab = (src.key, dst.key) := by
  unfold deadAfter at h
  split at h
  · rename_i src dst
    cases h with
    | head => exact .inr ⟨src, dst, rfl, rfl⟩
    | tail _ h => exact .inl ⟨h, fun r hr => by cases hr⟩
  · left
    split at h
    · rename_i r hr
      rw [List.mem_filter] at h
      refine ⟨h.1, fun r' hr' => ?_⟩
      rw [hr] at hr'
      cases hr'
      exact of_decide_eq_true h.2
    · rename_i hnone
      exact ⟨h, fun r hr => by rw [hnone] at hr; cases hr⟩

/-- A call keeps the invariant. -/
theorem Inv.step (h : l.Inv) (he : e.Distinct) (hstep : l.step e = some l') : l'.Inv := by
  obtain ⟨m, hm, rfl⟩ := Option.map_eq_some_iff.mp hstep
  constructor
  · intro c hc
    refine Usable.congr ?_ (step_sameNode hm)
    rcases step_paths hm hc with ⟨d, hd, hprefix⟩ | ⟨r, hr, hkeys⟩
    · exact (h.usable d hd).of_part hprefix
    · exact hkeys ▸ added_usable he hr
  · intro c hc ab hab
    rcases mem_deadAfter hab with ⟨hdead, hadded⟩ | ⟨src, dst, rfl, rfl⟩
    · rcases step_paths hm hc with ⟨d, hd, hprefix⟩ | ⟨r, hr, hkeys⟩
      · exact fun hlink => h.alive d hd ab hdead (hlink.of_part hprefix)
      · exact hkeys ▸ hadded r hr
    · cases hm
      exact noticeDeadLink_paths hc

/-- A call fails only for an index that is negative. -/
theorem step_isSome (l : Ledger) (he : e.InPath) : (l.step e).isSome = true := by
  rw [step, Option.isSome_map]
  cases e with
  | addRoute route t who_from => rfl
  | noticeDeadLink src dst => rfl
  | findRoute dest for_me => rfl
  | noticeRouteUsed p t who_from =>
    have hneg : ¬ p.cur_index < 0 := not_lt.mpr he
    show (Option.map _ (l.cache.preNoticeRouteUsed p t who_from)).isSome = true
    rw [Option.isSome_map, preNoticeRouteUsed]
    split
    · rfl
    split
    · rfl
    split
    · split <;> rfl
    · split
      · split
        · rfl
        · rfl
      · rfl

/-- An empty cache. -/
def init (net_id MAC_id : ID) (hid : net_id.key ≠ ID.invalid_addr.key)
    (ignore_hints use_overheard : Bool) : Ledger :=
  ⟨.new net_id MAC_id hid ignore_hints use_overheard, []⟩

theorem Inv.init (net_id MAC_id : ID) (hid : net_id.key ≠ ID.invalid_addr.key)
    (ignore_hints use_overheard : Bool) :
    (init net_id MAC_id hid ignore_hints use_overheard).Inv := by
  constructor
  · intro c hc
    have hempty : c = Path.empty := by
      rcases List.mem_append.mp hc with hc | hc <;> exact (List.mem_replicate.mp hc).2
    rw [hempty]
    exact ⟨fun x hx => (nomatch hx), List.nodup_nil⟩
  · exact fun _ _ ab hab => (nomatch hab)

/-- **The route cache gives only usable routes.**  In every run of calls with routes that repeat no
node, in every state reached, each path of the cache is empty or starts with this node and repeats
no node, `findRoute` succeeds if a path has the node and returns a shortest route then, and no route
it returns has a link that was noticed to be dead and that no route has added again.  No call fails
with an index that is not negative. -/
theorem route_cache_usable (net_id MAC_id : ID) (hid : net_id.key ≠ ID.invalid_addr.key)
    (ignore_hints use_overheard : Bool) (es : List CacheOp) (hes : ∀ e ∈ es, e.Distinct) :
    (∀ l ∈ es.foldl exec (some (init net_id MAC_id hid ignore_hints use_overheard)), l.Exact) ∧
    ((∀ e ∈ es, e.InPath) → (es.foldl exec
      (some (init net_id MAC_id hid ignore_hints use_overheard))).isSome = true) := by
  constructor
  · have hdistinct : Run.AllSteps exec (fun _ e => e.Distinct)
        (some (init net_id MAC_id hid ignore_hints use_overheard)) es :=
      Run.allSteps_of_forall es _ hes
    have hinit : ∀ l ∈ some (init net_id MAC_id hid ignore_hints use_overheard), l.Inv := by
      intro l hl
      cases hl
      exact Inv.init net_id MAC_id hid ignore_hints use_overheard
    intro l hl
    refine (Run.foldl_invariant (I := fun _ l? => ∀ l ∈ l?, Inv l) ?_ es [] _ hinit
      hdistinct l hl).exact
    intro _ l? e hl? he l' hl'
    obtain ⟨l, rfl, hstep⟩ := Option.bind_eq_some_iff.mp hl'
    exact (hl? l rfl).step he hstep
  · intro hindex
    have hinpath : Run.AllSteps exec (fun _ e => e.InPath)
        (some (init net_id MAC_id hid ignore_hints use_overheard)) es :=
      Run.allSteps_of_forall es _ hindex
    refine Run.foldl_invariant (I := fun _ l? => l?.isSome = true) ?_ es [] _ rfl hinpath
    intro _ l? e hl? he
    obtain ⟨l, rfl⟩ := Option.isSome_iff_exists.mp hl?
    exact step_isSome l he

/-- A path of addresses. -/
def ipPath (l : List ℕ) (h : l.length ≤ MAX_SR_LEN) (cur_index : ℤ) : Path :=
  ⟨l.map (ID.new · .ip), cur_index, by rwa [List.length_map]⟩

/-- A route is learned, one is overheard, a link breaks, and a route is asked for. -/
def fourCalls : List CacheOp :=
  [.addRoute (ipPath [1, 2, 3] (by decide) 0) 0 (.new 3 .ip),
    .noticeRouteUsed (ipPath [4, 5, 3] (by decide) 1) 1 (.new 4 .ip),
    .noticeDeadLink (.new 2 .ip) (.new 3 .ip), .findRoute (.new 3 .ip) true]

/-- The overheard route is the one that is found. -/
theorem route_cache_usable_four :
    (∀ l ∈ fourCalls.foldl exec (some (init (.new 1 .ip) (.new 1 .mac) (by decide) false true)),
      l.Exact) ∧
    ((∀ e ∈ fourCalls, e.InPath) →
      (fourCalls.foldl exec
        (some (init (.new 1 .ip) (.new 1 .mac) (by decide) false true))).isSome = true) :=
  route_cache_usable _ _ _ false true fourCalls (by decide)

end Ledger

end Ns2.Dsr
