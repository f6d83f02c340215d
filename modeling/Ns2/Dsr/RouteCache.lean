import Mathlib

/-!
# The route cache of DSR

`MobiCache` of `dsr/mobicache.cc`, with what `dsr/routecache.cc` does to a route before it is added
and with the paths of `dsr/path.h`.  The provider of a path, which is only traced, and the
statistics are left out.

* `ID`, `Path` — a node with the state of the link after it, and a path of such nodes.
* `Cache` — the paths, and which of them is the next victim.
* `Cache.addRoute`, `Cache.noticeDeadLink`, `Cache.searchRoute` — the operations of one cache.
* `MobiCache` — the primary and the secondary cache.
* `MobiCache.findRoute` — a shortest path; it may be promoted to the primary cache.
-/

namespace Ns2.Dsr

/-! ## Paths -/

/-- The longest source route. -/
def MAX_SR_LEN : ℕ := 16

/-- The kind of an address. -/
inductive IDType where
  | none
  | mac
  | ip
  deriving DecidableEq

/-- Whether a link is known to work. -/
inductive LinkType where
  | none
  | tested
  | untested
  deriving DecidableEq

/-- State for tracing. -/
inductive LogStatus where
  | none
  | unlogged
  | logged
  deriving DecidableEq

/-- A node of a path. -/
structure ID where
  addr : ℕ
  type : IDType
  /-- When the node was added to the route. -/
  t : ℚ
  link_type : LinkType
  log_stat : LogStatus
  deriving DecidableEq

namespace ID

/-- The constructor. -/
def new (name : ℕ) (type : IDType) : ID := ⟨name, type, -1, .none, .none⟩

/-- What the operator `==` compares. -/
def key (x : ID) : IDType × ℕ := (x.type, x.addr)

/-- The id of a node that is not configured. -/
def invalid_addr : ID := new 0xffffffff .none

/-- The link is not logged. -/
def unlogged (x : ID) : ID := { x with log_stat := .unlogged }

/-- The link is not tested. -/
def untested (x : ID) : ID := { x with link_type := .untested }

end ID

/-- A path, in an array of `MAX_SR_LEN` nodes. -/
structure Path where
  path : List ID
  cur_index : ℤ
  length_le : path.length ≤ MAX_SR_LEN

namespace Path

/-- A new path. -/
def empty : Path := ⟨[], 0, Nat.zero_le _⟩

/-- The nodes, as `==` sees them. -/
def keys (p : Path) : List (IDType × ℕ) := p.path.map ID.key

/-- `length()`. -/
def length (p : Path) : ℕ := p.path.length

/-- `setLength(l)`, where `l` is at most the length. -/
def setLength (p : Path) (l : ℕ) : Path :=
  { p with
    path := p.path.take l
    length_le := (List.length_take_le' l p.path).trans p.length_le }

/-- One node changes. -/
def modify (p : Path) (n : ℕ) (f : ID → ID) : Path :=
  { p with
    path := p.path.modify n f
    length_le := by
      rw [List.length_modify]
      exact p.length_le }

/-- `appendToPath(id)`; the assertion fails for a path that is full. -/
def appendToPath (p : Path) (x : ID) : Option Path :=
  if h : p.path.length < MAX_SR_LEN then
    some { p with path := p.path ++ [x], length_le := by simpa using h }
  else none

/-- `CopyIntoPath(to, from, start, from.length() - 1)`, for a path `to` that is empty. -/
def copyIntoPath (src : Path) (start : ℕ) : Path where
  path := src.path.drop start
  cur_index := 0
  length_le := by
    have := src.length_le
    rw [List.length_drop]
    omega

/-- The nodes of a path from `n` on are appended to a path of `n` nodes.  There is room for them. -/
def appendRest (c p : Path) (n : ℕ) (hc : n = c.path.length) (hp : n ≤ p.path.length) : Path :=
  { c with
    path := c.path ++ p.path.drop n
    length_le := by
      have := p.length_le
      rw [List.length_append, List.length_drop]
      omega }

end Path

/-! ## One cache -/

/-- Number of nodes at the start of two paths that are the same. -/
def commonPrefix : List ID → List ID → ℕ
  | x :: c, y :: p => if x.key = y.key then commonPrefix c p + 1 else 0
  | _, _ => 0

theorem commonPrefix_le : ∀ c p : List ID, commonPrefix c p ≤ p.length
  | [], p => Nat.zero_le _
  | _ :: _, [] => le_rfl
  | x :: c, y :: p => by
    rw [commonPrefix]
    split
    · exact Nat.succ_le_succ (commonPrefix_le c p)
    · exact Nat.zero_le _

/-- `addRoute` sees if the route is already in the cache: the first path that the route contains is
extended, unless a path that contains the route comes first. -/
def extend (p : Path) : List Path → Option (List Path × ℕ)
  | [] => none
  | c :: l =>
    if h : commonPrefix c.path p.path = c.path.length then
      some (c.appendRest p _ h (commonPrefix_le c.path p.path) :: l, commonPrefix c.path p.path)
    else if commonPrefix c.path p.path = p.path.length then
      some (c :: l, commonPrefix c.path p.path)
    else (extend p l).map fun x => (c :: x.1, x.2)

/-- The timestamps on the links at the start of a path that a route has too. -/
def freshenLinks : List ID → List ID → List ID
  | x :: x' :: c, y :: y' :: p =>
    if x.key = y.key then
      (if x'.key = y'.key then { x with t := y.t, link_type := y.link_type } else x) ::
        freshenLinks (x' :: c) (y' :: p)
    else x :: x' :: c
  | c, _ => c

theorem freshenLinks_keys : ∀ c p : List ID, (freshenLinks c p).map ID.key = c.map ID.key
  | [], _ => by simp [freshenLinks]
  | [_], _ => by simp [freshenLinks]
  | _ :: _ :: _, [] => by simp [freshenLinks]
  | _ :: _ :: _, [_] => by simp [freshenLinks]
  | x :: x' :: c, y :: y' :: p => by
    rw [freshenLinks]
    split
    · rw [List.map_cons, freshenLinks_keys (x' :: c) (y' :: p)]
      split <;> rfl
    · rfl

/-- A path is freshened. -/
def Path.freshen (p c : Path) : Path :=
  { c with
    path := freshenLinks c.path p.path
    length_le := by
      have := congrArg List.length (freshenLinks_keys c.path p.path)
      rw [List.length_map, List.length_map] at this
      exact this ▸ c.length_le }

/-- Position of the link `src → dst` in a path. -/
def deadIndex (src dst : ID) : List ID → Option ℕ
  | x :: y :: l =>
    if x.key = src.key ∧ y.key = dst.key then some 0
    else (deadIndex src dst (y :: l)).map (· + 1)
  | _ => none

/-- A path is truncated at the link, or killed if this is the first one. -/
def Path.truncate (src dst : ID) (p : Path) : Path :=
  match deadIndex src dst p.path with
  | none => p
  | some 0 => Path.empty
  | some (n + 1) => (p.setLength (n + 2)).modify (n + 1) ID.unlogged

/-- The paths; some may be empty. -/
structure Cache where
  cache : List Path
  /-- Next victim for eviction. -/
  victim_ptr : ℕ
  ptr_lt : victim_ptr < cache.length

namespace Cache

/-- The constructor. -/
def new (size : ℕ) (h : 0 < size) : Cache := ⟨List.replicate size Path.empty, 0, by simpa using h⟩

/-- `pickVictim()`: an empty path, or the next victim; and the victim after it. -/
def pickVictim (k : Cache) : ℕ × ℕ :=
  match k.cache.findIdx? fun c => c.length = 0 with
  | some c => (c, k.victim_ptr)
  | none => (k.victim_ptr, if k.victim_ptr + 1 = k.cache.length then 0 else k.victim_ptr + 1)

theorem pickVictim_lt (k : Cache) : k.pickVictim.2 < k.cache.length := by
  have := k.ptr_lt
  unfold pickVictim
  split
  · exact k.ptr_lt
  · dsimp only
    split <;> omega

/-- The paths after the route was added, the next victim, and the length of the common prefix. -/
def placeRoute (k : Cache) (p : Path) : List Path × ℕ × ℕ :=
  match extend p k.cache with
  | some x => (x.1, k.victim_ptr, x.2)
  | none => (k.cache.set k.pickVictim.1 (p.copyIntoPath 0), k.pickVictim.2, 0)

theorem length_extend {p : Path} {l l' : List Path} {n : ℕ} (h : extend p l = some (l', n)) :
    l'.length = l.length := by
  induction l generalizing l' with
  | nil => cases h
  | cons c l ih =>
    rw [extend] at h
    split at h
    · cases h
      rfl
    · split at h
      · cases h
        rfl
      · obtain ⟨x, hx, heq⟩ := Option.map_eq_some_iff.mp h
        cases heq
        rw [List.length_cons, List.length_cons, ih hx]

theorem placeRoute_lt (k : Cache) (p : Path) :
    (k.placeRoute p).2.1 < (k.placeRoute p).1.length := by
  unfold placeRoute
  split
  · rename_i x hx
    exact (length_extend hx).symm ▸ k.ptr_lt
  · rw [List.length_set]
    exact k.pickVictim_lt

/-- `addRoute(path, common_prefix_len)`. -/
def addRoute (k : Cache) (p : Path) : Cache × ℕ :=
  ({ cache := (k.placeRoute p).1.map p.freshen
     victim_ptr := (k.placeRoute p).2.1
     ptr_lt := by
      rw [List.length_map]
      exact k.placeRoute_lt p }, (k.placeRoute p).2.2)

/-- `noticeDeadLink(from, to)`. -/
def noticeDeadLink (k : Cache) (src dst : ID) : Cache :=
  { k with
    cache := k.cache.map (Path.truncate src dst)
    ptr_lt := by
      rw [List.length_map]
      exact k.ptr_lt }

/-- The path at `index` is killed; what its length is set to before does not matter. -/
def kill (k : Cache) (index : ℕ) : Cache :=
  { k with
    cache := k.cache.modify index (Path.setLength · 0)
    ptr_lt := by
      rw [List.length_modify]
      exact k.ptr_lt }

end Cache

/-- `searchRoute` has found a path: `path` is the one at `index`, and has the node at `i`. -/
structure Hit where
  i : ℕ
  path : Path
  index : ℕ

namespace Cache

/-- The node in the path at `index`. -/
def hit (k : Cache) (dest : ID) (index : ℕ) : Option Hit :=
  k.cache[index]?.bind fun c =>
    (c.path.findIdx? fun x => x.key = dest.key).map fun n => ⟨n, c, index⟩

/-- `searchRoute(dest, i, path, index)`. -/
def searchRoute (k : Cache) (dest : ID) (index : ℕ) : Option Hit :=
  ((List.range k.cache.length).drop index).findSome? (k.hit dest)

/-- The loop over the paths that `searchRoute` finds from `index` on, for at most `fuel` turns. -/
def eachRoute {σ : Type} (k : Cache) (dest : ID) (f : σ → Hit → σ) : ℕ → ℕ → σ → σ
  | 0, _, b => b
  | fuel + 1, index, b =>
    match k.searchRoute dest index with
    | some x => eachRoute k dest f fuel (x.index + 1) (f b x)
    | none => b

end Cache

/-! ## The two caches -/

/-- A route cache. -/
structure MobiCache where
  net_id : ID
  /-- The assertion that the node is configured. -/
  valid : net_id.key ≠ ID.invalid_addr.key
  MAC_id : ID
  /-- Ignore all hints? -/
  cache_ignore_hints : Bool
  /-- Add routes that are overheard? -/
  cache_use_overheard_routes : Bool
  /-- Routes that we are using. -/
  primary_cache : Cache
  /-- Routes learned via a speculative process. -/
  secondary_cache : Cache

/-- The nodes of a route are stamped; the links after `who_from` are not tested. -/
def stamp (t : ℚ) (who_from : ID) : LinkType → List ID → List ID
  | _, [] => []
  | kind, x :: l =>
    let kind := if x.key = who_from.key then .untested else kind
    { x with log_stat := .unlogged, link_type := kind, t := t } :: stamp t who_from kind l

theorem stamp_keys (t : ℚ) (who_from : ID) (kind : LinkType) (l : List ID) :
    (stamp t who_from kind l).map ID.key = l.map ID.key := by
  induction l generalizing kind with
  | nil => rfl
  | cons x l ih => exact congrArg (x.key :: ·) (ih _)

/-- A route is stamped. -/
def Path.stamp (t : ℚ) (who_from : ID) (p : Path) : Path :=
  { p with
    path := Dsr.stamp t who_from .tested p.path
    length_le := by
      have := congrArg List.length (stamp_keys t who_from .tested p.path)
      rw [List.length_map, List.length_map] at this
      exact this ▸ p.length_le }

/-- Nodes are appended until the path is full. -/
def Path.appendUntilFull : Path → List ID → Path
  | p, [] => p
  | p, x :: l =>
    match p.appendToPath x with
    | some p => p.appendUntilFull l
    | none => p

namespace MobiCache

/-- The constructor. -/
def new (net_id MAC_id : ID) (h : net_id.key ≠ ID.invalid_addr.key)
    (ignore_hints use_overheard : Bool) : MobiCache :=
  ⟨net_id, h, MAC_id, ignore_hints, use_overheard, .new 30 (by decide), .new 64 (by decide)⟩

/-- The id is one of this node. -/
def Own (m : MobiCache) (x : IDType × ℕ) : Prop := x = m.net_id.key ∨ x = m.MAC_id.key

instance (m : MobiCache) (x : IDType × ℕ) : Decidable (m.Own x) :=
  inferInstanceAs (Decidable (_ ∨ _))

/-- `pre_addRoute(route, rt, t, who_from)`: the route to be added, if it starts with this node. -/
def preAddRoute (m : MobiCache) (route : Path) (t : ℚ) (who_from : ID) : Option Path :=
  if route.length < 2 then none
  else if (route.path.head?.any fun x => m.Own x.key) = false then none
  else some (route.stamp t who_from)

/-- `pre_noticeRouteUsed(p, stub, t, who_from)`: the route to be added is the part of the path from
this node on, or a link to the node that the packet was heard from and the part from there on.  An
assertion fails if the index into the path is negative. -/
def preNoticeRouteUsed (m : MobiCache) (p : Path) (t : ℚ) (who_from : ID) : Option (Option Path) :=
  if p.length < 2 then some none
  else if m.cache_ignore_hints = true then some none
  else
    match p.path.findIdx? fun x => m.Own x.key with
    | some c =>
      if c = p.length - 1 then some none
      else some (some ((p.copyIntoPath c).stamp t who_from))
    | none =>
      if m.cache_use_overheard_routes then
        if p.cur_index = 0 then some none
        else if p.cur_index < 0 then none
        else
          let stub : Path := ⟨[m.net_id], 0, Nat.succ_le_of_lt (Nat.succ_pos 15)⟩
          let stub := stub.appendUntilFull (p.path.drop (p.cur_index - 1).toNat)
          some (some ((stub.stamp t who_from).modify 0 ID.untested))
      else some none

/-- `addRoute(route, t, who_from)`. -/
def addRoute (m : MobiCache) (route : Path) (t : ℚ) (who_from : ID) : MobiCache :=
  match m.preAddRoute route t who_from with
  | some rt => { m with primary_cache := (m.primary_cache.addRoute rt).1 }
  | none => m

/-- `noticeRouteUsed(p, t, who_from)`. -/
def noticeRouteUsed (m : MobiCache) (p : Path) (t : ℚ) (who_from : ID) : Option MobiCache :=
  (m.preNoticeRouteUsed p t who_from).map fun stub? =>
    match stub? with
    | some stub => { m with secondary_cache := (m.secondary_cache.addRoute stub).1 }
    | none => m

/-- `noticeDeadLink(from, to, t)`. -/
def noticeDeadLink (m : MobiCache) (src dst : ID) : MobiCache :=
  { m with
    primary_cache := m.primary_cache.noticeDeadLink src dst
    secondary_cache := m.secondary_cache.noticeDeadLink src dst }

/-- The variables of `findRoute`. -/
structure Best where
  min_index : ℤ
  min_length : ℕ
  /-- 2 == primary, 1 = secondary. -/
  min_cache : ℕ
  route : Path

/-- A path of the primary cache. -/
def Best.primary (b : Best) (x : Hit) : Best :=
  if x.i < b.min_length then { b with min_cache := 2, min_length := x.i, route := x.path }
  else { b with min_cache := 2 }

/-- A path of the secondary cache. -/
def Best.secondary (b : Best) (x : Hit) : Best :=
  if x.i < b.min_length then ⟨x.index, x.i, 1, x.path⟩ else b

/-- The shortest path; every turn of a loop goes on to another path. -/
def best (m : MobiCache) (dest : ID) : Best :=
  m.secondary_cache.eachRoute dest Best.secondary (m.secondary_cache.cache.length + 1) 0
    (m.primary_cache.eachRoute dest Best.primary (m.primary_cache.cache.length + 1) 0
      ⟨-1, MAX_SR_LEN + 1, 0, Path.empty⟩)

/-- Promote the found route to the primary cache. -/
def promote (m : MobiCache) (index : ℕ) : MobiCache :=
  match m.secondary_cache.cache[index]? with
  | some p =>
    { m with
      primary_cache := (m.primary_cache.addRoute p).1
      secondary_cache := m.secondary_cache.kill index }
  | none => m

/-- `findRoute(dest, route, for_me)`, with the route that is found. -/
def findRoute (m : MobiCache) (dest : ID) (for_me : Bool) : MobiCache × Option Path :=
  let b := m.best dest
  let m := if b.min_cache = 1 ∧ for_me = true then m.promote b.min_index.toNat else m
  if b.min_cache ≠ 0 then (m, some (b.route.setLength (b.min_length + 1))) else (m, none)

end MobiCache

end Ns2.Dsr
