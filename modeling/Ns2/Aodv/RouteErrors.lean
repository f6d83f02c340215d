import Ns2.Aodv.Assertions

/-!
# Route errors

What `handle_link_failure` takes down and lists, and what a receiver of the list takes down.  The
list has room for `AODV_MAX_ERRORS` destinations and is counted in a byte.

* `ErrorList`, `walk` — the loop over the table, with the index of every write.
* `handle_link_failure_eq_walk` — `handle_link_failure` is this loop, while it writes inside the list.
* `afterError` — an entry after the destinations of a route error, one after the other.
* `TakesDown`, `ErrorsComplete` — exactly the routes that are lost are taken down and listed.
* `errors_complete_iff` — a failed link is handled so exactly when no more than `AODV_MAX_ERRORS`
  routes lead over it.
-/

namespace Ns2.Aodv

/-- A table that an agent can have: one entry for a destination, and all are sound. -/
structure Rtable.WellFormed (t : Rtable) : Prop where
  nodup : (t.map RtEntry.rt_dst).Nodup
  sound : AllSound t

/-! ## The list -/

/-- The list of a route error while it is written: `DestCount` is a byte, and every write to
`unreachable_dst` and `unreachable_dst_seqno` is kept with its index. -/
structure ErrorList where
  DestCount : ℕ
  writes : List (ℕ × ℤ × ℕ)

namespace ErrorList

def empty : ErrorList := ⟨0, []⟩

def add (re : ErrorList) (x : ℤ × ℕ) : ErrorList :=
  ⟨u8 (re.DestCount + 1), re.writes ++ [(re.DestCount, x)]⟩

/-- What was last written at an index. -/
def read (re : ErrorList) (i : ℕ) : Option (ℤ × ℕ) :=
  (re.writes.reverse.find? fun w => w.1 = i).map Prod.snd

/-- The destinations in the list. -/
def unreachable (re : ErrorList) : List (ℤ × ℕ) := (List.range re.DestCount).filterMap re.read

/-- Destinations are written one after the other. -/
def written (l : List (ℤ × ℕ)) : ErrorList := l.foldl add empty

variable (l : List (ℤ × ℕ)) (x : ℤ × ℕ)

theorem written_append : written (l ++ [x]) = (written l).add x := List.foldl_append

theorem written_DestCount : (written l).DestCount = u8 l.length := by
  induction l using List.reverseRecOn with
  | nil => rfl
  | append_singleton l x ih =>
    rw [written_append, add, ih, List.length_append, List.length_singleton]
    simp only [u8]
    omega

/-- The indices wrap with the byte. -/
theorem written_indices : (written l).writes.map Prod.fst = (List.range l.length).map u8 := by
  induction l using List.reverseRecOn with
  | nil => rfl
  | append_singleton l x ih =>
    rw [written_append, add, List.map_append, ih, List.length_append, List.length_singleton,
      List.range_succ, List.map_append, written_DestCount]
    rfl

theorem read_add_of_ne {re : ErrorList} {i : ℕ} (h : i ≠ re.DestCount) :
    (re.add x).read i = re.read i := by
  rw [read, add, List.reverse_append, List.reverse_singleton, List.singleton_append,
    List.find?_cons_of_neg (by simpa using h.symm), read]

theorem read_add_self (re : ErrorList) : (re.add x).read re.DestCount = some x := by
  rw [read, add, List.reverse_append, List.reverse_singleton, List.singleton_append,
    List.find?_cons_of_pos (by simp), Option.map_some]

/-- While the byte does not wrap, what is written is what is listed. -/
theorem written_unreachable (h : l.length < 256) : (written l).unreachable = l := by
  induction l using List.reverseRecOn with
  | nil => rfl
  | append_singleton l x ih =>
    rw [List.length_append, List.length_singleton] at h
    have hcount : (written l).DestCount = l.length :=
      (written_DestCount l).trans (Nat.mod_eq_of_lt (by omega))
    have hnext : (written (l ++ [x])).DestCount = l.length + 1 := by
      rw [written_DestCount, List.length_append, List.length_singleton, u8, Nat.mod_eq_of_lt h]
    have hbefore : (List.range l.length).filterMap (written (l ++ [x])).read = l := by
      calc (List.range l.length).filterMap (written (l ++ [x])).read
          = (List.range l.length).filterMap (written l).read := by
            refine List.filterMap_congr fun i hi => ?_
            rw [written_append]
            refine read_add_of_ne x (ne_of_lt ?_)
            rw [hcount]
            exact List.mem_range.mp hi
        _ = l := by
            rw [← hcount]
            exact ih (by omega)
    have hself : (written (l ++ [x])).read l.length = some x := by
      rw [written_append, ← hcount]
      exact read_add_self x _
    rw [unreachable, hnext, List.range_succ, List.filterMap_append, hbefore,
      List.filterMap_cons_some hself, List.filterMap_nil]

end ErrorList

/-! ## The loop over the table -/

namespace Agent

/-- One entry in the loop of `handle_link_failure`. -/
def walkEntry (id : ℤ) (s : Rtable × ErrorList) (rt : RtEntry) : Rtable × ErrorList :=
  if routesOver id rt then
    let rt := { rt with rt_seqno := rt.rt_seqno + 1 }
    (s.1 ++ [rt.rt_down.pc_delete id], s.2.add (rt.rt_dst, rt.rt_seqno))
  else (s.1 ++ [rt.pc_delete id], s.2)

/-- The loop: the table afterwards, and the list. -/
def walk (id : ℤ) (t : Rtable) : Rtable × ErrorList := t.foldl (walkEntry id) ([], .empty)

/-- The routes over a neighbor, as they are listed. -/
def lost (id : ℤ) (t : Rtable) : List (ℤ × ℕ) :=
  (t.filter (routesOver id)).map fun rt => (rt.rt_dst, rt.rt_seqno + 1)

theorem lost_append (id : ℤ) (t : Rtable) (rt : RtEntry) :
    lost id (t ++ [rt]) =
      lost id t ++ if routesOver id rt then [(rt.rt_dst, rt.rt_seqno + 1)] else [] := by
  rw [lost, List.filter_append, List.map_append, lost]
  by_cases hover : routesOver id rt = true
  · rw [if_pos hover, List.filter_cons_of_pos hover, List.filter_nil, List.map_singleton]
  · rw [if_neg hover, List.filter_cons_of_neg hover, List.filter_nil, List.map_nil]

theorem walk_eq (id : ℤ) (t : Rtable) :
    walk id t = (t.map (linkFailed id), ErrorList.written (lost id t)) := by
  induction t using List.reverseRecOn with
  | nil => rfl
  | append_singleton t rt ih =>
    have hstep : walk id (t ++ [rt]) = walkEntry id (walk id t) rt := List.foldl_append
    rw [hstep, ih, walkEntry, List.map_append, lost_append, List.map_singleton, linkFailed]
    by_cases hover : routesOver id rt = true
    · rw [if_pos hover, if_pos hover, if_pos hover, ErrorList.written_append]
    · rw [if_neg hover, if_neg hover, if_neg hover, List.append_nil]

/-- No write goes beyond the list exactly when there are not too many routes. -/
theorem writes_lt_iff (id : ℤ) (t : Rtable) :
    (∀ w ∈ (walk id t).2.writes, w.1 < AODV_MAX_ERRORS) ↔ (lost id t).length ≤ AODV_MAX_ERRORS := by
  have hmax : AODV_MAX_ERRORS = 100 := rfl
  have hindices : (∀ w ∈ (walk id t).2.writes, w.1 < AODV_MAX_ERRORS) ↔
      ∀ i < (lost id t).length, u8 i < AODV_MAX_ERRORS := by
    rw [walk_eq, ← List.forall_mem_map (f := Prod.fst) (P := fun i => i < AODV_MAX_ERRORS),
      ErrorList.written_indices, List.forall_mem_map]
    simp only [List.mem_range]
  rw [hindices, hmax]
  constructor
  · intro h
    by_contra hlong
    exact absurd (h 100 (by omega)) (by decide)
  · intro h i hi
    rw [u8]
    omega

/-- **`handle_link_failure` is the loop**, and then the list is sent unless it is empty. -/
theorem handle_link_failure_eq_walk (a : Agent) (id : ℤ)
    (h : ∀ w ∈ (walk id a.rtable).2.writes, w.1 < AODV_MAX_ERRORS) :
    a.handle_link_failure id =
      some ({ a with rtable := (walk id a.rtable).1 },
        if 0 < (walk id a.rtable).2.DestCount then
          [.rerr ⟨(walk id a.rtable).2.unreachable, a.index⟩]
        else []) := by
  have hmax : AODV_MAX_ERRORS = 100 := rfl
  have hlen := (writes_lt_iff id a.rtable).mp h
  have hhandle : a.handle_link_failure id =
      if AODV_MAX_ERRORS < (lost id a.rtable).length then none
      else some ({ a with rtable := a.rtable.map (linkFailed id) },
        if lost id a.rtable = [] then [] else [.rerr ⟨lost id a.rtable, a.index⟩]) := rfl
  have hcount : u8 (lost id a.rtable).length = (lost id a.rtable).length :=
    Nat.mod_eq_of_lt (by omega)
  rw [hhandle, if_neg (not_lt.mpr hlen), walk_eq]
  dsimp only
  rw [ErrorList.written_DestCount, hcount, ErrorList.written_unreachable _ (by omega)]
  by_cases hnil : lost id a.rtable = []
  · rw [if_pos hnil, if_neg (by simp [hnil])]
  · rw [if_neg hnil, if_pos (List.length_pos_iff.mpr hnil)]

/-! ## The receiver -/

/-- An entry that is taken down for a destination of a route error. -/
def taken (s : ℕ) (rt : RtEntry) : RtEntry :=
  { { rt with rt_seqno := s }.rt_down with rt_pclist := [] }

/-- The entry leads over the sender to a destination of the route error, and is not fresher. -/
def Hit (saddr : ℤ) (rt : RtEntry) (x : ℤ × ℕ) : Prop :=
  rt.rt_dst = x.1 ∧ rt.rt_hops ≠ INFINITY2 ∧ rt.rt_nexthop = saddr ∧ rt.rt_seqno ≤ x.2

instance (saddr : ℤ) (rt : RtEntry) (x : ℤ × ℕ) : Decidable (Hit saddr rt x) :=
  inferInstanceAs (Decidable (_ ∧ _))

/-- An entry after the destinations of a route error, one after the other. -/
def afterError (saddr : ℤ) (l : List (ℤ × ℕ)) (rt : RtEntry) : RtEntry :=
  l.foldl (fun rt x => if Hit saddr rt x then taken x.2 rt else rt) rt

variable {saddr : ℤ} {l : List (ℤ × ℕ)} {rt : RtEntry} {x : ℤ × ℕ} {s : ℕ}

theorem taken_dst : (taken s rt).rt_dst = rt.rt_dst := RtEntry.rt_dst_rt_down

/-- A route that is up is taken down, with the sequence number listed. -/
theorem taken_of_up (h : rt.rt_flags = .up) :
    (taken s rt).rt_flags = .down ∧ (taken s rt).rt_hops = INFINITY2 ∧ (taken s rt).rt_seqno = s := by
  have hdown : { rt with rt_seqno := s }.rt_down = { { rt with rt_seqno := s } with
      rt_last_hop_count := rt.rt_hops, rt_hops := INFINITY2, rt_flags := .down, rt_nexthop := 0
      rt_expire := 0 } := if_neg (by simp [h])
  rw [taken, hdown]
  exact ⟨rfl, rfl, rfl⟩

theorem afterError_cons :
    afterError saddr (x :: l) rt =
      afterError saddr l (if Hit saddr rt x then taken x.2 rt else rt) := rfl

/-- An entry that no destination hits stays as it is. -/
theorem afterError_of_not (h : ∀ x ∈ l, ¬ Hit saddr rt x) : afterError saddr l rt = rt := by
  induction l with
  | nil => rfl
  | cons x l ih =>
    rw [afterError_cons, if_neg (h x List.mem_cons_self)]
    exact ih fun y hy => h y (List.mem_cons_of_mem _ hy)

/-- One that is hit is taken down: only its own destination hits it. -/
theorem afterError_of_hit (hn : (l.map Prod.fst).Nodup) (hx : x ∈ l) (h : Hit saddr rt x) :
    afterError saddr l rt = taken x.2 rt := by
  induction l with
  | nil => exact absurd hx List.not_mem_nil
  | cons y l ih =>
    rw [List.map_cons, List.nodup_cons] at hn
    rw [afterError_cons]
    have hother : ∀ {z : ℤ × ℕ}, z ∈ l → z.1 ≠ y.1 := fun hz heq =>
      hn.1 (heq ▸ List.mem_map_of_mem hz)
    rcases List.mem_cons.mp hx with rfl | hx
    · rw [if_pos h]
      refine afterError_of_not fun z hz hhit => hother hz ?_
      exact hhit.1.symm.trans (taken_dst.trans h.1)
    · rw [if_neg fun hhit => hother hx (h.1.symm.trans hhit.1)]
      exact ih hn.2 hx

/-- One destination of a route error, for all entries. -/
theorem errorEntry_rtable {r : Agent × List (ℤ × ℕ)} (hn : (r.1.rtable.map RtEntry.rt_dst).Nodup) :
    (errorEntry saddr r x).1.rtable =
      r.1.rtable.map fun rt => if Hit saddr rt x then taken x.2 rt else rt := by
  have hsame : (∀ rt ∈ r.1.rtable, ¬ Hit saddr rt x) → r.1.rtable =
      r.1.rtable.map fun rt => if Hit saddr rt x then taken x.2 rt else rt := by
    intro hnot
    conv_lhs => rw [← List.map_id r.1.rtable]
    exact List.map_congr_left fun rt hrt => (if_neg (hnot rt hrt)).symm
  unfold errorEntry
  cases he : r.1.rt_lookup x.1 with
  | none =>
    refine hsame fun rt hrt hhit => ?_
    exact List.find?_eq_none.mp he rt hrt (decide_eq_true hhit.1)
  | some e =>
    have hentry : ∀ rt ∈ r.1.rtable, rt.rt_dst = x.1 → rt = e := fun rt hrt hdst =>
      eq_of_lookup hn he hrt hdst
    dsimp only
    by_cases hmatch : e.rt_hops ≠ INFINITY2 ∧ e.rt_nexthop = saddr ∧ e.rt_seqno ≤ x.2
    · rw [if_pos hmatch]
      refine List.map_congr_left fun rt hrt => ?_
      by_cases hdst : rt.rt_dst = x.1
      · obtain rfl := hentry rt hrt hdst
        rw [if_pos hdst, if_pos ⟨hdst, hmatch⟩, taken]
      · rw [if_neg hdst, if_neg fun hhit => hdst hhit.1]
    · rw [if_neg hmatch]
      refine hsame fun rt hrt hhit => hmatch ?_
      obtain rfl := hentry rt hrt hhit.1
      exact hhit.2

theorem recvError_rtable {b : Agent} {re : RouteError} (hn : (b.rtable.map RtEntry.rt_dst).Nodup) :
    (b.recvError re).1.rtable = b.rtable.map (afterError re.saddr re.unreachable) := by
  have hfold : ∀ (l : List (ℤ × ℕ)) (r : Agent × List (ℤ × ℕ)),
      (r.1.rtable.map RtEntry.rt_dst).Nodup →
      (l.foldl (errorEntry re.saddr) r).1.rtable = r.1.rtable.map (afterError re.saddr l) := by
    intro l
    induction l with
    | nil => exact fun r _ => (List.map_id _).symm
    | cons x l ih =>
      intro r hr
      have hstep : (errorEntry re.saddr r x).1.rtable = _ := errorEntry_rtable hr
      rw [List.foldl_cons, ih, hstep, List.map_map]
      · rfl
      · rw [hstep, map_rt_dst]
        · exact hr
        · intro rt
          split_ifs
          exacts [taken_dst, rfl]
  exact hfold _ _ hn

end Agent

/-! ## What is taken down -/

/-- Exactly the routes that are lost are taken down, each with a sequence number; the others keep
what matters of them. -/
def TakesDown (lost : RtEntry → ℕ → Prop) : Rtable → Rtable → Prop :=
  List.Forall₂ fun rt rt' => rt'.rt_dst = rt.rt_dst ∧
    (∀ s, lost rt s → rt'.rt_flags = .down ∧ rt'.rt_hops = INFINITY2 ∧ rt'.rt_seqno = s) ∧
    ((∀ s, ¬ lost rt s) → rt'.key = rt.key)

theorem takesDown_map {lost : RtEntry → ℕ → Prop} {t : Rtable} {f : RtEntry → RtEntry}
    (hdst : ∀ rt, (f rt).rt_dst = rt.rt_dst)
    (hlost : ∀ rt ∈ t, ∀ s, lost rt s →
      (f rt).rt_flags = .down ∧ (f rt).rt_hops = INFINITY2 ∧ (f rt).rt_seqno = s)
    (hkept : ∀ rt ∈ t, (∀ s, ¬ lost rt s) → (f rt).key = rt.key) : TakesDown lost t (t.map f) := by
  rw [TakesDown, List.forall₂_map_right_iff, List.forall₂_same]
  exact fun rt hrt => ⟨hdst rt, hlost rt hrt, hkept rt hrt⟩

/-- The routes over `id` are lost when the link fails. -/
def LostWith (id : ℤ) (rt : RtEntry) (s : ℕ) : Prop :=
  rt.rt_flags = .up ∧ rt.rt_nexthop = id ∧ s = rt.rt_seqno + 1

/-- The routes over the sender to a destination that is listed are lost, unless they are fresher. -/
def LostBy (re : RouteError) (rt : RtEntry) (s : ℕ) : Prop :=
  rt.rt_flags = .up ∧ rt.rt_nexthop = re.saddr ∧ (rt.rt_dst, s) ∈ re.unreachable ∧ rt.rt_seqno ≤ s

/-- **A failed link is handled completely**: no write goes beyond the list, exactly the routes over the
neighbor are taken down, each is listed once, and a receiver takes down exactly the routes it loses. -/
structure ErrorsComplete (a : Agent) (id : ℤ) : Prop where
  inBounds : ∀ w ∈ (Agent.walk id a.rtable).2.writes, w.1 < AODV_MAX_ERRORS
  handled : ∃ a' l, a.handle_link_failure id =
      some (a', if l = [] then [] else [.rerr ⟨l, a.index⟩]) ∧
    TakesDown (LostWith id) a.rtable a'.rtable ∧
    (l.map Prod.fst).Nodup ∧
    (∀ x, x ∈ l ↔ ∃ rt ∈ a.rtable, rt.rt_dst = x.1 ∧ LostWith id rt x.2) ∧
    ∀ (b : Agent) (now : ℚ), b.rtable.WellFormed →
      TakesDown (LostBy ⟨l, a.index⟩) b.rtable (b.recvAODV (.rerr ⟨l, a.index⟩) now).1.rtable

namespace Agent

variable {a : Agent} {id : ℤ}

theorem routesOver_iff {rt : RtEntry} (h : rt.Sound) :
    routesOver id rt = true ↔ rt.rt_flags = .up ∧ rt.rt_nexthop = id := by
  rw [routesOver, decide_eq_true_eq, h.up_iff]

theorem mem_lost {t : Rtable} (h : AllSound t) (x : ℤ × ℕ) :
    x ∈ lost id t ↔ ∃ rt ∈ t, rt.rt_dst = x.1 ∧ LostWith id rt x.2 := by
  simp only [lost, List.mem_map, List.mem_filter]
  constructor
  · rintro ⟨rt, ⟨hrt, hover⟩, rfl⟩
    obtain ⟨hup, hnext⟩ := (routesOver_iff (h rt hrt)).mp hover
    exact ⟨rt, hrt, rfl, hup, hnext, rfl⟩
  · rintro ⟨rt, hrt, hdst, hup, hnext, hs⟩
    exact ⟨rt, ⟨hrt, (routesOver_iff (h rt hrt)).mpr ⟨hup, hnext⟩⟩, Prod.ext hdst hs.symm⟩

theorem nodup_lost {t : Rtable} (h : (t.map RtEntry.rt_dst).Nodup) :
    ((lost id t).map Prod.fst).Nodup := by
  rw [lost, List.map_map]
  exact (List.filter_sublist.map _).nodup h

/-- What a failed link does to the table. -/
theorem takesDown_linkFailed {t : Rtable} (h : AllSound t) :
    TakesDown (LostWith id) t (t.map (linkFailed id)) := by
  refine takesDown_map rt_dst_linkFailed (fun rt hrt s hlost => ?_) fun rt hrt hnot => ?_
  · obtain ⟨hup, hnext, rfl⟩ := hlost
    have hfields := taken_of_up (s := rt.rt_seqno + 1) hup
    rw [linkFailed, if_pos ((routesOver_iff (h rt hrt)).mpr ⟨hup, hnext⟩)]
    exact hfields
  · rw [linkFailed, if_neg]
    · rfl
    · intro hover
      obtain ⟨hup, hnext⟩ := (routesOver_iff (h rt hrt)).mp hover
      exact hnot _ ⟨hup, hnext, rfl⟩

/-- What a route error does to the table of a receiver. -/
theorem takesDown_recvError {b : Agent} {re : RouteError} (h : b.rtable.WellFormed)
    (hn : (re.unreachable.map Prod.fst).Nodup) :
    TakesDown (LostBy re) b.rtable (b.recvError re).1.rtable := by
  have hhit : ∀ rt ∈ b.rtable, ∀ x ∈ re.unreachable,
      Hit re.saddr rt x ↔ rt.rt_dst = x.1 ∧ LostBy re rt x.2 := by
    intro rt hrt x hx
    have hup := (h.sound rt hrt).up_iff
    constructor
    · rintro ⟨hdst, hhops, hnext, hs⟩
      exact ⟨hdst, hup.mpr hhops, hnext, by rw [hdst]; exact hx, hs⟩
    · rintro ⟨hdst, hflags, hnext, -, hs⟩
      exact ⟨hdst, hup.mp hflags, hnext, hs⟩
  rw [recvError_rtable h.nodup]
  refine takesDown_map (fun rt => ?_) (fun rt hrt s hlost => ?_) fun rt hrt hnot => ?_
  · exact List.foldlRecOn (motive := fun e : RtEntry => e.rt_dst = rt.rt_dst) _ _ rfl
      fun e he x _ => by split_ifs; exacts [taken_dst.trans he, he]
  · have hx : (rt.rt_dst, s) ∈ re.unreachable := hlost.2.2.1
    rw [afterError_of_hit hn hx ((hhit rt hrt _ hx).mpr ⟨rfl, hlost⟩)]
    exact taken_of_up hlost.1
  · rw [afterError_of_not fun x hx hh => hnot _ ((hhit rt hrt x hx).mp hh).2]

end Agent

/-- **Route errors are complete** exactly when no more than `AODV_MAX_ERRORS` valid routes lead over the
neighbor: one more is written behind the list. -/
theorem errors_complete_iff (a : Agent) (id : ℤ) (h : a.rtable.WellFormed) :
    ErrorsComplete a id ↔
      (a.rtable.filter fun rt => rt.rt_flags = .up ∧ rt.rt_nexthop = id).length ≤ AODV_MAX_ERRORS := by
  have hlen : (Agent.lost id a.rtable).length =
      (a.rtable.filter fun rt => rt.rt_flags = .up ∧ rt.rt_nexthop = id).length := by
    rw [Agent.lost, List.length_map]
    congr 1
    refine List.filter_congr fun rt hrt => ?_
    rw [Bool.eq_iff_iff, Agent.routesOver_iff (h.sound rt hrt), decide_eq_true_eq]
  rw [← hlen]
  constructor
  · exact fun hc => (Agent.writes_lt_iff id a.rtable).mp hc.inBounds
  · intro hle
    have hhandle : a.handle_link_failure id =
        some ({ a with rtable := a.rtable.map (Agent.linkFailed id) },
          if Agent.lost id a.rtable = [] then [] else [.rerr ⟨Agent.lost id a.rtable, a.index⟩]) :=
      if_neg (not_lt.mpr hle)
    exact
      { inBounds := (Agent.writes_lt_iff id a.rtable).mpr hle
        handled := ⟨_, _, hhandle, Agent.takesDown_linkFailed h.sound, Agent.nodup_lost h.nodup,
          Agent.mem_lost h.sound, fun b _ hb => Agent.takesDown_recvError hb (Agent.nodup_lost h.nodup)⟩ }

/-! ## Two tables -/

/-- A table with `n` routes over the neighbor `1`. -/
def starRoutes (n : ℕ) : Rtable :=
  (List.range n).map fun k : ℕ => (RtEntry.new (k + 2)).rt_update 2 2 1 10

theorem wellFormed_starRoutes (n : ℕ) : (starRoutes n).WellFormed where
  nodup := by
    have hmap : (starRoutes n).map RtEntry.rt_dst = (List.range n).map fun k : ℕ => (k : ℤ) + 2 := by
      rw [starRoutes, List.map_map]
      rfl
    rw [hmap]
    exact List.nodup_range.map fun j k h => by simpa using h
  sound := by
    intro e he
    obtain ⟨k, -, rfl⟩ := List.mem_map.mp he
    exact ⟨iff_of_true rfl (by decide : 2 ≠ INFINITY2), fun _ => (by decide : 2 % 2 = 0)⟩

/-- A hundred routes fit. -/
theorem errors_complete_iff_hundred :
    ErrorsComplete { Agent.new 0 with rtable := starRoutes 100 } 1 :=
  (errors_complete_iff _ _ (wellFormed_starRoutes 100)).mpr (by decide +kernel)

/-- **One more does not**: the write for it has the index `AODV_MAX_ERRORS`. -/
theorem hundred_one_routes_overflow :
    (starRoutes 101).WellFormed ∧
      ¬ ErrorsComplete { Agent.new 0 with rtable := starRoutes 101 } 1 := by
  refine ⟨wellFormed_starRoutes 101, fun hc => ?_⟩
  have hle := (Agent.writes_lt_iff _ _).mp hc.inBounds
  exact absurd hle (by decide +kernel)

end Ns2.Aodv
