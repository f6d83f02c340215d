import Mathlib
import Ns2.Lib.DistanceVector
import Ns2.Aodv.Agent

/-!
# AODV is loop-free, as long as no local repair times out

* `routeOf`, `Agent.Tidy` — the route of an entry with its label, and what holds of the entries.
* `Message.WellFormed`, `Message.advert` — what holds of the messages, and what they promise.
* `Reacts` — what an agent may do to its routes, and the messages it may send.
* `sendRequest_spec`, `recvRequest_spec`, `recvReply_spec`, … — one lemma for each function.
* `aodv_loop_free` — every run in which no local repair times out and no hop count wraps.
* `failed_repair_taken` — a loop, when a local repair times out.
-/

namespace Ns2.Aodv

open DistanceVector

/-! ## Entries -/

section Entries

variable {M : Set (ℤ × (ℕᵒᵈ ×ₗ ℕ))} {d : ℤ} {e e' : RtEntry}

/-- The route of an entry: its label, and its next hop if it is up. -/
def RtEntry.route (e : RtEntry) : Route ℤ (ℕᵒᵈ ×ₗ ℕ) :=
  ⟨seqLabel e.rt_seqno e.rt_hops, if e.rt_flags = .up then some e.rt_nexthop else none⟩

/-- The fields that matter for routes. -/
def RtEntry.key (e : RtEntry) : ℤ × ℕ × ℕ × RtFlags × ℤ :=
  (e.rt_dst, e.rt_seqno, e.rt_hops, e.rt_flags, e.rt_nexthop)

/-- A route that is down has an odd sequence number, a valid one an even one. -/
structure RtEntry.Tidy (e : RtEntry) : Prop where
  hops_le : e.rt_hops ≤ INFINITY2
  down : e.rt_flags = .down → e.rt_hops = INFINITY2 ∧ (e.rt_seqno % 2 = 1 ∨ e.rt_seqno = 0)
  valid : e.rt_flags = .up ∨ e.rt_hops ≠ INFINITY2 → e.rt_seqno % 2 = 0 ∧ 0 < e.rt_seqno

/-- A tidy entry may become this one. -/
def RtEntry.Moves (M : Set (ℤ × (ℕᵒᵈ ×ₗ ℕ))) (d : ℤ) (e e' : RtEntry) : Prop :=
  e'.Tidy ∧ Adopts M d (some e.route) (some e'.route)

theorem RtEntry.tidy_new (id : ℤ) : (RtEntry.new id).Tidy where
  hops_le := le_rfl
  down _ := ⟨rfl, Or.inr rfl⟩
  valid h := absurd h (by simp [RtEntry.new])

theorem RtEntry.tidy_of_key (h : e'.key = e.key) (he : e.Tidy) : e'.Tidy := by
  simp only [RtEntry.key, Prod.mk.injEq] at h
  obtain ⟨-, hs, hh, hf, -⟩ := h
  exact ⟨hh ▸ he.hops_le, hs ▸ hh ▸ hf ▸ he.down, hs ▸ hh ▸ hf ▸ he.valid⟩

theorem RtEntry.route_of_key (h : e'.key = e.key) : e'.route = e.route := by
  simp only [RtEntry.key, Prod.mk.injEq] at h
  obtain ⟨-, hs, hh, hf, hn⟩ := h
  rw [RtEntry.route, RtEntry.route, hs, hh, hf, hn]

theorem RtEntry.Moves.refl (he : e.Tidy) : e.Moves M d e := ⟨he, Adopts.refl _⟩

theorem RtEntry.Moves.of_key (he : e.Tidy) (h : e'.key = e.key) : e.Moves M d e' :=
  ⟨RtEntry.tidy_of_key h he, by rw [RtEntry.route_of_key h]; exact Adopts.refl _⟩

/-- A fresher route goes up, over a node that has advertised it with one hop less. -/
theorem RtEntry.Moves.update {s m : ℕ} {next : ℤ} (hfresh : e.fresher s m)
    (hs : s % 2 = 0 ∧ 0 < s) (hm : 1 ≤ m ∧ m ≤ INFINITY2)
    (hM : (next, seqLabel s (m - 1)) ∈ M)
    (h : e'.rt_seqno = s ∧ e'.rt_hops = m ∧ e'.rt_flags = .up ∧ e'.rt_nexthop = next) :
    e.Moves M d e' := by
  obtain ⟨h1, h2, h3, h4⟩ := h
  have hroute : e'.route = ⟨seqLabel s m, some next⟩ := by
    rw [RtEntry.route, if_pos h3, h1, h2, h4]
  refine ⟨⟨h2 ▸ hm.2, fun hd => absurd (h3.symm.trans hd) (by decide), fun _ => h1 ▸ hs⟩, ?_⟩
  rw [hroute]
  refine Adopts.of_le (seqLabel_le_iff.mpr ?_) fun w hw =>
    Or.inr ⟨seqLabel s (m - 1), ?_, seqLabel_lt_iff.mpr ?_⟩
  · simp only [RtEntry.fresher, Bool.or_eq_true, Bool.and_eq_true, decide_eq_true_eq] at hfresh
    omega
  · exact Option.some.inj hw ▸ hM
  · exact Or.inr ⟨rfl, by omega⟩

/-- A larger sequence number, and the route is down. -/
theorem RtEntry.Moves.down {s : ℕ} (hs : e.rt_seqno < s) (hodd : s % 2 = 1)
    (h : e'.rt_seqno = s ∧ e'.rt_hops = INFINITY2 ∧ e'.rt_flags = .down) : e.Moves M d e' := by
  obtain ⟨h1, h2, h3⟩ := h
  refine ⟨⟨h2.le, fun _ => ⟨h2, Or.inl (h1 ▸ hodd)⟩, fun hv => ?_⟩, ?_⟩
  · rw [h2, h3] at hv
    exact absurd hv (by simp)
  · refine Adopts.give_up (seqLabel_le_iff.mpr (Or.inl (h1 ▸ hs))) ?_
    rw [RtEntry.route, h3]
    rfl

/-- Only the flag of local repair is set. -/
theorem RtEntry.Moves.repair (he : e.Tidy) : e.Moves M d { e with rt_flags := .inRepair } :=
  ⟨⟨he.hops_le, fun h => absurd h (by simp), fun h => he.valid (h.imp_left fun h => absurd h (by simp))⟩,
    Adopts.give_up le_rfl rfl⟩

/-- A route that is valid is not down. -/
theorem RtEntry.Tidy.rt_down (he : e.Tidy) (hv : e.rt_flags = .up ∨ e.rt_hops ≠ INFINITY2) (s : ℕ) :
    { e with rt_seqno := s }.rt_down =
      { e with
        rt_seqno := s, rt_last_hop_count := e.rt_hops, rt_hops := INFINITY2, rt_flags := .down
        rt_nexthop := 0, rt_expire := 0 } := by
  have hnot : e.rt_flags ≠ .down := by
    intro hd
    rcases hv with hv | hv
    · exact absurd (hv.symm.trans hd) (by decide)
    · exact hv (he.down hd).1
  rw [RtEntry.rt_down]
  exact if_neg hnot

theorem RtEntry.rt_dst_rt_down : e.rt_down.rt_dst = e.rt_dst := by
  unfold RtEntry.rt_down
  split_ifs <;> rfl

end Entries

/-! ## Tables -/

section Tables

variable {t : Rtable} {d k : ℤ} {e : RtEntry} {f : RtEntry → RtEntry}

theorem rt_dst_of_lookup (h : t.rt_lookup d = some e) : e.rt_dst = d := by
  simpa using List.find?_some h

theorem map_rt_dst (hf : ∀ e, (f e).rt_dst = e.rt_dst) :
    (t.map f).map RtEntry.rt_dst = t.map RtEntry.rt_dst := by
  rw [List.map_map]
  exact List.map_congr_left fun e _ => hf e

theorem rt_lookup_map (hf : ∀ e, (f e).rt_dst = e.rt_dst) :
    Rtable.rt_lookup (t.map f) d = (t.rt_lookup d).map f := by
  rw [Rtable.rt_lookup, Rtable.rt_lookup, List.find?_map]
  congr 2
  funext e
  simp only [Function.comp_apply, hf]

theorem rt_lookup_setAt (hf : ∀ e, (f e).rt_dst = e.rt_dst) :
    (t.setAt k f).rt_lookup d = if d = k then (t.rt_lookup k).map f else t.rt_lookup d := by
  rw [Rtable.setAt, rt_lookup_map (fun e => by split_ifs; exacts [hf e, rfl])]
  by_cases hd : d = k
  · rw [if_pos hd, hd]
    exact Option.map_congr fun e he => if_pos (rt_dst_of_lookup he)
  · rw [if_neg hd]
    cases h : t.rt_lookup d with
    | none => rfl
    | some e =>
      rw [Option.map_some, if_neg]
      rw [rt_dst_of_lookup h]
      exact hd

theorem rt_lookup_ensure :
    (t.ensure k).rt_lookup d =
      if d = k then some ((t.rt_lookup k).getD (RtEntry.new k)) else t.rt_lookup d := by
  unfold Rtable.ensure
  cases hk : t.rt_lookup k with
  | some e =>
    by_cases hd : d = k
    · rw [if_pos hd, hd, hk, Option.getD_some]
    · rw [if_neg hd]
  | none =>
    dsimp only
    rw [Rtable.rt_lookup, List.find?_cons]
    by_cases hd : d = k
    · rw [if_pos hd, hd]
      simp [RtEntry.new]
    · rw [if_neg hd]
      have hnew : decide ((RtEntry.new k).rt_dst = d) = false := decide_eq_false (Ne.symm hd)
      rw [hnew, Rtable.rt_lookup]

/-- The route for `d`. -/
def routeOf (t : Rtable) (d : ℤ) : Option (Route ℤ (ℕᵒᵈ ×ₗ ℕ)) :=
  (t.rt_lookup d).map RtEntry.route

/-- One entry for a destination, and all are tidy. -/
structure Rtable.Tidy (t : Rtable) : Prop where
  nodup : (t.map RtEntry.rt_dst).Nodup
  entry : ∀ d e, t.rt_lookup d = some e → e.Tidy

theorem Rtable.Tidy.lookup_of_mem (h : t.Tidy) (he : e ∈ t) : t.rt_lookup e.rt_dst = some e := by
  have hsome : (t.rt_lookup e.rt_dst).isSome := by
    rw [Rtable.rt_lookup, List.find?_isSome]
    exact ⟨e, he, decide_eq_true rfl⟩
  obtain ⟨e', he'⟩ := Option.isSome_iff_exists.mp hsome
  rw [he', List.inj_on_of_nodup_map h.nodup (List.mem_of_find?_eq_some he') he (rt_dst_of_lookup he')]

variable {M : ℤ → Set (ℤ × (ℕᵒᵈ ×ₗ ℕ))}

theorem Rtable.Tidy.map (h : t.Tidy) (hf : ∀ e, (f e).rt_dst = e.rt_dst)
    (hmoves : ∀ d e, t.rt_lookup d = some e → e.Moves (M d) d (f e)) :
    Rtable.Tidy (t.map f) ∧ ∀ d, Adopts (M d) d (routeOf t d) (routeOf (t.map f) d) := by
  refine ⟨⟨?_, fun d e he => ?_⟩, fun d => ?_⟩
  · rw [map_rt_dst hf]
    exact h.nodup
  · rw [rt_lookup_map hf] at he
    obtain ⟨e₀, he₀, rfl⟩ := Option.map_eq_some_iff.mp he
    exact (hmoves d e₀ he₀).1
  · rw [routeOf, routeOf, rt_lookup_map hf]
    cases he : t.rt_lookup d with
    | none => exact Adopts.refl _
    | some e => exact (hmoves d e he).2

theorem Rtable.Tidy.setAt (h : t.Tidy) (hf : ∀ e, (f e).rt_dst = e.rt_dst)
    (hmoves : ∀ e, t.rt_lookup k = some e → e.Moves (M k) k (f e)) :
    (t.setAt k f).Tidy ∧ ∀ d, Adopts (M d) d (routeOf t d) (routeOf (t.setAt k f) d) := by
  refine h.map (fun e => by split_ifs; exacts [hf e, rfl]) fun d e he => ?_
  by_cases hk : e.rt_dst = k
  · obtain rfl : d = k := (rt_dst_of_lookup he).symm.trans hk
    rw [if_pos hk]
    exact hmoves e he
  · rw [if_neg hk]
    exact RtEntry.Moves.refl (h.entry d e he)

theorem Rtable.Tidy.ensure (h : t.Tidy) :
    (t.ensure k).Tidy ∧ ∀ d, Adopts (M d) d (routeOf t d) (routeOf (t.ensure k) d) := by
  cases hk : t.rt_lookup k with
  | some e =>
    have heq : t.ensure k = t := by rw [Rtable.ensure, hk]
    rw [heq]
    exact ⟨h, fun d => Adopts.refl _⟩
  | none =>
    refine ⟨⟨?_, fun d e he => ?_⟩, fun d => ?_⟩
    · rw [Rtable.ensure, hk, List.map_cons, List.nodup_cons]
      refine ⟨fun hmem => ?_, h.nodup⟩
      obtain ⟨e, he, hdst⟩ := List.mem_map.mp hmem
      have := List.find?_eq_none.mp hk e he
      exact this (decide_eq_true hdst)
    · rw [rt_lookup_ensure, hk] at he
      split_ifs at he
      · exact Option.some.inj he ▸ RtEntry.tidy_new k
      · exact h.entry d e he
    · rw [routeOf, routeOf, rt_lookup_ensure, hk]
      by_cases hd : d = k
      · rw [if_pos hd, hd, hk]
        exact Adopts.of_none fun w hw => absurd hw (by simp [RtEntry.route, RtEntry.new])
      · rw [if_neg hd]
        exact Adopts.refl _

end Tables

/-! ## Messages -/

/-- What holds of the messages of a run. -/
def Message.WellFormed : Message → Prop
  | .rreq rq => (rq.rq_src_seqno % 2 = 0 ∧ 0 < rq.rq_src_seqno) ∧ 1 ≤ rq.rq_hop_count ∧
      1 ≤ rq.ttl_ ∧ rq.rq_hop_count + rq.ttl_ ≤ NETWORK_DIAMETER + 1
  | .rrep rp => (rp.rp_dst_seqno % 2 = 0 ∧ 0 < rp.rp_dst_seqno) ∧ 1 ≤ rp.rp_hop_count ∧
      rp.rp_hop_count ≤ INFINITY2
  | .rerr re => ∀ x ∈ re.unreachable, x.2 % 2 = 1 ∨ x.2 = 0

/-- The node that sends a message, and the destination and label of the route that it promises. -/
def Message.advert : Message → Option (ℤ × ℤ × (ℕᵒᵈ ×ₗ ℕ))
  | .rreq rq => some (rq.saddr, rq.rq_src, seqLabel rq.rq_src_seqno (rq.rq_hop_count - 1))
  | .rrep rp => some (rp.rp_src, rp.rp_dst, seqLabel rp.rp_dst_seqno (rp.rp_hop_count - 1))
  | .rerr _ => none

namespace Agent

/-- The sequence number is even, and the table is tidy. -/
structure Tidy (a : Agent) : Prop where
  even : a.seqno % 2 = 0
  pos : 0 < a.seqno
  rtable : a.rtable.Tidy

/-- The agent may send the message: it has the route that it promises. -/
structure Backs (a : Agent) (m : Message) : Prop where
  wellFormed : m.WellFormed
  route : ∀ w d l, m.advert = some (w, d, l) →
    w = a.index ∧ (d = a.index ∨ ∃ r, routeOf a.rtable d = some r ∧ r.label ≤ l)

/-- What an agent may do when the labels `M` have been advertised, and the messages it sends. -/
structure Reacts (M : ℤ → Set (ℤ × (ℕᵒᵈ ×ₗ ℕ))) (a a' : Agent) (ms : List Message) : Prop where
  index : a'.index = a.index
  tidy : a'.Tidy
  adopts : ∀ d, Adopts (M d) d (routeOf a.rtable d) (routeOf a'.rtable d)
  backs : ∀ m ∈ ms, a'.Backs m

section Moves

variable {M : ℤ → Set (ℤ × (ℕᵒᵈ ×ₗ ℕ))} {a a' a'' : Agent} {ms ms' : List Message} {k : ℤ}
  {f : RtEntry → RtEntry}

theorem Backs.mono {m : Message} (h : a.Reacts M a' ms) (hm : a.Backs m) : a'.Backs m where
  wellFormed := hm.wellFormed
  route w d l hl := by
    obtain ⟨hw, hd⟩ := hm.route w d l hl
    rw [h.index]
    refine ⟨hw, hd.imp_right fun ⟨r, hr, hrl⟩ => ?_⟩
    obtain ⟨r', hr', hle⟩ := (h.adopts d).label_le r hr
    exact ⟨r', hr', hle.trans hrl⟩

theorem Reacts.refl (h : a.Tidy) : a.Reacts M a [] :=
  ⟨rfl, h, fun _ => Adopts.refl _, by simp⟩

theorem Reacts.trans (h : a.Reacts M a' ms) (h' : a'.Reacts M a'' ms') :
    a.Reacts M a'' (ms ++ ms') where
  index := h'.index.trans h.index
  tidy := h'.tidy
  adopts d := (h.adopts d).trans (h'.adopts d)
  backs m hm := by
    rcases List.mem_append.mp hm with hm | hm
    · exact (h.backs m hm).mono h'
    · exact h'.backs m hm

variable (ms') in
/-- More messages. -/
theorem Reacts.send (h : a.Reacts M a' ms) (hm : ∀ m ∈ ms', a'.Backs m) :
    a.Reacts M a' (ms ++ ms') :=
  h.trans ⟨rfl, h.tidy, fun _ => Adopts.refl _, hm⟩

/-- A change of the table only. -/
theorem Reacts.of_rtable (h : a.Tidy) (hi : a'.index = a.index) (hs : a'.seqno = a.seqno)
    (ht : a'.rtable.Tidy ∧ ∀ d, Adopts (M d) d (routeOf a.rtable d) (routeOf a'.rtable d)) :
    a.Reacts M a' [] :=
  ⟨hi, ⟨hs ▸ h.even, hs ▸ h.pos, ht.1⟩, ht.2, by simp⟩

theorem Reacts.setRt (h : a.Tidy) (hf : ∀ e, (f e).rt_dst = e.rt_dst)
    (hmoves : ∀ e, a.rt_lookup k = some e → e.Moves (M k) k (f e)) :
    a.Reacts M (a.setRt k f) [] :=
  .of_rtable h rfl rfl (h.rtable.setAt hf hmoves)

/-- Nothing that matters for routes changes. -/
structure SameRoutes (a a' : Agent) : Prop where
  index : a'.index = a.index
  seqno : a'.seqno = a.seqno
  nodup : (a.rtable.map RtEntry.rt_dst).Nodup → (a'.rtable.map RtEntry.rt_dst).Nodup
  key : ∀ d, (a'.rt_lookup d).map RtEntry.key = (a.rt_lookup d).map RtEntry.key

theorem SameRoutes.refl (a : Agent) : a.SameRoutes a := ⟨rfl, rfl, id, fun _ => rfl⟩

theorem SameRoutes.trans (h : a.SameRoutes a') (h' : a'.SameRoutes a'') : a.SameRoutes a'' :=
  ⟨h'.index.trans h.index, h'.seqno.trans h.seqno, h'.nodup ∘ h.nodup,
    fun d => (h'.key d).trans (h.key d)⟩

theorem SameRoutes.lookup {d : ℤ} {e : RtEntry} (h : a.SameRoutes a')
    (he : a'.rt_lookup d = some e) : ∃ e₀, a.rt_lookup d = some e₀ ∧ e.key = e₀.key := by
  have hkey := h.key d
  rw [he, Option.map_some] at hkey
  obtain ⟨e₀, he₀, heq⟩ := Option.map_eq_some_iff.mp hkey.symm
  exact ⟨e₀, he₀, heq.symm⟩

theorem SameRoutes.routeOf_eq (h : a.SameRoutes a') (d : ℤ) :
    routeOf a'.rtable d = routeOf a.rtable d := by
  have hkey := h.key d
  cases he : a'.rt_lookup d with
  | none =>
    rw [he, Option.map_none, eq_comm, Option.map_eq_none_iff] at hkey
    rw [routeOf, routeOf, show a'.rtable.rt_lookup d = none from he,
      show a.rtable.rt_lookup d = none from hkey]
  | some e =>
    obtain ⟨e₀, he₀, heq⟩ := h.lookup he
    rw [routeOf, routeOf, show a'.rtable.rt_lookup d = some e from he,
      show a.rtable.rt_lookup d = some e₀ from he₀, Option.map_some, Option.map_some,
      RtEntry.route_of_key heq]

theorem SameRoutes.reacts (h : a.SameRoutes a') (ha : a.Tidy) : a.Reacts M a' [] := by
  refine .of_rtable ha h.index h.seqno ⟨⟨h.nodup ha.rtable.nodup, fun d e he => ?_⟩, fun d => ?_⟩
  · obtain ⟨e₀, he₀, heq⟩ := h.lookup he
    exact RtEntry.tidy_of_key heq (ha.rtable.entry d e₀ he₀)
  · rw [h.routeOf_eq]
    exact Adopts.refl _

theorem sameRoutes_setRt (hf : ∀ e, (f e).key = e.key) : a.SameRoutes (a.setRt k f) := by
  have hdst : ∀ e, (f e).rt_dst = e.rt_dst := fun e => congrArg Prod.fst (hf e)
  refine ⟨rfl, rfl, fun h => ?_, fun d => ?_⟩
  · rw [setRt, Rtable.setAt, map_rt_dst fun e => by split_ifs; exacts [hdst e, rfl]]
    exact h
  · rw [rt_lookup, setRt, rt_lookup_setAt hdst]
    by_cases hd : d = k
    · rw [if_pos hd, hd, Option.map_map]
      exact Option.map_congr fun e _ => hf e
    · rw [if_neg hd]
      rfl

theorem Reacts.same (h : a.Reacts M a' ms) (h' : a'.SameRoutes a'') : a.Reacts M a'' ms := by
  have hall := h.trans (h'.reacts (M := M) h.tidy)
  rwa [List.append_nil] at hall

end Moves

/-! ## Packets -/

section Packets

variable {M : ℤ → Set (ℤ × (ℕᵒᵈ ×ₗ ℕ))} {a : Agent} {dst : ℤ} {p : Packet} {now : ℚ}
  {IP_BROADCAST : ℤ}

theorem forward_spec : a.SameRoutes (a.forward dst p now) := by
  unfold forward
  split_ifs
  · exact SameRoutes.refl a
  · exact sameRoutes_setRt fun _ => rfl

theorem sendBuffered_spec : a.SameRoutes (a.sendBuffered dst now) := by
  have hfold : ∀ (ps : List Packet) (a : Agent),
      a.SameRoutes (ps.foldl (fun a p => a.forward dst p now) a) := by
    intro ps
    induction ps with
    | nil => exact SameRoutes.refl
    | cons p ps ih => exact fun a => forward_spec.trans (ih _)
  have hqueue : a.SameRoutes { a with rqueue := (a.rqueue.dequeAll dst now).2 } :=
    ⟨rfl, rfl, id, fun _ => rfl⟩
  exact hqueue.trans (hfold _ _)

variable (dst now) in
theorem dropBuffered_spec : a.SameRoutes (a.dropBuffered dst now) := ⟨rfl, rfl, id, fun _ => rfl⟩

theorem requestTtl_bounds (last : ℤ) (h : 0 ≤ last) :
    1 ≤ requestTtl last ∧ requestTtl last ≤ NETWORK_DIAMETER := by
  unfold requestTtl TTL_START TTL_THRESHOLD TTL_INCREMENT NETWORK_DIAMETER
  split_ifs <;> omega

variable (dst now) in
theorem sendRequest_spec (h : a.Tidy) :
    a.Reacts M (a.sendRequest dst now).1 (a.sendRequest dst now).2 := by
  unfold sendRequest
  cases he : a.rt_lookup dst with
  | none => exact .refl h
  | some rt =>
    dsimp only
    split_ifs
    · exact .refl h
    · refine (SameRoutes.trans (sameRoutes_setRt ?_) (dropBuffered_spec _ _)).reacts h
      exact fun _ => rfl
    · have hsame : a.SameRoutes (a.setRt dst (requested now)) := sameRoutes_setRt fun _ => rfl
      have hreacts := hsame.reacts (M := M) h
      obtain ⟨hlow, hhigh⟩ := requestTtl_bounds
        (max rt.rt_req_last_ttl rt.rt_last_hop_count) (le_max_of_le_right (Int.natCast_nonneg _))
      have heven := h.even
      refine ⟨rfl, ⟨by dsimp only; omega, by dsimp only; omega, hreacts.tidy.rtable⟩,
        hreacts.adopts, fun m hm => ?_⟩
      obtain rfl := List.mem_singleton.mp hm
      refine ⟨⟨⟨by dsimp only; omega, by dsimp only; omega⟩, le_rfl, hlow, ?_⟩, fun w d l hl => ?_⟩
      · dsimp only
        push_cast
        omega
      · simp only [Message.advert, Option.some.injEq, Prod.mk.injEq] at hl
        exact ⟨hl.1.symm, Or.inl hl.2.1.symm⟩

theorem rt_resolve_spec (h : a.Tidy) :
    a.Reacts M (a.rt_resolve p now).1 (a.rt_resolve p now).2 := by
  have hensure : a.Reacts M { a with rtable := a.rtable.ensure p.daddr } [] :=
    .of_rtable h rfl rfl h.rtable.ensure
  unfold rt_resolve
  set b : Agent := { a with rtable := a.rtable.ensure p.daddr }
  dsimp only
  have hqueue : ∀ q, b.SameRoutes { b with rqueue := q } := fun q => ⟨rfl, rfl, id, fun _ => rfl⟩
  cases he : b.rt_lookup p.daddr with
  | none => exact hensure
  | some rt =>
    dsimp only
    split_ifs with hup hmine hrep
    · exact hensure.same forward_spec
    · have hq := hensure.same (hqueue (b.rqueue.enque p now))
      exact hq.trans (sendRequest_spec _ _ hq.tidy)
    · exact hensure.same (hqueue _)
    · refine hensure.send [_] fun m hm => ?_
      obtain rfl := List.mem_singleton.mp hm
      refine ⟨fun x hx => ?_, fun _ _ _ hl => absurd hl (by simp [Message.advert])⟩
      obtain rfl := List.mem_singleton.mp hx
      have hdown : rt.rt_flags = .down := by
        cases hf : rt.rt_flags with
        | down => rfl
        | up => exact absurd hf hup
        | inRepair => exact absurd hf hrep
      exact ((hensure.tidy.rtable.entry _ rt he).down hdown).2

theorem recv_spec (h : a.Tidy) :
    a.Reacts M (a.recv IP_BROADCAST p now).1 (a.recv IP_BROADCAST p now).2 := by
  unfold recv
  split_ifs
  · exact .refl h
  · exact rt_resolve_spec h
  · exact .refl h
  · exact .refl h
  · exact .refl h
  · exact rt_resolve_spec h

end Packets

/-! ## Links that fail -/

section Links

variable {M : ℤ → Set (ℤ × (ℕᵒᵈ ×ₗ ℕ))} {a : Agent} {id dst : ℤ} {p : Packet} {now : ℚ}
  {IP_BROADCAST : ℤ} {r : Agent × List Message}

theorem linkFailed_moves {d : ℤ} {e : RtEntry} (he : e.Tidy) : e.Moves (M d) d (linkFailed id e) := by
  unfold linkFailed
  by_cases hover : routesOver id e
  · rw [if_pos hover]
    have hhops : e.rt_hops ≠ INFINITY2 := by
      simp only [routesOver, decide_eq_true_eq] at hover
      exact hover.1
    have heven := (he.valid (Or.inr hhops)).1
    rw [he.rt_down (Or.inr hhops)]
    exact .down (Nat.lt_succ_self _) (by omega) ⟨rfl, rfl, rfl⟩
  · rw [if_neg hover]
    exact .of_key he rfl

theorem rt_dst_linkFailed (e : RtEntry) : (linkFailed id e).rt_dst = e.rt_dst := by
  unfold linkFailed
  split_ifs
  · exact RtEntry.rt_dst_rt_down
  · rfl

theorem handle_link_failure_spec (h : a.Tidy) (hr : a.handle_link_failure id = some r) :
    a.Reacts M r.1 r.2 := by
  unfold handle_link_failure at hr
  dsimp only at hr
  split_ifs at hr
  all_goals obtain rfl := Option.some.inj hr
  all_goals
    have hmap : a.Reacts M { a with rtable := a.rtable.map (linkFailed id) } [] :=
      .of_rtable h rfl rfl (h.rtable.map rt_dst_linkFailed fun d e he =>
        linkFailed_moves (h.rtable.entry d e he))
  · exact hmap
  · refine hmap.send [_] fun m hm => ?_
    obtain rfl := List.mem_singleton.mp hm
    refine ⟨fun x hx => ?_, fun _ _ _ hl => absurd hl (by simp [Message.advert])⟩
    obtain ⟨e, he, rfl⟩ := List.mem_map.mp hx
    obtain ⟨he, hover⟩ := List.mem_filter.mp he
    simp only [routesOver, decide_eq_true_eq] at hover
    have heven := (h.rtable.entry _ e (h.rtable.lookup_of_mem he)).valid (Or.inr hover.1)
    refine Or.inl ?_
    dsimp only
    omega

theorem local_rt_repair_spec (h : a.Tidy) :
    a.Reacts M (a.local_rt_repair dst p now).1 (a.local_rt_repair dst p now).2 := by
  have hrep : a.Reacts M
      ({ a with rqueue := a.rqueue.enque p now }.setRt dst fun rt => { rt with rt_flags := .inRepair })
      [] :=
    .of_rtable h rfl rfl (h.rtable.setAt (fun _ => rfl) fun e he =>
      RtEntry.Moves.repair (h.rtable.entry _ e he))
  have hsend := hrep.trans (sendRequest_spec dst now hrep.tidy)
  exact hsend.same ⟨rfl, rfl, fun h => h, fun _ => rfl⟩

theorem rt_ll_failed_spec {next_hop_ : ℤ} (h : a.Tidy)
    (hr : a.rt_ll_failed IP_BROADCAST p next_hop_ now = some r) : a.Reacts M r.1 r.2 := by
  unfold rt_ll_failed at hr
  split_ifs at hr
  · obtain rfl := Option.some.inj hr
    exact .refl h
  · cases he : a.rt_lookup p.daddr with
    | none =>
      rw [he] at hr
      obtain rfl := Option.some.inj hr
      exact .refl h
    | some rt =>
      rw [he] at hr
      dsimp only at hr
      split_ifs at hr
      · obtain rfl := Option.some.inj hr
        exact local_rt_repair_spec h
      · have heven := h.even
        have hseq : a.Reacts M { a with seqno := a.seqno + 2 } [] :=
          ⟨rfl, ⟨by dsimp only; omega, by dsimp only; omega, h.rtable⟩, fun _ => Adopts.refl _, by simp⟩
        exact hseq.trans (handle_link_failure_spec hseq.tidy hr)

end Links

/-! ## Timers -/

section Timers

variable {M : ℤ → Set (ℤ × (ℕᵒᵈ ×ₗ ℕ))} {a : Agent} {dst : ℤ} {now : ℚ}

/-- The timer of a local repair finds the route repaired, or down already. -/
theorem localRepairTimer_spec (h : a.Tidy)
    (hrep : ∀ rt, a.rt_lookup dst = some rt → rt.rt_flags ≠ .inRepair) :
    a.Reacts M (a.localRepairTimer dst) [] := by
  refine .of_rtable h rfl rfl (h.rtable.setAt (fun e => ?_) fun e he => ?_)
  · split_ifs
    exacts [RtEntry.rt_dst_rt_down, rfl]
  · have hkeep : (if e.rt_flags ≠ .up then e.rt_down else e) = e := by
      cases hf : e.rt_flags with
      | down => rw [if_pos (by decide), RtEntry.rt_down, if_pos hf]
      | up => rfl
      | inRepair => exact absurd hf (hrep e he)
    rw [hkeep]
    exact .refl (h.rtable.entry _ e he)

theorem purgeEntry_spec {r : Agent × List Message} (h : a.Reacts M r.1 r.2) :
    a.Reacts M (purgeEntry now r dst).1 (purgeEntry now r dst).2 := by
  unfold purgeEntry
  cases he : r.1.rt_lookup dst with
  | none => exact h
  | some rt =>
    dsimp only
    split_ifs with hexp hup hfind
    · have hdrop := h.same (dropBuffered_spec dst now)
      have hdown : Reacts M _ _ [] := Reacts.setRt (k := dst)
        (f := fun rt => { rt with rt_seqno := rt.rt_seqno + 1 }.rt_down) hdrop.tidy
        (fun _ => RtEntry.rt_dst_rt_down) fun e he' => by
          obtain rfl : rt = e := Option.some.inj (he.symm.trans he')
          have htidy := hdrop.tidy.rtable.entry _ rt he'
          have heven := (htidy.valid (Or.inl hexp.1)).1
          rw [htidy.rt_down (Or.inl hexp.1)]
          exact .down (Nat.lt_succ_self _) (by omega) ⟨rfl, rfl, rfl⟩
      have hall := hdrop.trans hdown
      rwa [List.append_nil] at hall
    · exact h.same sendBuffered_spec
    · exact h.trans (sendRequest_spec _ _ h.tidy)
    · exact h

theorem rt_purge_spec (h : a.Tidy) : a.Reacts M (a.rt_purge now).1 (a.rt_purge now).2 := by
  have hfold : ∀ (ds : List ℤ) (r : Agent × List Message), a.Reacts M r.1 r.2 →
      a.Reacts M (ds.foldl (purgeEntry now) r).1 (ds.foldl (purgeEntry now) r).2 := by
    intro ds
    induction ds with
    | nil => exact fun r hr => hr
    | cons d ds ih => exact fun r hr => ih _ (purgeEntry_spec hr)
  exact hfold _ _ (.refl h)

end Timers

/-! ## Messages received -/

section Received

variable {M : ℤ → Set (ℤ × (ℕᵒᵈ ×ₗ ℕ))} {a : Agent} {now : ℚ}

/-- An entry that is not less fresh has a better label. -/
theorem label_le_of_not_fresher {e : RtEntry} {s m : ℕ} (h : ¬ e.fresher s m) :
    e.route.label ≤ seqLabel s m := by
  refine seqLabel_le_iff.mpr ?_
  simp only [RtEntry.fresher, Bool.or_eq_true, Bool.and_eq_true, decide_eq_true_eq] at h
  omega

theorem lookup_ensure (t : Rtable) (d : ℤ) : ∃ e, (t.ensure d).rt_lookup d = some e :=
  ⟨_, by rw [rt_lookup_ensure, if_pos rfl]⟩

theorem lookup_setRt {f : RtEntry → RtEntry} {d : ℤ} {e : RtEntry}
    (hf : ∀ e, (f e).rt_dst = e.rt_dst) (he : a.rt_lookup d = some e) :
    (a.setRt d f).rt_lookup d = some (f e) := by
  rw [rt_lookup, setRt, rt_lookup_setAt hf, if_pos rfl]
  exact congrArg (Option.map f) he

theorem routeOf_setRt {f : RtEntry → RtEntry} {d : ℤ} {e : RtEntry}
    (hf : ∀ e, (f e).rt_dst = e.rt_dst) (he : a.rt_lookup d = some e) :
    routeOf (a.setRt d f).rtable d = some (f e).route :=
  congrArg (Option.map RtEntry.route) (lookup_setRt hf he)

theorem pc_insert_key (n : ℤ) (e : RtEntry) : (e.pc_insert n).key = e.key := by
  unfold RtEntry.pc_insert
  split_ifs <;> rfl

section Requests

variable {rq : Request}

variable (now) in
theorem reverseRoute_spec (h : a.Tidy)
    (hwf : Message.WellFormed (.rreq { rq with ttl_ := rq.ttl_ + 1 }))
    (hM : (rq.saddr, seqLabel rq.rq_src_seqno (rq.rq_hop_count - 1)) ∈ M rq.rq_src) :
    a.Reacts M (a.reverseRoute rq now) [] ∧ ∃ r,
      routeOf (a.reverseRoute rq now).rtable rq.rq_src = some r ∧
        r.label ≤ seqLabel rq.rq_src_seqno rq.rq_hop_count := by
  obtain ⟨hseq, hhop, hlow, hhigh⟩ := hwf
  simp only [NETWORK_DIAMETER] at hhop hlow hhigh
  have hensure : a.Reacts M { a with rtable := a.rtable.ensure rq.rq_src } [] :=
    .of_rtable h rfl rfl h.rtable.ensure
  obtain ⟨e₀, he₀⟩ := lookup_ensure a.rtable rq.rq_src
  unfold reverseRoute
  dsimp only
  set G : RtEntry → RtEntry := fun rt =>
    { rt with rt_expire := max rt.rt_expire (now + REV_ROUTE_LIFE) }
  set b : Agent := { a with
    bihead := (rq.rq_src, rq.rq_bcast_id, now + BCAST_ID_SAVE) :: a.bihead
    rtable := (a.rtable.ensure rq.rq_src).setAt rq.rq_src G }
  have hsame : SameRoutes { a with rtable := a.rtable.ensure rq.rq_src } b :=
    (sameRoutes_setRt (k := rq.rq_src) (f := G) fun _ => rfl).trans
      ⟨rfl, rfl, fun h => h, fun _ => rfl⟩
  have hreacts := hensure.same hsame
  have he : b.rt_lookup rq.rq_src = some (G e₀) :=
    lookup_setRt (a := { a with rtable := a.rtable.ensure rq.rq_src }) (fun _ => rfl) he₀
  generalize G e₀ = e at he
  rw [he]
  dsimp only
  split_ifs with hfresh
  · set F : RtEntry → RtEntry := fun rt0 =>
      let rt0 := rt0.rt_update rq.rq_src_seqno rq.rq_hop_count rq.saddr
        (max rt0.rt_expire (now + REV_ROUTE_LIFE))
      if 0 < rt0.rt_req_timeout then
        { rt0 with
          rt_req_cnt := 0, rt_req_timeout := 0, rt_req_last_ttl := rq.rq_hop_count
          rt_expire := now + ACTIVE_ROUTE_TIMEOUT }
      else rt0 with hF
    have hkey : ∀ e, (F e).key = (e.rt_dst, rq.rq_src_seqno, rq.rq_hop_count, .up, rq.saddr) := by
      intro e
      rw [hF]
      dsimp only
      split_ifs <;> rfl
    have hdst : ∀ e, (F e).rt_dst = e.rt_dst := fun e => congrArg Prod.fst (hkey e)
    have hfields := hkey e
    simp only [RtEntry.key, Prod.mk.injEq] at hfields
    have hset : b.Reacts M (b.setRt rq.rq_src F) [] := by
      refine .setRt hreacts.tidy hdst fun e' he' => ?_
      obtain rfl := Option.some.inj (he.symm.trans he')
      refine .update hfresh hseq ⟨hhop, ?_⟩ hM hfields.2
      rw [INFINITY2]
      omega
    refine ⟨(hreacts.trans hset).same sendBuffered_spec, (F e).route, ?_, le_of_eq ?_⟩
    · rw [sendBuffered_spec.routeOf_eq]
      exact routeOf_setRt hdst he
    · rw [RtEntry.route, hfields.2.1, hfields.2.2.1]
  · exact ⟨hreacts, _, congrArg (Option.map RtEntry.route) he, label_le_of_not_fresher hfresh⟩

theorem nextSeqno_even (s s' : ℕ) : nextSeqno s s' % 2 = 0 ∧ 0 < nextSeqno s s' := by
  unfold nextSeqno
  dsimp only
  split_ifs <;> omega

theorem replyFrom_spec {rt : RtEntry} (h : a.Tidy) (he : a.rt_lookup rq.rq_dst = some rt)
    (hhops : rt.rt_hops ≠ INFINITY2) :
    a.Reacts M (a.replyFrom rq rt now).1 (a.replyFrom rq rt now).2 := by
  have hsame : a.SameRoutes (a.replyFrom rq rt now).1 :=
    (sameRoutes_setRt (pc_insert_key _)).trans (sameRoutes_setRt (pc_insert_key _))
  have htidy := h.rtable.entry _ rt he
  have hle := htidy.hops_le
  have hu8 : u8 (rt.rt_hops + 1) = rt.rt_hops + 1 := by
    rw [INFINITY2] at hhops hle
    rw [u8]
    omega
  refine (hsame.reacts h).send [_] fun m hm => ?_
  obtain rfl := List.mem_singleton.mp hm
  refine ⟨?_, fun w d l hl => ?_⟩
  · simp only [sendReply, Message.WellFormed, hu8]
    refine ⟨htidy.valid (Or.inr hhops), Nat.succ_pos _, ?_⟩
    omega
  · simp only [sendReply, Message.advert, hu8, Nat.add_sub_cancel, Option.some.injEq,
      Prod.mk.injEq] at hl
    obtain ⟨rfl, rfl, rfl⟩ := hl
    refine ⟨hsame.index.symm, Or.inr ⟨rt.route, ?_, le_rfl⟩⟩
    rw [hsame.routeOf_eq]
    exact congrArg (Option.map RtEntry.route) he

theorem forwardRequest_backs {rt : Option RtEntry}
    (hwf : Message.WellFormed (.rreq { rq with ttl_ := rq.ttl_ + 1 }))
    (hr : ∃ r, routeOf a.rtable rq.rq_src = some r ∧
      r.label ≤ seqLabel rq.rq_src_seqno rq.rq_hop_count) :
    ∀ m ∈ a.forwardRequest rq rt, a.Backs m := by
  intro m hm
  unfold forwardRequest at hm
  split_ifs at hm with httl
  · exact absurd hm List.not_mem_nil
  · obtain rfl := List.mem_singleton.mp hm
    obtain ⟨hseq, hhop, hlow, hhigh⟩ := hwf
    simp only [NETWORK_DIAMETER] at hhop hlow hhigh
    have hu8 : u8 (rq.rq_hop_count + 1) = rq.rq_hop_count + 1 := by
      rw [u8]
      omega
    refine ⟨⟨hseq, ?_, ?_, ?_⟩, fun w d l hl => ?_⟩
    · dsimp only
      omega
    · dsimp only
      omega
    · simp only [hu8, NETWORK_DIAMETER]
      push_cast
      omega
    · simp only [Message.advert, hu8, Nat.add_sub_cancel, Option.some.injEq, Prod.mk.injEq] at hl
      obtain ⟨rfl, rfl, rfl⟩ := hl
      exact ⟨rfl, Or.inr hr⟩

theorem answer_spec (h : a.Tidy) (hwf : Message.WellFormed (.rreq { rq with ttl_ := rq.ttl_ + 1 }))
    (hr : ∃ r, routeOf a.rtable rq.rq_src = some r ∧
      r.label ≤ seqLabel rq.rq_src_seqno rq.rq_hop_count) :
    a.Reacts M (a.answer rq now).1 (a.answer rq now).2 := by
  unfold answer
  split_ifs with hmine
  · obtain ⟨heven, hpos⟩ := nextSeqno_even a.seqno rq.rq_dst_seqno
    refine ⟨rfl, ⟨heven, hpos, h.rtable⟩, fun _ => Adopts.refl _, fun m hm => ?_⟩
    obtain rfl := List.mem_singleton.mp hm
    refine ⟨⟨⟨heven, hpos⟩, (by decide : 1 ≤ u8 1), (by decide : u8 1 ≤ INFINITY2)⟩, fun w d l hl => ?_⟩
    simp only [sendReply, Message.advert, Option.some.injEq, Prod.mk.injEq] at hl
    exact ⟨hl.1.symm, Or.inl hl.2.1.symm⟩
  · have hforward : ∀ rt, a.Reacts M a (a.forwardRequest rq rt) := fun rt =>
      (Reacts.refl h).send _ (forwardRequest_backs hwf hr)
    cases he : a.rt_lookup rq.rq_dst with
    | none => exact hforward none
    | some rt =>
      dsimp only
      split_ifs with hfresh
      · exact replyFrom_spec h he hfresh.1
      · exact hforward (some rt)

theorem recvRequest_spec (h : a.Tidy)
    (hwf : Message.WellFormed (.rreq { rq with ttl_ := rq.ttl_ + 1 }))
    (hM : (rq.saddr, seqLabel rq.rq_src_seqno (rq.rq_hop_count - 1)) ∈ M rq.rq_src) :
    a.Reacts M (a.recvRequest rq now).1 (a.recvRequest rq now).2 := by
  unfold recvRequest
  split_ifs
  · exact .refl h
  · exact .refl h
  · obtain ⟨hreacts, hr⟩ := reverseRoute_spec now h hwf hM
    exact hreacts.trans (answer_spec hreacts.tidy hwf hr)

end Requests

section Replies

variable {rp : Reply}

/-- The hop count of the reply wraps when it is forwarded. -/
def Wraps (a : Agent) (rp : Reply) : Prop :=
  rp.rp_hop_count = 255 ∧ rp.ttl_ ≠ 0 ∧ rp.daddr ≠ a.index ∧ rp.daddr ≠ rp.rp_dst ∧
    (∃ rt0, a.rt_lookup rp.daddr = some rt0 ∧ rt0.rt_hops ≠ INFINITY2) ∧
    ((a.rt_lookup rp.rp_dst).getD (RtEntry.new rp.rp_dst)).fresher rp.rp_dst_seqno rp.rp_hop_count

theorem repliedEntry_key (mine : Bool) (e : RtEntry) :
    (repliedEntry mine rp now e).key =
      (e.rt_dst, rp.rp_dst_seqno, rp.rp_hop_count, .up, rp.rp_src) := by
  unfold repliedEntry
  dsimp only
  split_ifs <;> rfl

variable (now) in
theorem takeReply_spec {e : RtEntry} (h : a.Tidy) (hwf : Message.WellFormed (.rrep rp))
    (hM : (rp.rp_src, seqLabel rp.rp_dst_seqno (rp.rp_hop_count - 1)) ∈ M rp.rp_dst)
    (he : a.rt_lookup rp.rp_dst = some e) (hfresh : e.fresher rp.rp_dst_seqno rp.rp_hop_count) :
    a.Reacts M (a.takeReply rp now) [] ∧ ∀ d e', (a.takeReply rp now).rt_lookup d = some e' →
      if d = rp.rp_dst then e'.key = (rp.rp_dst, rp.rp_dst_seqno, rp.rp_hop_count, .up, rp.rp_src)
      else ∃ e₀, a.rt_lookup d = some e₀ ∧ e'.key = e₀.key := by
  obtain ⟨hseq, hlow, hhigh⟩ := hwf
  set F := repliedEntry (decide (rp.daddr = a.index)) rp now
  have hkey : ∀ e, (F e).key = (e.rt_dst, rp.rp_dst_seqno, rp.rp_hop_count, .up, rp.rp_src) :=
    repliedEntry_key _
  have hdst : ∀ e, (F e).rt_dst = e.rt_dst := fun e => congrArg Prod.fst (hkey e)
  have hset : a.Reacts M (a.setRt rp.rp_dst F) [] := by
    refine .setRt h hdst fun e' he' => ?_
    obtain rfl := Option.some.inj (he.symm.trans he')
    have hfields := hkey e
    simp only [RtEntry.key, Prod.mk.injEq] at hfields
    exact .update hfresh hseq ⟨hlow, hhigh⟩ hM hfields.2
  have hsame : (a.setRt rp.rp_dst F).SameRoutes (a.takeReply rp now) := by
    unfold takeReply
    dsimp only
    split_ifs
    exacts [sendBuffered_spec, dropBuffered_spec _ _]
  refine ⟨hset.same hsame, fun d e' he' => ?_⟩
  obtain ⟨e₁, he₁, hkey₁⟩ := hsame.lookup he'
  rw [rt_lookup, setRt, rt_lookup_setAt hdst] at he₁
  by_cases hd : d = rp.rp_dst
  · rw [if_pos hd] at he₁ ⊢
    obtain ⟨e₂, he₂, rfl⟩ := Option.map_eq_some_iff.mp he₁
    rw [hkey₁, hkey, rt_dst_of_lookup he₂]
  · rw [if_neg hd] at he₁ ⊢
    exact ⟨e₁, he₁, hkey₁⟩

/-- A reply is forwarded by a node that has its route, unless its hop count wraps. -/
theorem forwardReply_spec (h : a.Tidy) (hwf : Message.WellFormed (.rrep rp))
    (hr : ∃ r, routeOf a.rtable rp.rp_dst = some r ∧
      r.label ≤ seqLabel rp.rp_dst_seqno rp.rp_hop_count)
    (hwrap : ∀ rt0, a.rt_lookup rp.daddr = some rt0 → rt0.rt_hops ≠ INFINITY2 → rp.ttl_ ≠ 0 →
      rp.rp_hop_count ≠ 255) :
    a.Reacts M (a.forwardReply rp now).1 (a.forwardReply rp now).2 := by
  obtain ⟨hseq, hlow, hhigh⟩ := hwf
  unfold forwardReply
  cases he : a.rt_lookup rp.daddr with
  | none => exact .refl h
  | some rt0 =>
    dsimp only
    have hpc : a.SameRoutes (a.setRt rp.rp_dst (RtEntry.pc_insert rt0.rt_nexthop)) :=
      sameRoutes_setRt (pc_insert_key _)
    split_ifs with hhops httl
    · exact .refl h
    · exact hpc.reacts h
    · have hsame := hpc.trans (sameRoutes_setRt (k := rp.daddr)
        (f := fun rt0 => { rt0 with rt_expire := now + ACTIVE_ROUTE_TIMEOUT }) fun _ => rfl)
      refine (hsame.reacts h).send [_] fun m hm => ?_
      obtain rfl := List.mem_singleton.mp hm
      have hne := hwrap rt0 he hhops httl
      rw [INFINITY2] at hhigh
      have hu8 : u8 (rp.rp_hop_count + 1) = rp.rp_hop_count + 1 := by
        rw [u8]
        omega
      refine ⟨⟨hseq, ?_, ?_⟩, fun w d l hl => ?_⟩
      · simp only [hu8]
        omega
      · simp only [hu8, INFINITY2]
        omega
      · simp only [Message.advert, hu8, Nat.add_sub_cancel, Option.some.injEq, Prod.mk.injEq] at hl
        obtain ⟨rfl, rfl, rfl⟩ := hl
        rw [hsame.routeOf_eq]
        exact ⟨rfl, Or.inr hr⟩

theorem recvReply_spec (h : a.Tidy) (hwf : Message.WellFormed (.rrep rp))
    (hM : (rp.rp_src, seqLabel rp.rp_dst_seqno (rp.rp_hop_count - 1)) ∈ M rp.rp_dst)
    (hwrap : ¬ a.Wraps rp) : a.Reacts M (a.recvReply rp now).1 (a.recvReply rp now).2 := by
  have hensure : a.Reacts M { a with rtable := a.rtable.ensure rp.rp_dst } [] :=
    .of_rtable h rfl rfl h.rtable.ensure
  unfold recvReply
  dsimp only
  set b : Agent := { a with rtable := a.rtable.ensure rp.rp_dst }
  have hlook : ∀ d, b.rt_lookup d =
      if d = rp.rp_dst then some ((a.rt_lookup rp.rp_dst).getD (RtEntry.new rp.rp_dst))
      else a.rt_lookup d := fun d => rt_lookup_ensure
  have he := hlook rp.rp_dst
  rw [if_pos rfl] at he
  rw [he]
  dsimp only
  split_ifs with hfresh hmine
  · exact hensure.trans (takeReply_spec now hensure.tidy hwf hM he hfresh).1
  · obtain ⟨htake, hentry⟩ := takeReply_spec now hensure.tidy hwf hM he hfresh
    have hall := hensure.trans htake
    refine hall.trans (forwardReply_spec hall.tidy hwf ?_ fun rt0 hrt0 hhops httl hwide => ?_)
    · obtain ⟨r, hr, -⟩ := (htake.adopts rp.rp_dst).label_le _
        (congrArg (Option.map RtEntry.route) he)
      obtain ⟨e', he', rfl⟩ := Option.map_eq_some_iff.mp hr
      have hkey := hentry rp.rp_dst e' he'
      rw [if_pos rfl] at hkey
      simp only [RtEntry.key, Prod.mk.injEq] at hkey
      refine ⟨_, hr, le_of_eq ?_⟩
      rw [RtEntry.route, hkey.2.1, hkey.2.2.1]
    · have hkey := hentry rp.daddr rt0 hrt0
      by_cases hdst : rp.daddr = rp.rp_dst
      · rw [if_pos hdst] at hkey
        simp only [RtEntry.key, Prod.mk.injEq] at hkey
        exact hhops (hkey.2.2.1.trans hwide)
      · rw [if_neg hdst] at hkey
        obtain ⟨e₀, he₀, hkey⟩ := hkey
        rw [hlook, if_neg hdst] at he₀
        simp only [RtEntry.key, Prod.mk.injEq] at hkey
        exact hwrap ⟨hwide, httl, hmine, hdst, ⟨e₀, he₀, hkey.2.2.1 ▸ hhops⟩, hfresh⟩
  · exact hensure

end Replies

section Errors

/-- A route error with a larger sequence number takes the route down. -/
theorem errorEntry_spec (saddr : ℤ) {r : Agent × List (ℤ × ℕ)} {x : ℤ × ℕ}
    (hx : x.2 % 2 = 1 ∨ x.2 = 0) (h : a.Reacts M r.1 [])
    (hall : ∀ y ∈ r.2, y.2 % 2 = 1 ∨ y.2 = 0) :
    a.Reacts M (errorEntry saddr r x).1 [] ∧
      ∀ y ∈ (errorEntry saddr r x).2, y.2 % 2 = 1 ∨ y.2 = 0 := by
  unfold errorEntry
  cases he : r.1.rt_lookup x.1 with
  | none => exact ⟨h, hall⟩
  | some rt =>
    dsimp only
    by_cases hc : rt.rt_hops ≠ INFINITY2 ∧ rt.rt_nexthop = saddr ∧ rt.rt_seqno ≤ x.2
    · rw [if_pos hc]
      have htidy := h.tidy.rtable.entry _ rt he
      have heven := htidy.valid (Or.inr hc.1)
      have hset : r.1.Reacts M (r.1.setRt x.1 fun rt =>
          { { rt with rt_seqno := x.2 }.rt_down with rt_pclist := [] }) [] := by
        refine .setRt h.tidy (fun e => RtEntry.rt_dst_rt_down) fun e he' => ?_
        obtain rfl := Option.some.inj (he.symm.trans he')
        rw [htidy.rt_down (Or.inr hc.1)]
        exact .down (s := x.2) (by omega) (by omega) ⟨rfl, rfl, rfl⟩
      refine ⟨h.trans hset, fun y hy => ?_⟩
      split_ifs at hy
      · exact hall y hy
      · rcases List.mem_append.mp hy with hy | hy
        · exact hall y hy
        · exact List.mem_singleton.mp hy ▸ hx
    · rw [if_neg hc]
      exact ⟨h, hall⟩

theorem recvError_spec {re : RouteError} (h : a.Tidy) (hwf : Message.WellFormed (.rerr re)) :
    a.Reacts M (a.recvError re).1 (a.recvError re).2 := by
  have hfold : ∀ (xs : List (ℤ × ℕ)) (r : Agent × List (ℤ × ℕ)),
      (∀ x ∈ xs, x.2 % 2 = 1 ∨ x.2 = 0) → a.Reacts M r.1 [] →
      (∀ y ∈ r.2, y.2 % 2 = 1 ∨ y.2 = 0) →
      a.Reacts M (xs.foldl (errorEntry re.saddr) r).1 [] ∧
        ∀ y ∈ (xs.foldl (errorEntry re.saddr) r).2, y.2 % 2 = 1 ∨ y.2 = 0 := by
    intro xs
    induction xs with
    | nil => exact fun r _ hr hall => ⟨hr, hall⟩
    | cons x xs ih =>
      intro r hxs hr hall
      obtain ⟨hr', hall'⟩ := errorEntry_spec re.saddr (hxs x List.mem_cons_self) hr hall
      exact ih _ (fun y hy => hxs y (List.mem_cons_of_mem x hy)) hr' hall'
  obtain ⟨hreacts, hall⟩ := hfold re.unreachable (a, []) hwf (.refl h) (by simp)
  unfold recvError
  dsimp only
  split_ifs
  · exact hreacts
  · refine hreacts.send [_] fun m hm => ?_
    obtain rfl := List.mem_singleton.mp hm
    exact ⟨hall, fun _ _ _ hl => absurd hl (by simp [Message.advert])⟩

end Errors

end Received

end Agent

/-! ## Runs -/

section Runs

variable {IP_BROADCAST : ℤ} {w w' : World} {u : ℤ} {now : ℚ} {ev : Event}

/-- The labels that have been advertised for `d`. -/
def World.advertised (w : World) (d : ℤ) : Set (ℤ × (ℕᵒᵈ ×ₗ ℕ)) :=
  {x | ∃ m ∈ w.sent, m.advert = some (x.1, d, x.2)}

/-- The invariant of a network. -/
structure World.Inv (w : World) : Prop where
  index : ∀ u, (w.agent u).index = u
  tidy : ∀ u, (w.agent u).Tidy
  wellFormed : ∀ m ∈ w.sent, m.WellFormed
  sound : ∀ d, Sound (w.advertised d) d fun u => routeOf (w.agent u).rtable d

/-- No local repair times out before the route is repaired or taken down, and no hop count
wraps. -/
def Event.Regular (w : World) (u : ℤ) : Event → Prop
  | .localRepair dst => ∀ rt, (w.agent u).rt_lookup dst = some rt → rt.rt_flags ≠ .inRepair
  | .message (.rrep rp) => ¬ (w.agent u).Wraps { rp with ttl_ := rp.ttl_ - 1 }
  | _ => True

/-- One step of a run. -/
def AnyStep (IP_BROADCAST : ℤ) (w w' : World) : Prop :=
  ∃ u now ev, Event.Possible w u ev ∧ w.step IP_BROADCAST u now ev = some w'

/-- One step of a run in which all events are regular. -/
def Step (IP_BROADCAST : ℤ) (w w' : World) : Prop :=
  ∃ u now ev, Event.Possible w u ev ∧ Event.Regular w u ev ∧
    w.step IP_BROADCAST u now ev = some w'

theorem Agent.tidy_new (id : ℤ) : (Agent.new id).Tidy where
  even := (by decide : 2 % 2 = 0)
  pos := (by decide : 0 < 2)
  rtable := ⟨List.nodup_nil, fun _ _ he => absurd he (Option.some_ne_none _).symm⟩

theorem init_inv : World.init.Inv where
  index _ := rfl
  tidy := Agent.tidy_new
  wellFormed m hm := absurd hm List.not_mem_nil
  sound d := by
    refine Sound.init (fun v l hl => ?_) fun v _ => rfl
    obtain ⟨m, hm, -⟩ := hl
    exact absurd hm List.not_mem_nil

/-- What one agent does. -/
theorem react_spec {a' : Agent} {ms : List Message} (h : w.Inv) (hp : ev.Possible w u)
    (ht : ev.Regular w u) (hr : (w.agent u).react IP_BROADCAST now ev = some (a', ms)) :
    (w.agent u).Reacts w.advertised a' ms := by
  have htidy := h.tidy u
  cases ev with
  | message m =>
    have hwf := h.wellFormed m hp
    have hadv : ∀ v d l, m.advert = some (v, d, l) → (v, l) ∈ w.advertised d :=
      fun v d l hl => ⟨m, hp, hl⟩
    obtain ⟨rfl, rfl⟩ := Prod.mk.inj (Option.some.inj hr)
    cases m with
    | rreq rq =>
      refine Agent.recvRequest_spec htidy ?_ (hadv _ _ _ rfl)
      simpa using hwf
    | rrep rp => exact Agent.recvReply_spec htidy hwf (hadv _ _ _ rfl) ht
    | rerr re => exact Agent.recvError_spec htidy hwf
  | packet p =>
    obtain ⟨rfl, rfl⟩ := Prod.mk.inj (Option.some.inj hr)
    exact Agent.recv_spec htidy
  | linkFailure p next_hop_ => exact Agent.rt_ll_failed_spec htidy hr
  | localRepair dst =>
    obtain ⟨rfl, rfl⟩ := Prod.mk.inj (Option.some.inj hr)
    exact Agent.localRepairTimer_spec htidy ht
  | purge =>
    obtain ⟨rfl, rfl⟩ := Prod.mk.inj (Option.some.inj hr)
    exact Agent.rt_purge_spec htidy
  | purgeIds =>
    obtain ⟨rfl, rfl⟩ := Prod.mk.inj (Option.some.inj hr)
    exact Agent.SameRoutes.reacts ⟨rfl, rfl, fun h => h, fun _ => rfl⟩ htidy

theorem Step.inv (h : w.Inv) (hstep : Step IP_BROADCAST w w') : w'.Inv := by
  obtain ⟨u, now, ev, hp, ht, hs⟩ := hstep
  obtain ⟨⟨a', ms⟩, hr, hw'⟩ := Option.map_eq_some_iff.mp hs
  have hreacts := react_spec h hp ht hr
  have hself : w'.agent u = a' := by
    rw [← hw']
    exact Function.update_self _ _ _
  have hother : ∀ v, v ≠ u → w'.agent v = w.agent v := fun v hv => by
    rw [← hw']
    exact Function.update_of_ne hv _ _
  have hsent : ∀ m ∈ w'.sent, m ∈ ms ∨ m ∈ w.sent := by
    intro m hm
    rw [← hw'] at hm
    exact List.mem_append.mp hm
  refine ⟨fun v => ?_, fun v => ?_, fun m hm => ?_, fun d => ?_⟩
  · by_cases hv : v = u
    · rw [hv, hself, hreacts.index, h.index]
    · rw [hother v hv, h.index]
  · by_cases hv : v = u
    · rw [hv, hself]
      exact hreacts.tidy
    · rw [hother v hv]
      exact h.tidy v
  · rcases hsent m hm with hm | hm
    · exact (hreacts.backs m hm).wellFormed
    · exact h.wellFormed m hm
  · refine (h.sound d).step (u := u) (fun v hv => by rw [hother v hv]) (fun _ => ?_) ?_
    · rw [hself]
      exact hreacts.adopts d
    · rintro v l ⟨m, hm, hl⟩
      rcases hsent m hm with hm | hm
      · obtain ⟨hv, hd⟩ := (hreacts.backs m hm).route v d l hl
        rw [hreacts.index, h.index] at hv hd
        rcases hd with hd | hd
        · exact Or.inr (Or.inl (hv.trans hd.symm))
        · exact Or.inr (Or.inr ⟨hv, hself ▸ hd⟩)
      · exact Or.inl ⟨m, hm, hl⟩

/-- **AODV is loop-free**, in every state of every run in which no local repair times out and no
hop count wraps. -/
theorem aodv_loop_free (h : Relation.ReflTransGen (Step IP_BROADCAST) World.init w) (d : ℤ) :
    LoopFree (w.rt_nexthop d) d := by
  have hinv : w.Inv := by
    induction h with
    | refl => exact init_inv
    | tail _ hstep ih => exact hstep.inv ih
  have hnext : w.rt_nexthop d = fun u => nextHop (routeOf (w.agent u).rtable d) := by
    funext u
    rw [World.rt_nexthop, nextHop, routeOf, Agent.rt_lookup]
    cases (w.agent u).rtable.rt_lookup d <;> rfl
  rw [hnext]
  exact (hinv.sound d).loopFree

/-- A run is a sequence of steps. -/
theorem run_reaches {R : World → World → Prop} {l : List (ℤ × ℚ × Event)}
    (hR : ∀ w w' u now ev, (u, now, ev) ∈ l → ev.Possible w u →
      w.step IP_BROADCAST u now ev = some w' → R w w')
    (h : World.run IP_BROADCAST l w = some w') : Relation.ReflTransGen R w w' := by
  induction l generalizing w with
  | nil =>
    obtain rfl := Option.some.inj h
    exact Relation.ReflTransGen.refl
  | cons x l ih =>
    obtain ⟨u, now, ev⟩ := x
    rw [World.run] at h
    by_cases hp : ev.Possible w u
    · rw [if_pos hp] at h
      obtain ⟨w₁, hs, hrest⟩ := Option.bind_eq_some_iff.mp h
      exact Relation.ReflTransGen.head (hR w w₁ u now ev List.mem_cons_self hp hs)
        (ih (fun w w' u now ev hmem => hR w w' u now ev (List.mem_cons_of_mem _ hmem)) hrest)
    · rw [if_neg hp] at h
      exact absurd h (by simp)

end Runs

/-! ## Two runs -/

/-- Node 1 asks node 0 for a route. -/
def firstRoute : List (ℤ × ℚ × Event) :=
  [(1, 1, .packet ⟨1, 0, 0, 0, 0⟩), (0, 1, .message (.rreq ⟨1, 1, 0, 0, 1, 4, 1, 1, 30⟩)),
    (1, 1, .message (.rrep ⟨1, 0, 4, 0, 10, 1, 1, 30⟩))]

/-- Node 1 gets the route. -/
theorem loop_free_firstRoute : ∃ w : World, w.rt_nexthop 0 1 = some 0 ∧
    LoopFree (w.rt_nexthop 0) 0 := by
  have hrun : (World.run (-1) firstRoute World.init).map (fun w => w.rt_nexthop 0 1) =
      some (some 0) := by decide +kernel
  obtain ⟨w, hw, hnext⟩ := Option.map_eq_some_iff.mp hrun
  have hreach : Relation.ReflTransGen (Step (-1)) World.init w := by
    refine run_reaches (fun w w' u now ev hev hp hs => ⟨u, now, ev, hp, ?_, hs⟩) hw
    simp only [firstRoute, List.mem_cons, List.not_mem_nil, Prod.mk.injEq, or_false] at hev
    rcases hev with ⟨-, -, rfl⟩ | ⟨-, -, rfl⟩ | ⟨-, -, rfl⟩
    · trivial
    · trivial
    · exact fun hwrap => absurd hwrap.1 (by decide)
  exact ⟨w, hnext, aodv_loop_free hreach 0⟩

/-- Nodes 1, 2 and 3 get routes to node 0, each over the one before.  The link from 1 to 0 fails
for a packet of node 3, the local repair times out, and node 1 asks node 2. -/
def failedRepair : List (ℤ × ℚ × Event) :=
  firstRoute ++
  [(2, 1, .packet ⟨2, 0, 0, 0, 0⟩), (1, 1, .message (.rreq ⟨1, 1, 0, 0, 2, 4, 1, 2, 30⟩)),
    (2, 1, .message (.rrep ⟨2, 0, 4, 1, 10, 1, 2, 30⟩)),
    (3, 1, .packet ⟨3, 0, 0, 0, 0⟩), (2, 1, .message (.rreq ⟨1, 1, 0, 0, 3, 4, 1, 3, 30⟩)),
    (3, 1, .message (.rrep ⟨3, 0, 4, 2, 10, 1, 3, 30⟩)),
    (2, 1, .packet ⟨3, 0, 30, 1, 0⟩), (1, 1, .packet ⟨3, 0, 29, 2, 0⟩),
    (1, 2, .linkFailure ⟨3, 0, 28, 2, 0⟩ 0), (1, 29 / 5, .localRepair 0),
    (1, 6, .packet ⟨1, 0, 0, 0, 0⟩), (2, 6, .message (.rreq ⟨1, 3, 0, 4, 1, 8, 6, 1, 30⟩)),
    (1, 6, .message (.rrep ⟨3, 0, 4, 2, 5, 6, 1, 30⟩))]

/-- **A loop.**  The timer takes the route of node 1 down without a new sequence number, and the
route of node 2, which leads over node 1, is as fresh and shorter. -/
theorem failed_repair_taken : ∃ w, Relation.ReflTransGen (AnyStep (-1)) World.init w ∧
    ¬ LoopFree (w.rt_nexthop 0) 0 := by
  have hrun : (World.run (-1) failedRepair World.init).map
      (fun w => (w.rt_nexthop 0 1, w.rt_nexthop 0 2)) = some (some 2, some 1) := by decide +kernel
  obtain ⟨w, hw, hnext⟩ := Option.map_eq_some_iff.mp hrun
  obtain ⟨h1, h2⟩ := Prod.mk.inj hnext
  refine ⟨w, run_reaches (fun w w' u now ev _ hp hs => ⟨u, now, ev, hp, hs⟩) hw, fun hfree => ?_⟩
  refine hfree (fun i => if i % 2 = 0 then 1 else 2) 2 (fun i hi => ?_) 0 2 (by decide) le_rfl rfl
  interval_cases i
  · exact ⟨by decide, h1⟩
  · exact ⟨by decide, h2⟩

end Ns2.Aodv
