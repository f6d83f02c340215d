import Ns2.Lib.Cycle
import Ns2.Lib.Simulation
import Ns2.Queue.DrrCounts
import Ns2.Queue.Sfq

/-!
# Runs of stochastic fair queueing

* `Good c s l` — the counters are right, and the buckets with packets are on the circular list `l`,
  the one that is served next first.
* `Good.enque`, `Good.deque_nil`, `Good.deque_cons` — the two calls return, and what they do to the
  list.
* `Op`, `Event`, `step`, `Turn` — the calls, with what becomes of the packets.
* `Good.run_spec` — the packets of each bucket are served in the order in which they were kept.
* `Good.round` — while a bucket waits for its turn, each of those before it is served once, or
  gets empty.
* `sfq_exact` — **work-conserving round robin in every run.**
-/

namespace Ns2.Queue.SFQ

open Function (update)
open Linked

variable {c : Config} {s s' : SFQ} {l t : List ℕ} {a b : ℕ} {pkt p : Packet} {rest : List Packet}

/-! ## The active buckets -/

/-- The active buckets are `l`, the one that is served next first. -/
structure Ring (s : SFQ) (l : List ℕ) : Prop where
  active : s.active = l.head?
  cycle : IsCycle s.next s.prev l

/-- Two states that differ in the list of active buckets only. -/
def SameButRing (s s' : SFQ) : Prop :=
  s' = { s with prev := s'.prev, next := s'.next, active := s'.active }

/-- A bucket joins the others. -/
theorem Ring.activate (h : Ring s l) (hb : b ∉ l) :
    ∃ s', s.activate b = some s' ∧ Ring s' (l ++ [b]) ∧ SameButRing s s' := by
  unfold SFQ.activate
  cases l with
  | nil =>
    rw [h.active]
    refine ⟨_, rfl, ⟨rfl, IsCycle.singleton ?_ ?_⟩, rfl⟩
    · exact Function.update_self _ _ _
    · exact Function.update_self _ _ _
  | cons a t =>
    obtain ⟨p, hp⟩ := h.cycle.exists_prev
    have hab : a ≠ b := fun hab => hb (hab ▸ List.mem_cons_self)
    have hactive : s.active = some a := h.active
    have hprev : update s.prev b (s.prev a) a = some p := by
      rw [Function.update_of_ne hab, hp]
    rw [hactive]
    simp only [hprev, Option.map_some]
    refine ⟨_, rfl, ⟨rfl, ?_⟩, rfl⟩
    have hins := h.cycle.insert hb hp
    rw [← hp] at hins
    exact hins

/-- The bucket that was served leaves the others. -/
theorem Ring.idle (h : Ring s (b :: t)) :
    ∃ s', s.idle b = some s' ∧ Ring s' t ∧ SameButRing s s' := by
  have hactive : s.active = some b := h.active
  have hnext := h.cycle.next
  unfold SFQ.idle
  rw [if_pos hactive]
  cases t with
  | nil =>
    have hself : s.next b = some b := hnext
    rw [if_pos hself]
    exact ⟨_, rfl, ⟨rfl, List.nodup_nil, trivial⟩, rfl⟩
  | cons n t =>
    have hn : s.next b = some n := hnext
    have hnb : n ≠ b := by
      rintro rfl
      exact (List.nodup_cons.mp h.cycle.nodup).1 List.mem_cons_self
    obtain ⟨p, hp⟩ := h.cycle.exists_prev
    have hpb : p ≠ b := by
      rintro rfl
      have hlast : (n :: t).getLast? = some p := by
        rw [← hp, h.cycle.prev, List.getLast?_cons_cons]
      exact (List.nodup_cons.mp h.cycle.nodup).1 (List.mem_of_getLast? hlast)
    have hprev : update s.prev n (s.prev b) b = some p := by
      rw [Function.update_of_ne hnb.symm, hp]
    rw [if_neg fun hc => hnb (Option.some.inj (hn.symm.trans hc))]
    simp only [hn, hprev, Option.bind_eq_bind, Option.bind_some]
    refine ⟨_, rfl, ⟨?_, ?_⟩, rfl⟩
    · exact (Function.update_of_ne hpb.symm _ _).trans hn
    · have hrem := h.cycle.remove_head hp
      rw [← hp] at hrem
      exact hrem

/-- It is the turn of the next bucket. -/
theorem Ring.advance (h : Ring s (a :: t)) (ha : s'.active = s.next a) (hn : s'.next = s.next)
    (hp : s'.prev = s.prev) : Ring s' (t ++ [a]) :=
  ⟨ha.trans h.cycle.next, hn ▸ hp ▸ IsCycle.rotate (A := [a]) (B := t) h.cycle⟩

theorem Ring.congr (h : Ring s l) (ha : s'.active = s.active) (hn : s'.next = s.next)
    (hp : s'.prev = s.prev) : Ring s' l :=
  ⟨ha.trans h.active, hn ▸ hp ▸ h.cycle⟩

/-! ## Counters -/

/-- The counters are right, and the buckets with packets are on the list `l`. -/
structure Good (c : Config) (s : SFQ) (l : List ℕ) : Prop where
  pkts : ∀ b, s.pkts b = (s.queue b).length
  occupied : s.occupied = ∑ b ∈ Finset.range c.buckets_, s.pkts b
  home : ∀ b, s.queue b ≠ [] → b < c.buckets_
  ring : Ring s l
  mem : ∀ b, b ∈ l ↔ s.queue b ≠ []
  limit : s.occupied ≤ max c.maxqueue_ 0

theorem good_init : Good c init [] where
  pkts := fun _ => rfl
  occupied := by simp [init]
  home := fun _ h => absurd rfl h
  ring := ⟨rfl, List.nodup_nil, trivial⟩
  mem := fun b => by simp [init]
  limit := le_max_right _ _

/-- The counters are right. -/
structure Counts (c : Config) (s : SFQ) : Prop where
  pkts : ∀ b, s.pkts b = (s.queue b).length
  occupied : s.occupied = ∑ b ∈ Finset.range c.buckets_, s.pkts b
  home : ∀ b, s.queue b ≠ [] → b < c.buckets_
  limit : s.occupied ≤ max c.maxqueue_ 0

theorem Good.counts (h : Good c s l) : Counts c s :=
  ⟨h.pkts, h.occupied, h.home, h.limit⟩

theorem Counts.good (h : Counts c s) (hring : Ring s l) (hmem : ∀ b, b ∈ l ↔ s.queue b ≠ []) :
    Good c s l :=
  ⟨h.pkts, h.occupied, h.home, hring, hmem, h.limit⟩

theorem SameButRing.queue (hs : SameButRing s s') : s'.queue = s.queue := by
  unfold SameButRing at hs
  rw [hs]

/-- The list of active buckets is not counted. -/
theorem Counts.congr (h : Counts c s) (hs : SameButRing s s') : Counts c s' := by
  unfold SameButRing at hs
  rw [hs]
  exact ⟨h.pkts, h.occupied, h.home, h.limit⟩

/-- A packet arrives for which there is room. -/
theorem Counts.arrive (h : Counts c s) (hb : b < c.buckets_)
    (hroom : ¬ c.maxqueue_ - s.occupied ≤ 0) : Counts c (s.arrive b pkt) := by
  refine ⟨fun x => ?_, ?_, fun x hx => ?_, ?_⟩
  · by_cases hx : x = b
    · subst hx
      simp [SFQ.arrive, h.pkts]
    · simp [SFQ.arrive, hx, h.pkts]
  · simp only [SFQ.arrive]
    rw [DRR.sum_update hb, h.occupied]
    ring
  · by_cases hxb : x = b
    · exact hxb ▸ hb
    · exact h.home x (by simpa [SFQ.arrive, hxb] using hx)
  · simp only [SFQ.arrive]
    omega

/-- The first packet of a bucket is taken out. -/
theorem Counts.taken (h : Counts c s) (hq : s.queue b = p :: rest) : Counts c (s.taken b) := by
  have hb : b < c.buckets_ := h.home b (by simp [hq])
  refine ⟨fun x => ?_, ?_, fun x hx => ?_, ?_⟩
  · by_cases hx : x = b
    · subst hx
      simp [SFQ.taken, h.pkts, hq]
    · simp [SFQ.taken, hx, h.pkts]
  · simp only [SFQ.taken]
    rw [DRR.sum_update hb, h.occupied]
    ring
  · by_cases hxb : x = b
    · exact hxb ▸ hb
    · exact h.home x (by simpa [SFQ.taken, hxb] using hx)
  · have := h.limit
    simp only [SFQ.taken]
    omega

variable (pkt) in
/-- A packet arrives, and stays or is refused. -/
theorem Good.enque (h : Good c s l) (hb : b < c.buckets_) :
    s.enque c b pkt = some (s, false) ∨
      ∃ s', s.enque c b pkt = some (s', true) ∧
        s'.queue = update s.queue b (s.queue b ++ [pkt]) ∧
        Good c s' (if s.queue b = [] then l ++ [b] else l) := by
  unfold SFQ.enque
  by_cases href : s.Refuses c b
  · exact Or.inl (if_pos href)
  · right
    rw [if_neg href]
    have hcounts : Counts c (s.arrive b pkt) :=
      h.counts.arrive hb fun hle => href (Or.inr (Or.inr hle))
    have hpk : (s.arrive b pkt).pkts b = s.pkts b + 1 := Function.update_self _ _ _
    have hring : Ring (s.arrive b pkt) l := h.ring.congr rfl rfl rfl
    unfold SFQ.joinIfFirst
    by_cases hq : s.queue b = []
    · have hone : (s.arrive b pkt).pkts b = 1 := by
        rw [hpk, h.pkts, hq]
        rfl
      obtain ⟨s', hs', hring', hsame⟩ := hring.activate (mt (h.mem b).mp (not_not.mpr hq))
      rw [if_pos hone, hs', if_pos hq]
      refine ⟨s', rfl, hsame.queue, (hcounts.congr hsame).good hring' fun x => ?_⟩
      rw [hsame.queue]
      by_cases hx : x = b
      · subst hx
        simp [arrive]
      · simp [arrive, hx, h.mem x]
    · have hne : (s.arrive b pkt).pkts b ≠ 1 := by
        rw [hpk, h.pkts]
        have := List.length_pos_iff.mpr hq
        omega
      rw [if_neg hne, if_neg hq]
      refine ⟨_, rfl, rfl, hcounts.good hring fun x => ?_⟩
      by_cases hx : x = b
      · subst hx
        simp [arrive, h.mem x, hq]
      · simp [arrive, hx, h.mem x]

/-- Nothing is served if no bucket has packets. -/
theorem Good.deque_nil (h : Good c s []) : s.deque = some (s, none) := by
  have hactive : s.active = none := h.ring.active
  unfold SFQ.deque
  rw [hactive]

/-- The first bucket of the list is served, and goes to the end of it, or leaves it. -/
theorem Good.deque_cons (h : Good c s (b :: t)) :
    ∃ s' p rest, s.queue b = p :: rest ∧ s.deque = some (s', some (b, p)) ∧
      s'.queue = update s.queue b rest ∧ Good c s' (if rest = [] then t else t ++ [b]) := by
  have hactive : s.active = some b := h.ring.active
  obtain ⟨p, rest, hq⟩ := List.exists_cons_of_ne_nil ((h.mem b).mp List.mem_cons_self)
  have hcounts : Counts c (s.taken b) := h.counts.taken hq
  have hring : Ring (s.taken b) (b :: t) := h.ring.congr rfl rfl rfl
  have htaken : (s.taken b).queue = update s.queue b rest := by simp [taken, hq]
  have hdeque : ∀ s', (s.taken b).passOn b = some s' → s.deque = some (s', some (b, p)) := by
    intro s' hs'
    unfold SFQ.deque
    rw [hactive]
    simp [hs', hq]
  unfold SFQ.passOn at hdeque
  cases rest with
  | nil =>
    have hz : (s.taken b).pkts b = 0 := by
      rw [hcounts.pkts, htaken]
      simp
    obtain ⟨s', hs', hring', hsame⟩ := hring.idle
    rw [if_pos hz] at hdeque
    refine ⟨s', p, [], hq, hdeque s' hs', hsame.queue.trans htaken,
      (hcounts.congr hsame).good hring' fun x => ?_⟩
    rw [hsame.queue, htaken]
    by_cases hx : x = b
    · subst hx
      simpa using (List.nodup_cons.mp h.ring.cycle.nodup).1
    · have := h.mem x
      simpa [hx] using this
  | cons q rest =>
    have hz : (s.taken b).pkts b ≠ 0 := by
      rw [hcounts.pkts, htaken]
      simp
      omega
    rw [if_neg hz] at hdeque
    refine ⟨_, p, q :: rest, hq, hdeque _ rfl, htaken,
      Counts.good ⟨hcounts.pkts, hcounts.occupied, hcounts.home, hcounts.limit⟩
        (hring.advance rfl rfl rfl) fun x => ?_⟩
    simp only [htaken]
    by_cases hx : x = b
    · subst hx
      simp
    · have := h.mem x
      simpa [hx] using this

/-! ## Runs -/

/-- A packet arrives, or one is asked for. -/
inductive Op where
  | enque (pkt : Packet)
  | deque

/-- What becomes of the packets; those kept and served come with their bucket. -/
inductive Event where
  | kept (b : ℕ) (pkt : Packet)
  | dropped (pkt : Packet)
  | served (b : ℕ) (pkt : Packet)
  | empty
deriving DecidableEq

def step (c : Config) (s : SFQ) : Op → Option (SFQ × Event)
  | .enque pkt =>
    (c.bucket pkt).bind fun b =>
      (s.enque c b pkt).map fun r => (r.1, if r.2 then .kept b pkt else .dropped pkt)
  | .deque =>
    s.deque.map fun r => (r.1, r.2.elim .empty fun bp => .served bp.1 bp.2)

/-- The packets that were put into a bucket. -/
def keptIn (b : ℕ) (evs : List Event) : List Packet :=
  evs.filterMap fun
    | .kept b' pkt => if b' = b then some pkt else none
    | _ => none

/-- The packets that were served from a bucket. -/
def servedIn (b : ℕ) (evs : List Event) : List Packet :=
  evs.filterMap fun
    | .served b' pkt => if b' = b then some pkt else none
    | _ => none

@[simp] theorem keptIn_nil : keptIn b [] = [] := rfl

@[simp] theorem servedIn_nil : servedIn b [] = [] := rfl

theorem keptIn_cons (e : Event) (evs : List Event) :
    keptIn b (e :: evs) = keptIn b [e] ++ keptIn b evs :=
  List.filterMap_append (l := [e])

theorem servedIn_cons (e : Event) (evs : List Event) :
    servedIn b (e :: evs) = servedIn b [e] ++ servedIn b evs :=
  List.filterMap_append (l := [e])

/-- What a call does to the packets in the buckets and to the list of active buckets. -/
inductive Turn (q : ℕ → List Packet) : List ℕ → Event → (ℕ → List Packet) → List ℕ → Prop
  | dropped (l : List ℕ) (pkt : Packet) : Turn q l (.dropped pkt) q l
  | kept (l : List ℕ) (b : ℕ) (pkt : Packet) :
    Turn q l (.kept b pkt) (update q b (q b ++ [pkt])) (if q b = [] then l ++ [b] else l)
  | empty : Turn q [] .empty q []
  | served {b : ℕ} {t : List ℕ} {pkt : Packet} {rest : List Packet} (h : q b = pkt :: rest) :
    Turn q (b :: t) (.served b pkt) (update q b rest) (if rest = [] then t else t ++ [b])

/-- The index of the bucket of a packet that arrives is one of the array. -/
def ValidOp (c : Config) : Op → Prop
  | .enque pkt => c.Valid pkt
  | .deque => True

/-- Every call returns. -/
theorem Good.step (h : Good c s l) {op : Op} (hop : ValidOp c op) :
    ∃ s' e l', step c s op = some (s', e) ∧ Turn s.queue l e s'.queue l' ∧ Good c s' l' := by
  cases op with
  | enque pkt =>
    have hb : (c.which pkt).toNat < c.buckets_ := by
      have := hop.1
      have := hop.2
      omega
    have hbucket : c.bucket pkt = some (c.which pkt).toNat := if_pos hop
    simp only [SFQ.step, hbucket, Option.bind_some]
    rcases h.enque pkt hb with he | ⟨s', he, hq, hgood⟩
    · exact ⟨s, .dropped pkt, l, by simp [he], .dropped l pkt, h⟩
    · refine ⟨s', .kept (c.which pkt).toNat pkt, _, by simp [he], ?_, hgood⟩
      rw [hq]
      exact .kept l _ pkt
  | deque =>
    cases l with
    | nil => exact ⟨s, .empty, [], by simp [SFQ.step, h.deque_nil], .empty, h⟩
    | cons b t =>
      obtain ⟨s', p, rest, hq, he, hq', hgood⟩ := h.deque_cons
      refine ⟨s', .served b p, _, by simp [SFQ.step, he], ?_, hgood⟩
      rw [hq']
      exact .served hq

/-- A run of the calls: the last state, and what became of the packets. -/
def run (c : Config) (s : SFQ) (es : List Op) : Option (SFQ × List Event) :=
  Simulation.run (step c) s es

/-- A run of one call more, from its first call. -/
theorem run_cons {op : Op} {es : List Op} {e : Event} (he : step c s op = some (s', e)) :
    run c s (op :: es) = (run c s' es).map fun r => (r.1, e :: r.2) := by
  simp [run, Simulation.run, he]

/-! ## The order within a bucket -/

/-- What was in a bucket, with what is put into it, is what is served from it with what is left. -/
theorem Turn.conserve {q q' : ℕ → List Packet} {e : Event} (h : Turn q l e q' t) (b : ℕ) :
    servedIn b [e] ++ q' b = q b ++ keptIn b [e] := by
  cases h with
  | dropped => simp [servedIn, keptIn]
  | empty => simp [servedIn, keptIn]
  | kept l a pkt =>
    by_cases hab : a = b
    · subst hab
      simp [servedIn, keptIn]
    · simp [servedIn, keptIn, hab, Ne.symm hab]
  | @served a t pkt rest hq =>
    by_cases hab : a = b
    · subst hab
      simp [servedIn, keptIn, hq]
    · simp [servedIn, keptIn, hab, Ne.symm hab]

/-- The same over a run, which returns. -/
theorem Good.run_spec (es : List Op) (h : Good c s l) (hes : ∀ op ∈ es, ValidOp c op) :
    ∃ s' evs l', run c s es = some (s', evs) ∧ Good c s' l' ∧
      ∀ b, servedIn b evs ++ s'.queue b = s.queue b ++ keptIn b evs := by
  induction es generalizing s l with
  | nil => exact ⟨s, [], l, rfl, h, fun b => by simp⟩
  | cons op es ih =>
    obtain ⟨s₁, e, l₁, he, hturn, h₁⟩ := h.step (hes op List.mem_cons_self)
    obtain ⟨s', evs, l', hrun, h', hq⟩ := ih h₁ fun op hop => hes op (List.mem_cons_of_mem _ hop)
    refine ⟨s', e :: evs, l', by rw [run_cons he, hrun]; rfl, h', ?_⟩
    intro b
    calc servedIn b (e :: evs) ++ s'.queue b
        = servedIn b [e] ++ (servedIn b evs ++ s'.queue b) := by
          rw [servedIn_cons, List.append_assoc]
      _ = (servedIn b [e] ++ s₁.queue b) ++ keptIn b evs := by rw [hq b, List.append_assoc]
      _ = s.queue b ++ keptIn b (e :: evs) := by
          rw [hturn.conserve b, keptIn_cons e evs, List.append_assoc]

/-! ## Round robin -/

/-- The bucket has packets in every state of the run, its first and its last state among them. -/
def Backlogged (c : Config) (s : SFQ) (es : List Op) (b : ℕ) : Prop :=
  ∀ es' s' evs, es' <+: es → run c s es' = some (s', evs) → s'.queue b ≠ []

theorem Backlogged.first {es : List Op} (h : Backlogged c s es b) : s.queue b ≠ [] :=
  h [] s [] List.nil_prefix rfl

theorem Backlogged.tail {op : Op} {es : List Op} {e : Event} (h : Backlogged c s (op :: es) b)
    (he : SFQ.step c s op = some (s', e)) : Backlogged c s' es b := by
  intro es' s'' evs hpre hrun
  refine h (op :: es') s'' (e :: evs) (List.cons_prefix_cons.mpr ⟨rfl, hpre⟩) ?_
  rw [run_cons he, hrun]
  rfl

/-- A call that does not serve `a`: a bucket that keeps its packets is served if it goes from
before `a` to behind it, and only then. -/
theorem Turn.round {q q' : ℕ → List Packet} {e : Event} {A B l' : List ℕ}
    (h : Turn q l e q' l') (hl : l = A ++ a :: B) (hb : q' b ≠ []) (ha : servedIn a [e] = []) :
    ∃ A' B', l' = A' ++ a :: B' ∧ (servedIn b [e]).length + A'.count b = A.count b := by
  cases h with
  | dropped => exact ⟨A, B, hl, by simp [servedIn]⟩
  | empty => exact absurd hl (by simp)
  | kept l x pkt =>
    subst hl
    by_cases hx : q x = []
    · exact ⟨A, B ++ [x], by simp [hx], by simp [servedIn]⟩
    · exact ⟨A, B, by simp [hx], by simp [servedIn]⟩
  | @served x t pkt rest hq =>
    cases A with
    | nil =>
      obtain ⟨rfl, rfl⟩ := List.cons.inj hl
      exact absurd ha (by simp [servedIn])
    | cons y A =>
      obtain ⟨rfl, rfl⟩ := List.cons.inj hl
      by_cases hrest : rest = []
      · -- the bucket is empty now, so it is not `b`
        have hxb : x ≠ b := by
          rintro rfl
          exact hb (by simp [hrest])
        exact ⟨A, B, by simp [hrest], by simp [servedIn, hxb]⟩
      · refine ⟨A, B ++ [x], by simp [hrest], ?_⟩
        by_cases hxb : x = b
        · subst hxb
          simp [servedIn, add_comm]
        · simp [servedIn, hxb]

/-- The same over a run. -/
theorem Good.round {es : List Op} {A B : List ℕ} {evs : List Event} (h : Good c s (A ++ a :: B))
    (hes : ∀ op ∈ es, ValidOp c op) (hrun : run c s es = some (s', evs))
    (hb : Backlogged c s es b) (ha : servedIn a evs = []) :
    ∃ A' B', Good c s' (A' ++ a :: B') ∧ (servedIn b evs).length + A'.count b = A.count b := by
  induction es generalizing s A B evs with
  | nil =>
    obtain ⟨rfl, rfl⟩ := Prod.mk.inj (Option.some.inj hrun)
    exact ⟨A, B, h, by simp⟩
  | cons op es ih =>
    obtain ⟨s₁, e, l₁, he, hturn, h₁⟩ := h.step (hes op List.mem_cons_self)
    rw [run_cons he] at hrun
    obtain ⟨⟨s₂, evs₂⟩, hrun₂, heq⟩ := Option.map_eq_some_iff.mp hrun
    obtain ⟨rfl, rfl⟩ := Prod.mk.inj heq
    have hb₁ := hb.tail he
    rw [servedIn_cons] at ha
    obtain ⟨ha₁, ha₂⟩ := List.append_eq_nil_iff.mp ha
    obtain ⟨A₁, B₁, rfl, hcount⟩ := hturn.round rfl hb₁.first ha₁
    obtain ⟨A', B', h', hcount'⟩ :=
      ih h₁ (fun op hop => hes op (List.mem_cons_of_mem _ hop)) hrun₂ hb₁ ha₂
    refine ⟨A', B', h', ?_⟩
    calc (servedIn b (e :: evs₂)).length + A'.count b
        = (servedIn b [e]).length + ((servedIn b evs₂).length + A'.count b) := by
          rw [servedIn_cons, List.length_append, add_assoc]
      _ = A.count b := by rw [hcount', hcount]

/-- Between two consecutive services of a bucket that keeps its packets, every other bucket that
keeps its packets is served once. -/
def RoundRobin (c : Config) (es : List Op) : Prop :=
  ∀ es₁ es₂ s₁ s₂ s₃ s₄ evs₁ evs₂ a p p',
    es = es₁ ++ Op.deque :: es₂ ++ [Op.deque] →
    run c init es₁ = some (s₁, evs₁) → s₁.deque = some (s₂, some (a, p)) →
    run c s₂ es₂ = some (s₃, evs₂) → servedIn a evs₂ = [] →
    s₃.deque = some (s₄, some (a, p')) → Backlogged c s₂ es₂ a →
    ∀ b, b ≠ a → Backlogged c s₂ es₂ b → (servedIn b evs₂).length = 1

theorem roundRobin {es : List Op} (hes : ∀ op ∈ es, ValidOp c op) : RoundRobin c es := by
  intro es₁ es₂ s₁ s₂ s₃ s₄ evs₁ evs₂ a p p' heq hrun₁ hfirst hrun₂ hnone hlast ha b hba hb
  subst heq
  obtain ⟨t₁, _, l₁, ht₁, h₁, -⟩ :=
    good_init.run_spec es₁ fun op hop => hes op (by simp [hop])
  obtain ⟨rfl, rfl⟩ := Prod.mk.inj (Option.some.inj (ht₁.symm.trans hrun₁))
  -- the bucket that is served first goes to the end of the list
  obtain ⟨A, h₂⟩ : ∃ A, Good c s₂ (A ++ [a]) := by
    cases l₁ with
    | nil => exact absurd (h₁.deque_nil.symm.trans hfirst) (by simp)
    | cons x A =>
      obtain ⟨t₂, q, rest, hq, hserve, hqueue, h₂⟩ := h₁.deque_cons
      obtain ⟨rfl, hxq⟩ := Prod.mk.inj (Option.some.inj (hserve.symm.trans hfirst))
      obtain ⟨rfl, rfl⟩ := Prod.mk.inj (Option.some.inj hxq)
      have hrest : rest ≠ [] := by
        have := ha.first
        rwa [hqueue, Function.update_self] at this
      rw [if_neg hrest] at h₂
      exact ⟨A, h₂⟩
  obtain ⟨A', B', h₃, hcount⟩ :=
    h₂.round (fun op hop => hes op (by simp [hop])) hrun₂ hb hnone
  -- it is first again, so nothing is left before it
  have hA' : A' = [] := by
    cases A' with
    | nil => rfl
    | cons x A' =>
      obtain ⟨_, q, _, _, hserve, _, _⟩ := h₃.deque_cons
      obtain ⟨-, hxq⟩ := Prod.mk.inj (Option.some.inj (hserve.symm.trans hlast))
      obtain ⟨rfl, -⟩ := Prod.mk.inj (Option.some.inj hxq)
      exact absurd h₃.ring.cycle.nodup (by simp)
  have hmem : b ∈ A := by
    have := (h₂.mem b).mpr hb.first
    simpa [hba] using this
  have hone : A.count b = 1 :=
    List.count_eq_one_of_mem (List.nodup_append.mp h₂.ring.cycle.nodup).1 hmem
  rw [hA', List.count_nil] at hcount
  omega

/-- **Stochastic fair queueing is work-conserving round robin.**  Every run whose bucket indices
are valid returns.  The number of packets is the sum over the buckets and at most the limit, the
circular list has the buckets with packets, once each, the packets of a bucket leave in the order
in which they came, a packet is returned if there is one, and the buckets take turns. -/
theorem sfq_exact (c : Config) (es : List Op) (hes : ∀ op ∈ es, ValidOp c op) :
    ∃ s evs l, run c init es = some (s, evs) ∧
      (∀ b, s.pkts b = (s.queue b).length) ∧
      s.occupied = ∑ b ∈ Finset.range c.buckets_, s.pkts b ∧ s.occupied ≤ max c.maxqueue_ 0 ∧
      (s.active = l.head? ∧ IsCycle s.next s.prev l ∧ l.Nodup ∧ ∀ b, b ∈ l ↔ s.queue b ≠ []) ∧
      (∀ b, keptIn b evs = servedIn b evs ++ s.queue b) ∧
      (∃ s' r, s.deque = some (s', r) ∧ (r.isSome ↔ ∃ b, s.queue b ≠ [])) ∧
      RoundRobin c es := by
  obtain ⟨s, evs, l, hrun, h, hq⟩ := good_init.run_spec es hes
  refine ⟨s, evs, l, hrun, h.pkts, h.occupied, h.limit,
    ⟨h.ring.active, h.ring.cycle, h.ring.cycle.nodup, h.mem⟩, fun b => (hq b).symm, ?_,
    roundRobin hes⟩
  cases l with
  | nil => exact ⟨s, none, h.deque_nil, by simpa using h.mem⟩
  | cons b t =>
    obtain ⟨s', p, _, _, hserve, _⟩ := h.deque_cons
    exact ⟨s', _, hserve, by simpa using ⟨b, (h.mem b).mp List.mem_cons_self⟩⟩

/-- The defaults, and a packet that comes and goes. -/
theorem sfq_exact_one :
    let es := [Op.enque ⟨0, 256, 0⟩, Op.deque]
    (∀ op ∈ es, ValidOp ⟨40, 16⟩ op) ∧ RoundRobin ⟨40, 16⟩ es := by
  have hes : ∀ op ∈ [Op.enque ⟨0, 256, 0⟩, Op.deque], ValidOp ⟨40, 16⟩ op := by
    simp only [List.forall_mem_cons, List.not_mem_nil, false_imp_iff, implies_true, and_true]
    exact ⟨(by decide +kernel : Config.Valid ⟨40, 16⟩ ⟨0, 256, 0⟩), trivial⟩
  obtain ⟨_, _, _, _, _, _, _, _, _, _, hround⟩ := sfq_exact ⟨40, 16⟩ _ hes
  exact ⟨hes, hround⟩

end Ns2.Queue.SFQ
