import Ns2.Lib.Run
import Ns2.Routealgo.BfsShortest

/-!
# Forwarding by NIx-vectors

The model of `nix/classifier-nix.cc`, of the vectors that `nix/nixnode.cc` keeps for a node, and of
what `Agent::initpkt` writes into the header of `nix/hdr_nv.h`.  A packet points to the vector that its
source keeps for its destination, and has its own count of the bits that are used; so the packets of a
source share the vector.

* `GetNixVector`, `find`, `recv` — the functions of the source.
* `step` — a packet is sent, or the classifier of the node where a packet is takes it.
* `Route` — indices that lead from a node to another one.
* `OnRoute`, `step_spec` — the invariant of a packet, and what a step does under it.
* `nix_forwards` — every packet takes a shortest path, in any interleaving.
-/

namespace Ns2.Nix

open Routealgo ShortestPath NixVec

variable {w : ℕ} {nodes : List (List ℕ)}

/-! ## The functions -/

/-- `Extract(n, pUsed)`: the next `n` bits, and the new value of `*pUsed`. -/
def extractFrom (v : NixVec w) (n used : ℕ) : Option (BitVec w × ℕ) :=
  (extract { v with m_used := used } n).map fun r => (r.1, r.2.m_used)

/-- `GetNixl`: the bits of an index; `size() - 1` is unsigned. -/
def GetNixl (w : ℕ) (m_Adj : List ℕ) : ℕ := GetBitl ((m_Adj.length + (2 ^ w - 1)) % 2 ^ w)

/-- Where a packet goes: to the demultiplexer of the node, or into the link to a neighbor. -/
inductive NsObject
  | m_Dmux
  | linkHead (v : ℕ)
  deriving DecidableEq

/-- `PopulateObjects`: the heads of the links, in the order of the neighbors. -/
def PopulateObjects (m_Adj : List ℕ) : List NsObject := m_Adj.map .linkHead

/-- `GetNsNeighbor`. -/
def GetNsNeighbor (m_AdjObj : List NsObject) (n : ℕ) : Option NsObject := m_AdjObj[n]?

/-- The vectors of all nodes: `m_pNixVecs` of a node, for a target. -/
abbrev NixVecs (w : ℕ) := ℕ → ℕ → Option (NixVec w)

/-- `GetNixVector`: the vector for `t` is there after it, and is reset. -/
def GetNixVector (nodes : List (List ℕ)) (fuel : ℕ) (m_pNixVecs : NixVecs w) (m_id t : ℕ) :
    Option (NixVecs w) :=
  match m_pNixVecs m_id t with
  | some pNv => some (Function.update m_pNixVecs m_id (Function.update (m_pNixVecs m_id) t (some pNv.Reset)))
  | none => (ComputeNixVector w nodes m_id t fuel).map fun r =>
      Function.update m_pNixVecs m_id (Function.update (m_pNixVecs m_id) t (some r.2.Reset))

/-- A packet.  The last three fields are not in the source: where it was sent, where it is, and how
many links it has been over. -/
structure Packet where
  daddr : ℕ
  /-- The vector: whose it is, and for which target. -/
  pNv : Option (ℕ × ℕ)
  /-- The bits of it that are used. -/
  h_used : ℕ
  src : ℕ
  node : ℕ
  hops : ℕ

/-- `NixClassifier::find` at a node: nothing when the program ends; the object may be `NULL`. -/
def find (nodes : List (List ℕ)) (m_pNixVecs : NixVecs w) (m_NodeId : ℕ) (p : Packet) :
    Option (Option NsObject × Packet) :=
  if m_NodeId = NODE_NONE then some (none, p)
  else
    nodes[m_NodeId]?.bind fun m_Adj =>
      if p.daddr = m_NodeId then some (some .m_Dmux, p)
      else
        match p.pNv with
        | none => some (none, p)
        | some (m_id, t) =>
          (m_pNixVecs m_id t).bind fun pNv =>
            (extractFrom pNv (GetNixl w m_Adj) p.h_used).bind fun r =>
              (GetNeighbor m_Adj r.1.toNat).map fun _ =>
                (GetNsNeighbor (PopulateObjects m_Adj) r.1.toNat, { p with h_used := r.2 })

/-! ## The network -/

/-- The vectors of the nodes; the packets on their way, those handed to a demultiplexer, and those
that a classifier has freed. -/
structure Net (w : ℕ) where
  m_pNixVecs : NixVecs w
  flying : List Packet
  received : List Packet
  freed : List Packet

/-- Before the first packet. -/
def Net.init (w : ℕ) : Net w := ⟨fun _ _ => none, [], [], []⟩

inductive Event
  | send (src daddr : ℕ)
  | hop (i : ℕ)

/-- `Agent::initpkt`: the header of a packet that is sent. -/
def send (nodes : List (List ℕ)) (fuel : ℕ) (n : Net w) (src daddr : ℕ) : Option (Net w) :=
  (GetNixVector nodes fuel n.m_pNixVecs src daddr).map fun m_pNixVecs =>
    { n with m_pNixVecs := m_pNixVecs
             flying := n.flying ++ [⟨daddr, some (src, daddr), 0, src, src, 0⟩] }

/-- `Classifier::recv` for a packet: where it goes from its node. -/
def recv (nodes : List (List ℕ)) (n : Net w) (i : ℕ) (p : Packet) : Option (Net w) :=
  (find nodes n.m_pNixVecs p.node p).map fun r =>
    match r.1 with
    | none => { n with flying := n.flying.eraseIdx i, freed := n.freed ++ [r.2] }
    | some .m_Dmux => { n with flying := n.flying.eraseIdx i, received := n.received ++ [r.2] }
    | some (.linkHead v) =>
      { n with flying := n.flying.set i { r.2 with node := v, hops := r.2.hops + 1 } }

/-- One event; a hop of no packet does nothing. -/
def step (nodes : List (List ℕ)) (fuel : ℕ) (n : Net w) : Event → Option (Net w)
  | .send src daddr => send nodes fuel n src daddr
  | .hop i =>
    match n.flying[i]? with
    | none => some n
    | some p => recv nodes n i p

/-! ## Routes -/

/-- The pairs lead from `u` to `t`: each is the pair of the next node among its neighbors. -/
def Route (nodes : List (List ℕ)) : ℕ → List (ℕ × ℕ) → ℕ → Prop
  | u, [], t => u = t
  | u, p :: l, t => ∃ v ∈ nodes.getD u [], p = GetNix (nodes.getD u []) v ∧ Route nodes v l t

variable {u v t : ℕ} {l l' : List (ℕ × ℕ)}

theorem route_append : Route nodes u (l ++ l') t ↔ ∃ v, Route nodes u l v ∧ Route nodes v l' t := by
  induction l generalizing u with
  | nil => simp [Route]
  | cons p l ih =>
    simp only [List.cons_append, Route, ih]
    constructor
    · rintro ⟨x, hx, hp, v, h1, h2⟩
      exact ⟨v, ⟨x, hx, hp, h1⟩, h2⟩
    · rintro ⟨v, ⟨x, hx, hp, h1⟩, h2⟩
      exact ⟨x, hx, hp, v, h1, h2⟩

/-- A route is a walk with a link for each pair. -/
theorem Route.walk (h : Route nodes u l t) : Walk (Link nodes) u t (l.length : ℤ) := by
  induction l generalizing u with
  | nil =>
    obtain rfl : u = t := h
    exact Walk.nil
  | cons p l ih =>
    obtain ⟨v, hv, -, hrest⟩ := h
    have hlink : Link nodes u v 1 := ⟨hv, rfl⟩
    have hwalk := Walk.cons hlink (ih hrest)
    rwa [List.length_cons, Nat.cast_succ, add_comm]

theorem Route.lt (h : Route nodes u l t) (hg : Graph nodes) (hu : u < nodes.length) :
    t < nodes.length := by
  induction l generalizing u with
  | nil =>
    obtain rfl : u = t := h
    exact hu
  | cons p l ih =>
    obtain ⟨v, hv, -, hrest⟩ := h
    rw [List.getD_eq_getElem _ _ hu] at hv
    exact ih hrest (hg.adjacent _ (List.getElem_mem hu) v hv)

/-- What is left of a shortest path is a shortest path. -/
theorem Route.isDist_rest (h : Route nodes u l v) (h' : Route nodes v l' t)
    (hd : IsDist (Link nodes) u t ((l.length + l'.length : ℕ) : ℤ)) :
    IsDist (Link nodes) v t (l'.length : ℤ) := by
  refine ⟨h'.walk, fun c q => ?_⟩
  have hle := hd.least _ (h.walk.trans q)
  push_cast at hle
  omega

/-- The pairs that `NixRoute` adds are a route. -/
theorem route_nixPred {root : ℕ} {s : Search w} {S : Finset ℕ} (h : Inv nodes root s S)
    (hg : Graph nodes) {fuel : ℕ} (ht : t ∈ S) (hl : NixPred nodes s.Parent root fuel t = some l) :
    Route nodes root l t := by
  induction fuel generalizing t l with
  | zero => exact absurd hl.symm (Option.some_ne_none l)
  | succ fuel ih =>
    rw [NixPred] at hl
    split_ifs at hl with hroot hnone
    · obtain rfl := Option.some.inj hl
      exact hroot
    · exact absurd hnone (h.parent_ne hg ht (Ne.symm hroot))
    · obtain ⟨l₁, hl₁, hl⟩ := Option.bind_eq_some_iff.mp hl
      obtain ⟨h1, h2, -⟩ := h.parent t ht (Ne.symm hroot)
      dsimp only at hl
      split_ifs at hl
      obtain rfl := Option.some.inj hl
      exact route_append.mpr ⟨_, ih h1 hl₁, t, h2, rfl, rfl⟩

/-! ## The vector of a route -/

/-- Where `Extract` returns what was added: on 32 bits, and on 64 bits for indices of one bit. -/
def Reads (w : ℕ) (nodes : List (List ℕ)) : Prop :=
  w = 32 ∨ w = 64 ∧ ∀ m_Adj ∈ nodes, m_Adj.length ≤ 2

theorem Reads.le (h : Reads w nodes) : 32 ≤ w := by
  rcases h with rfl | ⟨rfl, -⟩ <;> decide

/-- The vector holds the pairs. -/
structure Carries (pNv : NixVec w) (l : List (ℕ × ℕ)) : Prop where
  stored : ∃ ws, Holds pNv ws ∧ StoredAll ws 0 l
  length : pNv.m_alth = total l
  valid : ∀ q ∈ l, Valid q

theorem total_append (l l' : List (ℕ × ℕ)) : total (l ++ l') = total l + total l' := by
  simp [total]

theorem storedAll_append {ws : List (BitVec w)} {a : ℕ} :
    StoredAll ws a (l ++ l') ↔ StoredAll ws a l ∧ StoredAll ws (a + total l) l' := by
  induction l generalizing a with
  | nil => simp [StoredAll, total]
  | cons p l ih =>
    have htotal : total (p :: l) = p.2 + total l := by simp [total]
    rw [List.cons_append, StoredAll, StoredAll, ih, htotal, and_assoc, Nat.add_assoc]

/-- **Reading one index of a route.** -/
theorem Carries.extractFrom {pNv : NixVec w} {pre post : List (ℕ × ℕ)} {q : ℕ × ℕ}
    (h : Carries pNv (pre ++ q :: post)) (hr : w = 32 ∨ w = 64 ∧ q.1 < 2) :
    extractFrom pNv q.2 (total pre) = some (BitVec.ofNat w q.1, total (pre ++ [q])) := by
  obtain ⟨ws, hH, hst⟩ := h.stored
  have hq : Valid q := h.valid q (by simp)
  have hlen := h.length
  obtain ⟨-, hst⟩ := storedAll_append.mp hst
  rw [Nat.zero_add] at hst
  have hone : total [q] = q.2 := by simp [total]
  have hsplit : pre ++ q :: post = (pre ++ [q]) ++ post := by simp
  rw [hsplit, total_append, total_append, hone] at hlen
  have hH' : Holds { pNv with m_used := total pre } ws := ⟨hH.words, hH.length⟩
  have hroom : total pre + q.2 ≤ pNv.m_alth := by omega
  rw [Nix.extractFrom, total_append, hone]
  rcases hr with rfl | ⟨rfl, hlt⟩
  · rw [hH'.extract_32 hroom hq.1 hq.2.1 hq.fits hst.1]
    rfl
  · rw [hH'.extract_64 hroom hq.1 hq.2.1 hq.fits hst.1, (low_bit_iff hq _).mpr (Or.inl hlt)]
    rfl

/-- At the end of a vector there is no index. -/
theorem extractFrom_end {pNv : NixVec w} {n used : ℕ} (h : pNv.m_alth < used + n) :
    extractFrom pNv n used = some (Nix.NIX_NONE w, used) := by
  rw [extractFrom, extract]
  simp only
  rw [if_pos h]
  rfl

/-- **The vector that is computed**: a shortest route if there is one, and empty otherwise. -/
theorem compute_spec (hg : Graph nodes) (hw : 32 ≤ w) {fuel : ℕ} (hfuel : nodes.length < fuel)
    {src : ℕ} (hs : src < nodes.length) (daddr : ℕ) :
    ∃ l pNv, ComputeNixVector w nodes src daddr fuel = some (l, pNv) ∧ Carries pNv l ∧
      (Reachable (Link nodes) src daddr →
        Route nodes src l daddr ∧ IsDist (Link nodes) src daddr (l.length : ℤ)) ∧
      (¬ Reachable (Link nodes) src daddr → l = []) := by
  obtain ⟨s, S, hbfs, h, hQ⟩ := bfs_spec (w := w) hg hw hs hfuel
  have hvector : ∀ l, NixPred nodes s.Parent src fuel daddr = some l → (∀ q ∈ l, Valid q) →
      ∃ pNv, ComputeNixVector w nodes src daddr fuel = some (l, pNv) ∧ Carries pNv l := by
    intro l hl hvalid
    have hempty : Holds (NixVec.empty w) [0] := ⟨rfl, rfl⟩
    have hblank : Blank ([0] : List (BitVec w)) 0 := by
      intro k j _
      unfold bitAt
      cases k <;> simp
    obtain ⟨pNv, ws, hadd, hH, halth, hst, -⟩ := hempty.addAll hw hvalid rfl hblank
    refine ⟨pNv, ?_, ⟨ws, hH, hst⟩, ?_, hvalid⟩
    · rw [ComputeNixVector, hbfs, Option.bind_some, hl, Option.bind_some, hadd, Option.map_some]
    · rw [halth]
      exact Nat.zero_add _
  by_cases hreach : Reachable (Link nodes) src daddr
  · have ht := (h.mem_iff hQ).mpr hreach
    obtain ⟨l, hl, hlen, -, hvalid⟩ := h.nixPred hg ht ((h.dist_lt ht).trans hfuel)
    obtain ⟨pNv, hcompute, hcarries⟩ := hvector l hl hvalid
    exact ⟨l, pNv, hcompute, hcarries, fun _ => ⟨route_nixPred h hg ht hl, hlen ▸ h.dist _ ht⟩,
      fun hnot => absurd hreach hnot⟩
  · -- the target has no parent, so nothing is added
    have ht : daddr ∉ S := fun ht => hreach ((h.mem_iff hQ).mp ht)
    have hne : src ≠ daddr := fun heq => ht (heq ▸ h.source)
    obtain ⟨f, rfl⟩ := Nat.exists_eq_add_one.mpr (Nat.zero_lt_of_lt hfuel)
    have hl : NixPred nodes s.Parent src (f + 1) daddr = some [] := by
      rw [NixPred, if_neg hne, if_pos (h.blank daddr (Or.inl ht)).1]
    obtain ⟨pNv, hcompute, hcarries⟩ := hvector [] hl fun q hq => absurd hq List.not_mem_nil
    exact ⟨[], pNv, hcompute, hcarries, fun h => absurd h hreach, fun _ => rfl⟩

theorem one_le_highestBit (l h : ℕ) : 1 ≤ highestBit l h := by
  induction h with
  | zero => exact le_rfl
  | succ h ih =>
    rw [highestBit]
    split_ifs
    · omega
    · exact ih

theorem one_le_GetNixl (w : ℕ) (m_Adj : List ℕ) : 1 ≤ GetNixl w m_Adj := one_le_highestBit _ _

/-- The bits that are read are the bits that were added. -/
theorem GetNixl_eq (hg : Graph nodes) (hw : 32 ≤ w) {m_Adj : List ℕ} (hm : m_Adj ∈ nodes)
    (hv : v ∈ m_Adj) : GetNixl w m_Adj = (GetNix m_Adj v).2 := by
  have hpos := List.length_pos_of_mem hv
  have hle := hg.degree m_Adj hm
  have hpow : 2 ^ 32 ≤ 2 ^ w := Nat.pow_le_pow_right (by decide) hw
  have hnone : Routealgo.NIX_NONE < 2 ^ 32 := by decide
  have hsum : m_Adj.length + (2 ^ w - 1) = m_Adj.length - 1 + 2 ^ w := by omega
  rw [GetNixl, hsum, Nat.add_mod_right, Nat.mod_eq_of_lt (by omega), GetNix, if_pos hv]

/-! ## The invariant -/

section invariant

variable {fuel : ℕ} {n n' : Net w} {m_pNixVecs : NixVecs w} {p : Packet}

/-- The vectors that are kept are the computed ones, reset. -/
def Kept (nodes : List (List ℕ)) (fuel : ℕ) (m_pNixVecs : NixVecs w) : Prop :=
  ∀ src daddr v, m_pNixVecs src daddr = some v →
    ∃ l pNv, ComputeNixVector w nodes src daddr fuel = some (l, pNv) ∧ v = pNv.Reset

/-- A packet has used the first pairs of its route, and the others lead to its destination. -/
structure OnRoute (nodes : List (List ℕ)) (fuel : ℕ) (m_pNixVecs : NixVecs w) (p : Packet) : Prop where
  src_lt : p.src < nodes.length
  vector : p.pNv = some (p.src, p.daddr)
  split : ∃ pre post pNv, ComputeNixVector w nodes p.src p.daddr fuel = some (pre ++ post, pNv) ∧
    m_pNixVecs p.src p.daddr = some pNv.Reset ∧ p.hops = pre.length ∧ p.h_used = total pre ∧
    Route nodes p.src pre p.node ∧
    (Reachable (Link nodes) p.src p.daddr → Route nodes p.node post p.daddr)

/-- A packet has arrived in the least number of hops. -/
def Arrived (nodes : List (List ℕ)) (p : Packet) : Prop :=
  p.node = p.daddr ∧ IsDist (Link nodes) p.src p.daddr (p.hops : ℤ)

structure Sound (nodes : List (List ℕ)) (fuel : ℕ) (n : Net w) : Prop where
  kept : Kept nodes fuel n.m_pNixVecs
  flying : ∀ p ∈ n.flying, OnRoute nodes fuel n.m_pNixVecs p
  received : ∀ p ∈ n.received, Arrived nodes p
  freed : n.freed = []

theorem sound_init (nodes : List (List ℕ)) (fuel : ℕ) : Sound nodes fuel (Net.init w) where
  kept := fun _ _ _ h => absurd h.symm (Option.some_ne_none _)
  flying := fun _ h => absurd h List.not_mem_nil
  received := fun _ h => absurd h List.not_mem_nil
  freed := rfl

/-- **The vector of a destination**: computed or kept, it is the same one. -/
theorem GetNixVector_spec (hg : Graph nodes) (hw : 32 ≤ w) (hfuel : nodes.length < fuel)
    (hk : Kept nodes fuel m_pNixVecs) {src : ℕ} (hs : src < nodes.length) (daddr : ℕ) :
    ∃ l pNv, ComputeNixVector w nodes src daddr fuel = some (l, pNv) ∧
      GetNixVector nodes fuel m_pNixVecs src daddr = some (Function.update m_pNixVecs src
        (Function.update (m_pNixVecs src) daddr (some pNv.Reset))) := by
  obtain ⟨l, pNv, hcompute, -⟩ := compute_spec hg hw hfuel hs daddr
  refine ⟨l, pNv, hcompute, ?_⟩
  rw [GetNixVector]
  cases hv : m_pNixVecs src daddr with
  | none => simp only [hcompute, Option.map_some]
  | some v =>
    obtain ⟨l', pNv', hcompute', rfl⟩ := hk src daddr v hv
    obtain ⟨-, rfl⟩ := Prod.mk.inj (Option.some.inj (hcompute.symm.trans hcompute'))
    rfl

/-- A vector that is put in again changes none. -/
theorem update_kept {a b src daddr : ℕ} {pNv v : NixVec w} {l l' : List (ℕ × ℕ)}
    (hcompute : ComputeNixVector w nodes a b fuel = some (l, pNv))
    (h : ComputeNixVector w nodes src daddr fuel = some (l', v))
    (hv : m_pNixVecs src daddr = some v.Reset) :
    Function.update m_pNixVecs a (Function.update (m_pNixVecs a) b (some pNv.Reset)) src daddr =
      some v.Reset := by
  by_cases ha : src = a
  · subst ha
    rw [Function.update_self]
    by_cases hb : daddr = b
    · subst hb
      obtain ⟨-, rfl⟩ := Prod.mk.inj (Option.some.inj (hcompute.symm.trans h))
      rw [Function.update_self]
    · rw [Function.update_of_ne hb, hv]
  · rw [Function.update_of_ne ha, hv]

theorem Sound.send (h : Sound nodes fuel n) (hg : Graph nodes) (hw : 32 ≤ w)
    (hfuel : nodes.length < fuel) {src : ℕ} (hs : src < nodes.length) (daddr : ℕ) :
    ∃ n', Nix.send nodes fuel n src daddr = some n' ∧ Sound nodes fuel n' ∧
      n'.received = n.received ∧ ∃ p, p.src = src ∧ p.daddr = daddr ∧ n'.flying = n.flying ++ [p] := by
  obtain ⟨l, pNv, hcompute, hget⟩ := GetNixVector_spec hg hw hfuel h.kept hs daddr
  obtain ⟨l', pNv', hcompute', -, hroute, hnone⟩ := compute_spec hg hw hfuel hs daddr
  obtain ⟨rfl, rfl⟩ := Prod.mk.inj (Option.some.inj (hcompute'.symm.trans hcompute))
  rw [Nix.send, hget, Option.map_some]
  refine ⟨_, rfl, ⟨?_, ?_, h.received, h.freed⟩, rfl, _, rfl, rfl, rfl⟩
  · intro a b v hv
    by_cases ha : a = src
    · subst ha
      by_cases hb : b = daddr
      · subst hb
        simp only [Function.update_self, Option.some.injEq] at hv
        exact ⟨l', pNv', hcompute, hv.symm⟩
      · simp only [Function.update_self, Function.update_of_ne hb] at hv
        exact h.kept a b v hv
    · simp only [Function.update_of_ne ha] at hv
      exact h.kept a b v hv
  · intro p hp
    rcases List.mem_append.mp hp with hp | hp
    · obtain ⟨h1, h2, pre, post, v, h3, h4, hrest⟩ := h.flying p hp
      exact ⟨h1, h2, pre, post, v, h3, update_kept hcompute h3 h4, hrest⟩
    · obtain rfl := List.mem_singleton.mp hp
      refine ⟨hs, rfl, [], l', pNv', hcompute, ?_, rfl, rfl, rfl, fun hreach => (hroute hreach).1⟩
      simp only [Function.update_self]

/-! ## What the classifier finds -/

/-- At the destination the packet goes to the demultiplexer, and has taken a shortest path. -/
theorem OnRoute.find_here (h : OnRoute nodes fuel m_pNixVecs p) (hg : Graph nodes) (hw : 32 ≤ w)
    (hfuel : nodes.length < fuel) (hnode : p.node = p.daddr) :
    find nodes m_pNixVecs p.node p = some (some .m_Dmux, p) ∧ Arrived nodes p := by
  obtain ⟨hsrc, -, pre, post, pNv, hcompute, -, hhops, -, hpre, hpost⟩ := h
  have hlt := hpre.lt hg hsrc
  have hne : p.node ≠ NODE_NONE := (hlt.trans_le hg.ids).ne
  have hreach : Reachable (Link nodes) p.src p.daddr := ⟨_, hnode ▸ hpre.walk⟩
  obtain ⟨l, pNv', hcompute', -, hroute, -⟩ := compute_spec hg hw hfuel hsrc p.daddr
  obtain ⟨rfl, rfl⟩ := Prod.mk.inj (Option.some.inj (hcompute.symm.trans hcompute'))
  have hdist := (hroute hreach).2
  rw [List.length_append] at hdist
  have hrest := hpre.isDist_rest (hpost hreach) hdist
  have hself : IsDist (Link nodes) p.node p.daddr 0 := by
    rw [hnode]
    exact isDist_self link_pos p.daddr
  have hzero := hrest.unique hself
  constructor
  · rw [find, if_neg hne, List.getElem?_eq_getElem hlt, Option.bind_some, if_pos hnode.symm]
  · refine ⟨hnode, ?_⟩
    push_cast [hzero, add_zero] at hdist
    rwa [hhops]

/-- **Elsewhere it goes over the next link of its route.** -/
theorem OnRoute.find_next (h : OnRoute nodes fuel m_pNixVecs p) (hg : Graph nodes)
    (hr : Reads w nodes) (hfuel : nodes.length < fuel)
    (hreach : Reachable (Link nodes) p.src p.daddr) (hnode : p.node ≠ p.daddr) :
    ∃ v used, find nodes m_pNixVecs p.node p = some (some (.linkHead v), { p with h_used := used }) ∧
      OnRoute nodes fuel m_pNixVecs { p with h_used := used, node := v, hops := p.hops + 1 } := by
  obtain ⟨hsrc, hvec, pre, post, pNv, hcompute, hkept, hhops, hused, hpre, hpost⟩ := h
  have hlt := hpre.lt hg hsrc
  have hne : p.node ≠ NODE_NONE := (hlt.trans_le hg.ids).ne
  obtain ⟨l, pNv', hcompute', hcarries, -⟩ := compute_spec hg hr.le hfuel hsrc p.daddr
  obtain ⟨rfl, rfl⟩ := Prod.mk.inj (Option.some.inj (hcompute.symm.trans hcompute'))
  cases post with
  | nil => exact absurd (hpost hreach) hnode
  | cons q post =>
    obtain ⟨v, hv, hq, hrest⟩ := hpost hreach
    have hmem := List.getElem_mem hlt
    rw [List.getD_eq_getElem _ _ hlt] at hv hq
    have hdegree := hg.degree _ hmem
    obtain ⟨-, hneighbor, hvalid⟩ := getNix_spec hv hdegree
    rw [← hq] at hneighbor hvalid
    have hindex : q.1 < nodes[p.node].length := (List.getElem?_eq_some_iff.mp hneighbor).1
    -- the pair is read back
    have hsmall : w = 32 ∨ w = 64 ∧ q.1 < 2 := by
      rcases hr with hr | ⟨hr, htwo⟩
      · exact Or.inl hr
      · exact Or.inr ⟨hr, hindex.trans_le (htwo _ hmem)⟩
    have hcarries' : Carries pNv.Reset (pre ++ q :: post) := by
      obtain ⟨⟨ws, hH, hst⟩, hlen, hval⟩ := hcarries
      exact ⟨⟨ws, ⟨hH.words, hH.length⟩, hst⟩, hlen, hval⟩
    have hextract := hcarries'.extractFrom hsmall
    have hnat : (BitVec.ofNat w q.1).toNat = q.1 := by
      have hpow : 2 ^ 32 ≤ 2 ^ w := Nat.pow_le_pow_right (by decide) hr.le
      have hnone : Routealgo.NIX_NONE < 2 ^ 32 := by decide
      rw [BitVec.toNat_ofNat, Nat.mod_eq_of_lt (by omega)]
    have hobj : GetNsNeighbor (PopulateObjects nodes[p.node]) q.1 = some (.linkHead v) := by
      rw [GetNeighbor] at hneighbor
      rw [GetNsNeighbor, PopulateObjects, List.getElem?_map, hneighbor, Option.map_some]
    refine ⟨v, total (pre ++ [q]), ?_, hsrc, hvec, pre ++ [q], post, pNv, ?_, hkept, ?_, rfl, ?_,
      fun _ => hrest⟩
    · rw [find, if_neg hne, List.getElem?_eq_getElem hlt, Option.bind_some, if_neg (Ne.symm hnode)]
      simp only [hvec, hkept, Option.bind_some]
      rw [GetNixl_eq hg hr.le hmem hv, ← hq, hused, hextract, Option.bind_some]
      simp only [hnat, hneighbor, Option.map_some, hobj]
    · rw [hcompute, List.append_assoc]
      rfl
    · simp [hhops]
    · refine route_append.mpr ⟨p.node, hpre, v, ?_, ?_, rfl⟩
      · rwa [List.getD_eq_getElem _ _ hlt]
      · rwa [List.getD_eq_getElem _ _ hlt]

/-- **Where there is no route the program ends**: the vector is empty, and no index is that large. -/
theorem OnRoute.find_none (h : OnRoute nodes fuel m_pNixVecs p) (hg : Graph nodes) (hw : 32 ≤ w)
    (hfuel : nodes.length < fuel) (hreach : ¬ Reachable (Link nodes) p.src p.daddr) :
    find nodes m_pNixVecs p.node p = none := by
  obtain ⟨hsrc, hvec, pre, post, pNv, hcompute, hkept, hhops, hused, hpre, -⟩ := h
  have hlt := hpre.lt hg hsrc
  have hne : p.node ≠ NODE_NONE := (hlt.trans_le hg.ids).ne
  have hnode : p.daddr ≠ p.node := fun heq => hreach ⟨_, heq ▸ hpre.walk⟩
  obtain ⟨l, pNv', hcompute', hcarries, -, hempty⟩ := compute_spec hg hw hfuel hsrc p.daddr
  obtain ⟨rfl, rfl⟩ := Prod.mk.inj (Option.some.inj (hcompute.symm.trans hcompute'))
  have halth : pNv.Reset.m_alth = 0 := hcarries.length.trans (by rw [hempty hreach]; rfl)
  have hpos := one_le_GetNixl w nodes[p.node]
  have hlarge : GetNeighbor nodes[p.node] (Nix.NIX_NONE w).toNat = none := by
    have hpow : 2 ^ 32 ≤ 2 ^ w := Nat.pow_le_pow_right (by decide) hw
    have hle : nodes[p.node].length ≤ 0xffffffff := hg.degree _ (List.getElem_mem hlt)
    rw [GetNeighbor, Nix.NIX_NONE, BitVec.toNat_ofNat, Nat.mod_eq_of_lt (by omega)]
    exact List.getElem?_eq_none hle
  rw [find, if_neg hne, List.getElem?_eq_getElem hlt, Option.bind_some, if_neg hnode]
  simp only [hvec, hkept, Option.bind_some]
  rw [extractFrom_end (by omega), Option.bind_some, hlarge, Option.map_none]

/-! ## Runs -/

/-- Source and destination. -/
def Packet.ends (p : Packet) : ℕ × ℕ := (p.src, p.daddr)

def Event.sent : Event → Option (ℕ × ℕ)
  | .send src daddr => some (src, daddr)
  | .hop _ => none

/-- The nodes of an event exist. -/
def Event.Legal (nodes : List (List ℕ)) : Event → Prop
  | .send src daddr => src < nodes.length ∧ daddr < nodes.length
  | .hop _ => True

/-- What is on its way or has arrived. -/
def Net.ledger (n : Net w) : List (ℕ × ℕ) := (n.received ++ n.flying).map Packet.ends

/-- A hop of a packet that has no route: no step is possible. -/
def Stuck (nodes : List (List ℕ)) (n : Net w) (e : Event) : Prop :=
  ∃ i p, e = .hop i ∧ n.flying[i]? = some p ∧ ¬ Reachable (Link nodes) p.src p.daddr

/-- **A packet is handed over**: by one link, or to its destination. -/
theorem Sound.recv (h : Sound nodes fuel n) (hg : Graph nodes) (hr : Reads w nodes)
    (hfuel : nodes.length < fuel) {i : ℕ} (hi : n.flying[i]? = some p)
    (hreach : Reachable (Link nodes) p.src p.daddr) :
    ∃ n', Nix.recv nodes n i p = some n' ∧ Sound nodes fuel n' ∧ n'.ledger.Perm n.ledger := by
  have hp := h.flying p (List.mem_of_getElem? hi)
  obtain ⟨hlt, hget⟩ := List.getElem?_eq_some_iff.mp hi
  by_cases hnode : p.node = p.daddr
  · obtain ⟨hfind, harrived⟩ := hp.find_here hg hr.le hfuel hnode
    rw [Nix.recv, hfind, Option.map_some]
    refine ⟨_, rfl, ⟨h.kept, fun q hq => h.flying q (List.mem_of_mem_eraseIdx hq), ?_, h.freed⟩, ?_⟩
    · intro q hq
      rcases List.mem_append.mp hq with hq | hq
      · exact h.received q hq
      · rw [List.mem_singleton.mp hq]
        exact harrived
    · refine List.Perm.map _ ?_
      rw [List.append_assoc]
      refine List.Perm.append_left _ ?_
      rw [← hget]
      exact List.getElem_cons_eraseIdx_perm hlt
  · obtain ⟨v, used, hfind, hnext⟩ := hp.find_next hg hr hfuel hreach hnode
    rw [Nix.recv, hfind, Option.map_some]
    refine ⟨_, rfl, ⟨h.kept, fun q hq => ?_, h.received, h.freed⟩, ?_⟩
    · rcases List.mem_or_eq_of_mem_set hq with hq | rfl
      · exact h.flying q hq
      · exact hnext
    · have hsame : (n.flying.map Packet.ends).set i p.ends = n.flying.map Packet.ends := by
        have hmap : (n.flying.map Packet.ends)[i]? = some p.ends := by
          rw [List.getElem?_map, hi, Option.map_some]
        obtain ⟨hlt', hget'⟩ := List.getElem?_eq_some_iff.mp hmap
        rw [← hget', List.set_getElem_self]
      have hledger : ∀ q : Packet, q.ends = p.ends →
          (n.received ++ n.flying.set i q).map Packet.ends = (n.received ++ n.flying).map Packet.ends := by
        intro q hq
        rw [List.map_append, List.map_set, hq, hsame, List.map_append]
      exact List.Perm.of_eq (hledger _ rfl)

/-- **What a step does.**  It fails at a packet that has no route, and otherwise keeps the invariant and
loses no packet. -/
theorem step_spec (h : Sound nodes fuel n) (hg : Graph nodes) (hr : Reads w nodes)
    (hfuel : nodes.length < fuel) {e : Event} (he : e.Legal nodes) :
    (step nodes fuel n e = none ∧ Stuck nodes n e) ∨
      ∃ n', step nodes fuel n e = some n' ∧ ¬ Stuck nodes n e ∧ Sound nodes fuel n' ∧
        n'.ledger.Perm (n.ledger ++ e.sent.toList) := by
  cases e with
  | send src daddr =>
    right
    obtain ⟨n', hsend, hsound, hreceived, p, rfl, rfl, hflying⟩ :=
      h.send hg hr.le hfuel he.1 daddr
    refine ⟨n', hsend, ?_, hsound, ?_⟩
    · rintro ⟨i, q, hcontra, -⟩
      cases hcontra
    · rw [Net.ledger, Net.ledger, hreceived, hflying]
      simp [Event.sent, Packet.ends]
  | hop i =>
    cases hi : n.flying[i]? with
    | none =>
      right
      refine ⟨n, ?_, ?_, h, ?_⟩
      · simp only [step, hi]
      · rintro ⟨j, q, hj, hq, -⟩
        cases hj
        rw [hi] at hq
        cases hq
      · simp [Event.sent]
    | some p =>
      have hstep : step nodes fuel n (.hop i) = Nix.recv nodes n i p := by simp only [step, hi]
      rw [hstep]
      by_cases hreach : Reachable (Link nodes) p.src p.daddr
      · right
        obtain ⟨n', hrecv, hsound, hperm⟩ := h.recv hg hr hfuel hi hreach
        refine ⟨n', hrecv, ?_, hsound, ?_⟩
        · rintro ⟨j, q, hj, hq, hnot⟩
          cases hj
          rw [hi] at hq
          cases hq
          exact hnot hreach
        · simpa [Event.sent] using hperm
      · left
        refine ⟨?_, i, p, rfl, hi, hreach⟩
        rw [Nix.recv, (h.flying p (List.mem_of_getElem? hi)).find_none hg hr.le hfuel hreach,
          Option.map_none]

end invariant

/-- The run of the network over a list of events. -/
def run (w : ℕ) (nodes : List (List ℕ)) (fuel : ℕ) (es : List Event) : Option (Net w) :=
  es.foldlM (step nodes fuel) (Net.init w)

theorem run_snoc {fuel : ℕ} (es : List Event) (e : Event) :
    run w nodes fuel (es ++ [e]) = (run w nodes fuel es).bind fun n => step nodes fuel n e := by
  rw [run, List.foldlM_append]
  simp [run]

/-- The invariant along a run, with all that was sent. -/
theorem run_spec (hg : Graph nodes) (hr : Reads w nodes) {fuel : ℕ} (hfuel : nodes.length < fuel)
    (es : List Event) (hes : ∀ e ∈ es, e.Legal nodes) {n : Net w} (hrun : run w nodes fuel es = some n) :
    Sound nodes fuel n ∧ n.ledger.Perm (es.filterMap Event.sent) := by
  induction es using List.reverseRecOn generalizing n with
  | nil =>
    obtain rfl := Option.some.inj hrun
    exact ⟨sound_init nodes fuel, List.Perm.refl _⟩
  | append_singleton es e ih =>
    rw [run_snoc] at hrun
    obtain ⟨m, hm, hstep⟩ := Option.bind_eq_some_iff.mp hrun
    obtain ⟨hsound, hperm⟩ := ih (fun a ha => hes a (List.mem_append_left _ ha)) hm
    have he := hes e (List.mem_append_right _ List.mem_cons_self)
    rcases step_spec hsound hg hr hfuel he with ⟨hnone, -⟩ | ⟨n', hn', -, hsound', hperm'⟩
    · rw [hnone] at hstep
      cases hstep
    · obtain rfl := Option.some.inj (hn'.symm.trans hstep)
      refine ⟨hsound', hperm'.trans ?_⟩
      rw [List.filterMap_append]
      have hlast : [e].filterMap Event.sent = e.sent.toList := by
        cases hsent : e.sent with
        | none => simp [hsent]
        | some x => simp [hsent]
      rw [hlast]
      exact hperm.append_right _

/-- **Forwarding by NIx-vectors.**  In any interleaving of packets that are sent and forwarded, the
program ends early only at the first hop of a packet to a destination that cannot be reached; no packet
is lost or freed; a packet on its way that has a route is on a shortest one; and a packet that has
arrived is at its destination and took the least number of hops. -/
theorem nix_forwards (w : ℕ) (nodes : List (List ℕ)) (hg : Graph nodes) (hr : Reads w nodes) (fuel : ℕ)
    (hfuel : nodes.length < fuel) (es : List Event) (hes : ∀ e ∈ es, e.Legal nodes) :
    (run w nodes fuel es = none ↔ ∃ es₁ e es₂ n, es = es₁ ++ e :: es₂ ∧
      run w nodes fuel es₁ = some n ∧ Stuck nodes n e) ∧
    ∀ n, run w nodes fuel es = some n → n.ledger.Perm (es.filterMap Event.sent) ∧ n.freed = [] ∧
      (∀ p ∈ n.flying, Reachable (Link nodes) p.src p.daddr → ∃ d : ℕ,
        IsDist (Link nodes) p.node p.daddr d ∧
        IsDist (Link nodes) p.src p.daddr ((p.hops + d : ℕ) : ℤ)) ∧
      ∀ p ∈ n.received, p.node = p.daddr ∧ IsDist (Link nodes) p.src p.daddr (p.hops : ℤ) := by
  constructor
  · rw [run, Run.foldlM_eq_none_iff]
    constructor
    · rintro ⟨es₁, e, es₂, n, rfl, hrun, hnone⟩
      have hlegal : e.Legal nodes := hes e (by simp)
      have hsound := (run_spec hg hr hfuel es₁ (fun a ha => hes a (by simp [ha])) hrun).1
      rcases step_spec hsound hg hr hfuel hlegal with ⟨-, hstuck⟩ | ⟨n', hn', -⟩
      · exact ⟨es₁, e, es₂, n, rfl, hrun, hstuck⟩
      · rw [hnone] at hn'
        cases hn'
    · rintro ⟨es₁, e, es₂, n, rfl, hrun, hstuck⟩
      have hlegal : e.Legal nodes := hes e (by simp)
      have hsound := (run_spec hg hr hfuel es₁ (fun a ha => hes a (by simp [ha])) hrun).1
      rcases step_spec hsound hg hr hfuel hlegal with ⟨hnone, -⟩ | ⟨n', -, hnot, -⟩
      · exact ⟨es₁, e, es₂, n, rfl, hrun, hnone⟩
      · exact absurd hstuck hnot
  · intro n hrun
    obtain ⟨hsound, hperm⟩ := run_spec hg hr hfuel es hes hrun
    refine ⟨hperm, hsound.freed, fun p hp hreach => ?_, hsound.received⟩
    obtain ⟨hsrc, -, pre, post, pNv, hcompute, -, hhops, -, hpre, hpost⟩ := hsound.flying p hp
    obtain ⟨l, pNv', hcompute', -, hroute, -⟩ := compute_spec hg hr.le hfuel hsrc p.daddr
    obtain ⟨rfl, rfl⟩ := Prod.mk.inj (Option.some.inj (hcompute.symm.trans hcompute'))
    have hdist := (hroute hreach).2
    rw [List.length_append] at hdist
    refine ⟨post.length, hpre.isDist_rest (hpost hreach) hdist, ?_⟩
    rwa [hhops]

/-- Two packets to node 4 on their way at the same time; the second one is ahead. -/
theorem nix_forwards_fiveNodes :
    ∃ n : Net 32, run 32 fiveNodes 6 [.send 0 4, .send 1 4, .hop 1, .hop 1, .hop 0, .hop 1] = some n ∧
      n.received.map Packet.ends = [(1, 4)] ∧ n.flying.map Packet.ends = [(0, 4)] ∧ n.freed = [] := by
  have hes : ∀ e ∈ [Event.send 0 4, .send 1 4, .hop 1, .hop 1, .hop 0, .hop 1], e.Legal fiveNodes := by
    simp [Event.Legal, fiveNodes]
  obtain ⟨n, hn⟩ : ∃ n : Net 32,
      run 32 fiveNodes 6 [.send 0 4, .send 1 4, .hop 1, .hop 1, .hop 0, .hop 1] = some n :=
    Option.isSome_iff_exists.mp (by decide +kernel)
  obtain ⟨-, hfreed, -⟩ := (nix_forwards 32 fiveNodes graph_fiveNodes (Or.inl rfl) 6 (by decide) _ hes).2 n hn
  refine ⟨n, hn, ?_, ?_, hfreed⟩
  · have heval : (run 32 fiveNodes 6 [.send 0 4, .send 1 4, .hop 1, .hop 1, .hop 0, .hop 1]).map
        (fun n => n.received.map Packet.ends) = some [(1, 4)] := by decide +kernel
    rw [hn] at heval
    exact Option.some.inj heval
  · have heval : (run 32 fiveNodes 6 [.send 0 4, .send 1 4, .hop 1, .hop 1, .hop 0, .hop 1]).map
        (fun n => n.flying.map Packet.ends) = some [(0, 4)] := by decide +kernel
    rw [hn] at heval
    exact Option.some.inj heval

end Ns2.Nix
