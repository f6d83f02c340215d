import Ns2.Lib.ShortestPath
import Ns2.Routealgo.Bfs

/-!
# Breadth-first search gives shortest paths

The nodes in the bitmap have their distance, and a parent that is one hop closer; those among them that
are no longer in the queue have all their neighbors in the bitmap.  The queue holds the nodes of at
most two distances, in order.

* `Colors` — which nodes the bitmap holds.
* `scan_eq` — the inner loop visits all neighbors.
* `Inv`, `Inv.visit`, `Inv.pop` — the invariant of the loops, and its steps.
* `bfs_shortest` — the parents, the next hops and the indices of `NixRoute`.
-/

namespace Ns2.Routealgo

open ShortestPath BitMap

variable {w : ℕ}

/-! ## The bitmap -/

/-- The bitmap holds the nodes of `S`. -/
structure Colors (b : BitMap w) (size : ℕ) (S : Finset ℕ) : Prop where
  shape : Shape b size 1
  bit : ∀ e, b.bitAt (e / 32) (e % 32) = decide (e ∈ S)

/-- The mask of an entry of one bit. -/
theorem getLsbD_mask_one (hw : 32 ≤ w) {c : ℕ} (hc : c < 32) (j : ℕ) :
    (signMask w 1 >>> (32 - (c + 1))).getLsbD j = decide (j = c) := by
  rw [signMask, Nat.sub_self, BitVec.sshiftRight_zero, BitVec.getLsbD_ushiftRight, getLsbD_signBit,
    Bool.eq_iff_iff]
  simp only [Bool.and_eq_true, decide_eq_true_eq]
  omega

variable {b : BitMap w} {size : ℕ} {S : Finset ℕ}

theorem colors_new (w size : ℕ) : Colors (BitMap.new w size 1) size ∅ := by
  have hstores : Stores (BitMap.new w size 1) size 1 0 fun _ => 0 := stores_new _ le_rfl (by decide)
  obtain ⟨hshape, -⟩ := hstores
  refine ⟨hshape, fun e => ?_⟩
  simp [bitAt, BitMap.new]

theorem Colors.get (h : Colors b size S) (hw : 32 ≤ w) {e : ℕ} (he : e < size) :
    b.Get e = some (if e ∈ S then 1 else 0) := by
  have hlen := h.shape.words e he
  rw [Nat.div_one] at hlen
  have hbit := h.bit e
  rw [bitAt, List.getD_eq_getElem?_getD, List.getElem?_eq_getElem hlen, Option.getD_some] at hbit
  rw [BitMap.Get, if_pos (h.shape.entries.symm ▸ he), GetBitMask, h.shape.shiftCount, h.shape.epw,
    h.shape.width, Nat.div_one, Nat.mul_one, List.getElem?_eq_getElem hlen, Option.map_some]
  congr 1
  have hc : e % 32 < 32 := Nat.mod_lt _ (by decide)
  refine BitVec.eq_of_getLsbD_eq fun j hj => ?_
  rw [BitVec.getLsbD_ushiftRight, BitVec.getLsbD_and, getLsbD_mask_one hw hc]
  by_cases hj0 : j = 0
  · rw [hj0, Nat.add_zero, hbit]
    have hpos : 0 < w := by omega
    by_cases hS : e ∈ S <;> simp [hS, hpos]
  · by_cases hS : e ∈ S <;> simp [hS, hj0]

theorem Colors.set (h : Colors b size S) (hw : 32 ≤ w) {v : ℕ} (hv : v < size) :
    ∃ b', b.Set v 1 = some b' ∧ Colors b' size (insert v S) := by
  have hlen := h.shape.words v hv
  rw [Nat.div_one] at hlen
  have hc : v % 32 < 32 := Nat.mod_lt _ (by decide)
  rw [BitMap.Set, h.shape.epw, Nat.div_one, if_pos ⟨h.shape.entries.symm ▸ hv, hlen⟩]
  refine ⟨_, rfl, ⟨h.shape.entries, h.shape.width, rfl, fun e he => ?_⟩, fun e => ?_⟩
  · simpa using h.shape.words e he
  · have hbit := h.bit e
    have he : e % 32 < w := (Nat.mod_lt e (by decide)).trans_le hw
    rw [bitAt, List.getD_eq_getElem?_getD] at hbit ⊢
    rw [List.getElem?_modify, GetBitMask, h.shape.shiftCount, h.shape.width, Nat.div_one, Nat.mul_one]
    by_cases hword : v / 32 = e / 32
    · have hlen' : e / 32 < b.m_pM.length := hword ▸ hlen
      rw [List.getElem?_eq_getElem hlen'] at hbit ⊢
      simp only [Option.getD_some, Option.map_eq_map, Option.map_some, if_pos hword] at hbit ⊢
      rw [BitVec.getLsbD_or, BitVec.getLsbD_and, BitVec.getLsbD_not, getLsbD_mask_one hw hc,
        BitVec.getLsbD_shiftLeft, hbit]
      have hone : (1 : BitVec w).getLsbD (e % 32 - v % 32) = decide (e % 32 - v % 32 = 0) := by
        have hpos : 0 < w := by omega
        simp [hpos]
      rw [hone]
      by_cases hev : e = v
      · subst hev
        simp [he]
      · have hmod : ¬ e % 32 = v % 32 := by
          have := Nat.div_add_mod e 32
          have := Nat.div_add_mod v 32
          omega
        by_cases hlt : e % 32 < v % 32
        · simp [hev, hmod, he, hlt]
        · have hpos : ¬ e % 32 - v % 32 = 0 := by omega
          simp [hev, hmod, he, hpos]
    · have hev : e ≠ v := fun hev => hword (hev ▸ rfl)
      simp only [if_neg hword, Option.map_eq_map, Option.map_id']
      rw [hbit]
      simp [hev]

/-! ## The inner loop -/

theorem scan_rest {m_Adj pre post : List ℕ} {root u last : ℕ} (h : m_Adj = pre ++ last :: post)
    (hnone : NODE_NONE ∉ m_Adj) (s : Search w) :
    scan m_Adj root u (post.length + 1) last pre.length s = post.foldlM (visit root u) s := by
  induction post generalizing pre last s with
  | nil =>
    have hlast : last ≠ NODE_NONE := by
      rintro rfl
      exact hnone (h ▸ by simp)
    rw [scan, NextAdj, if_neg hlast, if_pos (by simp [h]), Option.bind_some]
    simp [h]
  | cons v post ih =>
    have hlast : last ≠ NODE_NONE := by
      rintro rfl
      exact hnone (h ▸ by simp)
    have hv : v ≠ NODE_NONE := by
      rintro rfl
      exact hnone (h ▸ by simp)
    have hnext : m_Adj[pre.length + 1]? = some v := by simp [h]
    rw [List.length_cons, scan, NextAdj, if_neg hlast, if_pos (by simp [h]), Option.bind_some, hnext,
      Option.getD_some, List.foldlM_cons]
    dsimp only
    rw [if_neg hv]
    congr 1
    funext s
    have hpre : (pre ++ [last]).length = pre.length + 1 := by simp
    rw [← hpre]
    exact ih (by simp [h]) s

/-- The inner loop visits the neighbors one after the other. -/
theorem scan_eq {m_Adj : List ℕ} {root u : ℕ} (hnone : NODE_NONE ∉ m_Adj) (s : Search w) :
    scan m_Adj root u (m_Adj.length + 1) NODE_NONE 0 s = m_Adj.foldlM (visit root u) s := by
  cases m_Adj with
  | nil =>
    rw [scan, NextAdj, if_pos rfl, Option.bind_some]
    rfl
  | cons v post =>
    have hv : v ≠ NODE_NONE := by
      rintro rfl
      exact hnone List.mem_cons_self
    rw [scan, NextAdj, if_pos rfl, Option.bind_some, List.head?_cons, Option.getD_some, List.foldlM_cons]
    dsimp only
    rw [if_neg hv]
    congr 1
    funext s
    have hall : v :: post = [] ++ v :: post := rfl
    exact scan_rest hall hnone s

/-! ## The invariant -/

/-- The links, each of one hop. -/
def Link (nodes : List (List ℕ)) (u v : ℕ) (d : ℤ) : Prop := v ∈ nodes.getD u [] ∧ d = 1

theorem link_pos {nodes : List (List ℕ)} (u v : ℕ) (d : ℤ) (h : Link nodes u v d) : 0 < d := by
  rw [h.2]
  decide

/-- The loops have found the nodes of `S`. -/
structure Inv (nodes : List (List ℕ)) (root : ℕ) (s : Search w) (S : Finset ℕ) : Prop where
  colors : Colors s.B nodes.length S
  lt : ∀ v ∈ S, v < nodes.length
  source : root ∈ S
  queue : ∀ v ∈ s.Q, v ∈ S
  sorted : s.Q.Pairwise fun a b => s.D a ≤ s.D b
  near : ∀ u ∈ s.Q.head?, ∀ v ∈ s.Q, s.D v ≤ s.D u + 1
  dist : ∀ v ∈ S, IsDist (Link nodes) root v (s.D v)
  parent : ∀ v ∈ S, v ≠ root → s.Parent v ∈ S ∧ v ∈ nodes.getD (s.Parent v) [] ∧
    s.D v = s.D (s.Parent v) + 1
  nextHop : ∀ v ∈ S, v ≠ root →
    s.NextHop v = if s.Parent v = root then v else s.NextHop (s.Parent v)
  blank : ∀ v, v ∉ S ∨ v = root → s.Parent v = NODE_NONE ∧ s.NextHop v = NODE_NONE
  closed : ∀ v ∈ S, v ∉ s.Q → ∀ x ∈ nodes.getD v [], x ∈ S

variable {nodes : List (List ℕ)} {root u v x : ℕ} {s : Search w}

/-- No node in the queue is closer than the first one. -/
theorem Inv.head_le (h : Inv nodes root s S) (hQ : s.Q.head? = some u) (hv : v ∈ s.Q) :
    s.D u ≤ s.D v := by
  obtain ⟨rest, hrest⟩ := List.head?_eq_some_iff.mp hQ
  have hsorted := h.sorted
  rw [hrest] at hsorted hv
  rcases List.mem_cons.mp hv with rfl | hv
  · exact le_rfl
  · exact (List.pairwise_cons.mp hsorted).1 v hv

/-- A new neighbor of the first node in the queue is one hop further away. -/
theorem Inv.isDist_next (h : Inv nodes root s S) (hQ : s.Q.head? = some u)
    (hx : x ∈ nodes.getD u []) (hxS : x ∉ S) :
    IsDist (Link nodes) root x ((s.D u + 1 : ℕ) : ℤ) := by
  have hu := h.queue u (List.mem_of_mem_head? hQ)
  have hwalk := (h.dist u hu).walk.snoc (⟨hx, rfl⟩ : Link nodes u x 1)
  refine ⟨by push_cast; exact hwalk, fun c p => ?_⟩
  refine le_of_exit (S := (· ∈ S)) link_pos h.source hxS (fun a b c d ha hb pa hab => ?_) p
  -- the node before the new one is still in the queue
  have haQ : a ∈ s.Q := by
    by_contra haQ
    exact hb (h.closed a ha haQ b hab.1)
  have hle := h.head_le hQ haQ
  have hleast := (h.dist a ha).least c pa
  have hd := hab.2
  push_cast
  omega

/-- The node `x` has been found over `u`. -/
structure Found (root u x : ℕ) (s s' : Search w) : Prop where
  queue : s'.Q = s.Q ++ [x]
  dist : s'.D x = s.D u + 1
  parent : s'.Parent x = u
  nextHop : s'.NextHop x = if u = root then x else s.NextHop u
  others : ∀ a, a ≠ x → s'.D a = s.D a ∧ s'.Parent a = s.Parent a ∧ s'.NextHop a = s.NextHop a

theorem Inv.found {s' : Search w} (h : Inv nodes root s S) (hQ : s.Q.head? = some u)
    (hx : x ∈ nodes.getD u []) (hlt : x < nodes.length) (hxS : x ∉ S) (hf : Found root u x s s')
    (hcolors : Colors s'.B nodes.length (insert x S)) : Inv nodes root s' (insert x S) := by
  have hu := h.queue u (List.mem_of_mem_head? hQ)
  have hold : ∀ {a}, a ∈ S → s'.D a = s.D a ∧ s'.Parent a = s.Parent a ∧
      s'.NextHop a = s.NextHop a := fun ha => hf.others _ fun hax => hxS (hax ▸ ha)
  have hQ' : ∀ {a}, a ∈ s'.Q ↔ a ∈ s.Q ∨ a = x := by
    intro a
    rw [hf.queue, List.mem_append, List.mem_singleton]
  refine
    { colors := hcolors
      lt := Finset.forall_mem_insert _ _ _ |>.mpr ⟨hlt, h.lt⟩
      source := Finset.mem_insert_of_mem h.source
      queue := fun a ha => ?_
      sorted := ?_
      near := fun b hb a ha => ?_
      dist := Finset.forall_mem_insert _ _ _ |>.mpr ⟨?_, fun a ha => ?_⟩
      parent := Finset.forall_mem_insert _ _ _ |>.mpr ⟨fun _ => ?_, fun a ha har => ?_⟩
      nextHop := Finset.forall_mem_insert _ _ _ |>.mpr ⟨fun _ => ?_, fun a ha har => ?_⟩
      blank := fun a ha => ?_
      closed := fun a ha haQ b hb => ?_ }
  · rcases hQ'.mp ha with ha | rfl
    · exact Finset.mem_insert_of_mem (h.queue a ha)
    · exact Finset.mem_insert_self _ _
  · rw [hf.queue]
    refine List.pairwise_append.mpr ⟨?_, List.pairwise_singleton _ _, fun a ha b hb => ?_⟩
    · refine h.sorted.imp_of_mem fun ha hb hab => ?_
      rw [(hold (h.queue _ ha)).1, (hold (h.queue _ hb)).1]
      exact hab
    · rw [List.mem_singleton.mp hb, (hold (h.queue a ha)).1, hf.dist]
      exact h.near u hQ a ha
  · have hbu : b = u := by
      rw [hf.queue, List.head?_append, hQ, Option.some_or] at hb
      exact (Option.some.inj hb).symm
    rw [hbu, (hold hu).1]
    rcases hQ'.mp ha with ha | rfl
    · rw [(hold (h.queue a ha)).1]
      exact h.near u hQ a ha
    · exact hf.dist.le
  · rw [hf.dist]
    exact h.isDist_next hQ hx hxS
  · rw [(hold ha).1]
    exact h.dist a ha
  · rw [hf.parent, hf.dist, (hold hu).1]
    exact ⟨Finset.mem_insert_of_mem hu, hx, rfl⟩
  · obtain ⟨h1, h2, h3⟩ := h.parent a ha har
    rw [(hold ha).2.1, (hold ha).1, (hold h1).1]
    exact ⟨Finset.mem_insert_of_mem h1, h2, h3⟩
  · rw [hf.parent, hf.nextHop, (hold hu).2.2]
  · obtain ⟨h1, -, -⟩ := h.parent a ha har
    rw [(hold ha).2.2, (hold ha).2.1, (hold h1).2.2]
    exact h.nextHop a ha har
  · have hax : a ≠ x := by
      rintro rfl
      rcases ha with ha | rfl
      · exact ha (Finset.mem_insert_self _ _)
      · exact hxS h.source
    rw [(hf.others a hax).2.1, (hf.others a hax).2.2]
    exact h.blank a (ha.imp_left fun ha haS => ha (Finset.mem_insert_of_mem haS))
  · rw [hQ', not_or] at haQ
    exact Finset.mem_insert_of_mem
      (h.closed a ((Finset.mem_insert.mp ha).resolve_left haQ.2) haQ.1 b hb)

/-- **A neighbor** of the first node in the queue. -/
theorem Inv.visit (h : Inv nodes root s S) (hw : 32 ≤ w) (hQ : s.Q.head? = some u)
    (hx : x ∈ nodes.getD u []) (hlt : x < nodes.length) :
    ∃ s' S', visit root u s x = some s' ∧ Inv nodes root s' S' ∧ s'.Q.head? = some u ∧ S ⊆ S' ∧
      x ∈ S' ∧ S'.card + s.Q.length = S.card + s'.Q.length := by
  unfold Routealgo.visit
  rw [h.colors.get hw hlt, Option.bind_some]
  by_cases hxS : x ∈ S
  · have hone : (1 : BitVec w) ≠ 0 := by
      have hpos : 0 < w := by omega
      simp [hpos.ne']
    rw [if_pos hxS, if_neg hone]
    exact ⟨s, S, rfl, h, hQ, subset_rfl, hxS, rfl⟩
  · obtain ⟨B, hB, hcolors⟩ := h.colors.set hw hlt
    rw [if_neg hxS, if_pos rfl, hB, Option.map_some]
    have hfound : Found root u x s
        { B := B, Q := s.Q ++ [x], D := Function.update s.D x (s.D u + 1)
          NextHop := Function.update s.NextHop x (if u = root then x else s.NextHop u)
          Parent := Function.update s.Parent x u } :=
      { queue := rfl
        dist := Function.update_self _ _ _
        parent := Function.update_self _ _ _
        nextHop := Function.update_self _ _ _
        others := fun a ha => ⟨Function.update_of_ne ha _ _, Function.update_of_ne ha _ _,
          Function.update_of_ne ha _ _⟩ }
    refine ⟨_, insert x S, rfl, h.found hQ hx hlt hxS hfound hcolors, ?_,
      Finset.subset_insert x S, Finset.mem_insert_self x S, ?_⟩
    · rw [List.head?_append, hQ, Option.some_or]
    · rw [Finset.card_insert_of_notMem hxS, List.length_append, List.length_singleton]
      omega

/-- The neighbors of the first node, one after the other. -/
theorem Inv.visits (hw : 32 ≤ w) {l : List ℕ} (hl : ∀ x ∈ l, x ∈ nodes.getD u [] ∧ x < nodes.length)
    {s : Search w} {S : Finset ℕ} (h : Inv nodes root s S) (hQ : s.Q.head? = some u) :
    ∃ s' S', l.foldlM (Routealgo.visit root u) s = some s' ∧ Inv nodes root s' S' ∧
      s'.Q.head? = some u ∧ S ⊆ S' ∧ (∀ x ∈ l, x ∈ S') ∧
      S'.card + s.Q.length = S.card + s'.Q.length := by
  induction l generalizing s S with
  | nil => exact ⟨s, S, rfl, h, hQ, subset_rfl, fun _ hx => absurd hx List.not_mem_nil, rfl⟩
  | cons x l ih =>
    obtain ⟨hx, hlt⟩ := hl x List.mem_cons_self
    obtain ⟨s₁, S₁, hv, h₁, hQ₁, hsub₁, hx₁, hcard₁⟩ := h.visit hw hQ hx hlt
    obtain ⟨s', S', hf, h', hQ', hsub, hall, hcard⟩ :=
      ih (fun y hy => hl y (List.mem_cons_of_mem _ hy)) h₁ hQ₁
    refine ⟨s', S', ?_, h', hQ', hsub₁.trans hsub, fun y hy => ?_, by omega⟩
    · rw [List.foldlM_cons, hv]
      exact hf
    · rcases List.mem_cons.mp hy with rfl | hy
      · exact hsub hx₁
      · exact hall y hy

/-- The first node leaves the queue when all its neighbors have been found. -/
theorem Inv.pop (h : Inv nodes root s S) (hQ : s.Q.head? = some u)
    (hall : ∀ x ∈ nodes.getD u [], x ∈ S) : Inv nodes root { s with Q := s.Q.tail } S := by
  obtain ⟨rest, hrest⟩ := List.head?_eq_some_iff.mp hQ
  have htail : ∀ {v}, v ∈ s.Q.tail → v ∈ s.Q := fun hv => List.mem_of_mem_tail hv
  refine ⟨h.colors, h.lt, h.source, fun v hv => h.queue v (htail hv), h.sorted.tail, ?_, h.dist,
    h.parent, h.nextHop, h.blank, fun v hv hvQ x hx => ?_⟩
  · intro b hb a ha
    have hle := h.head_le hQ (htail (List.mem_of_mem_head? hb))
    have hnear := h.near u hQ a (htail ha)
    dsimp only
    omega
  · by_cases hvu : v = u
    · exact hall x (hvu ▸ hx)
    · refine h.closed v hv (fun hmem => hvQ ?_) x hx
      rw [hrest] at hmem ⊢
      exact (List.mem_cons.mp hmem).resolve_left hvu

/-! ## The search -/

/-- Every node enters the queue once, so that the queue runs empty. -/
theorem Inv.search (hg : Graph nodes) (hw : 32 ≤ w) {fuel : ℕ} {s : Search w} {S : Finset ℕ}
    (h : Inv nodes root s S) (hfuel : nodes.length + s.Q.length < fuel + S.card) :
    ∃ s' S', search nodes root fuel s = some s' ∧ Inv nodes root s' S' ∧ s'.Q = [] := by
  have hcard : ∀ {s : Search w} {S : Finset ℕ}, Inv nodes root s S → S.card ≤ nodes.length := by
    intro s S h
    have hsub : S ⊆ Finset.range nodes.length := fun v hv => Finset.mem_range.mpr (h.lt v hv)
    exact (Finset.card_le_card hsub).trans_eq (Finset.card_range _)
  induction fuel generalizing s S with
  | zero =>
    have := hcard h
    omega
  | succ fuel ih =>
    rw [Routealgo.search]
    split
    · rename_i hnil
      exact ⟨s, S, rfl, h, hnil⟩
    · rename_i u rest hcons
      have hu := h.queue u (hcons ▸ List.mem_cons_self)
      have hmem : nodes.getD u [] ∈ nodes := by
        rw [List.getD_eq_getElem _ _ (h.lt u hu)]
        exact List.getElem_mem _
      have hnone : NODE_NONE ∉ nodes.getD u [] := fun hin =>
        absurd (hg.adjacent _ hmem _ hin) (not_lt.mpr hg.ids)
      have hQ : s.Q.head? = some u := by rw [hcons, List.head?_cons]
      obtain ⟨s₁, S₁, hscan, h₁, hQ₁, -, hall, hcount⟩ :=
        h.visits hw (fun x hx => ⟨hx, hg.adjacent _ hmem x hx⟩) hQ
      have hpos : 0 < s₁.Q.length := List.length_pos_iff.mpr fun hnil => by simp [hnil] at hQ₁
      dsimp only
      rw [scan_eq hnone, hscan, Option.bind_some]
      refine ih (h₁.pop hQ₁ hall) ?_
      rw [List.length_tail]
      omega

/-- The invariant holds at first. -/
theorem inv_start (hw : 32 ≤ w) (hroot : root < nodes.length) :
    ∃ B, (BitMap.new w nodes.length 1).Set root 1 = some B ∧
      Inv nodes root
        { B := B, Q := [root], D := Function.update (fun _ => INF) root 0
          NextHop := fun _ => NODE_NONE, Parent := fun _ => NODE_NONE } {root} := by
  obtain ⟨B, hB, hcolors⟩ := (colors_new w nodes.length).set hw hroot
  refine ⟨B, hB, hcolors, ?_, Finset.mem_singleton_self _, ?_, List.pairwise_singleton _ _, ?_, ?_, ?_,
    ?_, fun _ _ => ⟨rfl, rfl⟩, ?_⟩
  · intro v hv
    rw [Finset.mem_singleton.mp hv]
    exact hroot
  · intro v hv
    rw [List.mem_singleton.mp hv]
    exact Finset.mem_singleton_self _
  · intro u hu v hv
    obtain rfl := Option.some.inj hu
    rw [List.mem_singleton.mp hv]
    exact Nat.le_succ _
  · intro v hv
    rw [Finset.mem_singleton.mp hv]
    dsimp only
    rw [Function.update_self]
    exact isDist_self link_pos root
  · exact fun v hv hvr => absurd (Finset.mem_singleton.mp hv) hvr
  · exact fun v hv hvr => absurd (Finset.mem_singleton.mp hv) hvr
  · intro v hv hvQ
    exact absurd (List.mem_singleton.mpr (Finset.mem_singleton.mp hv)) hvQ

/-- The search ends, and its queue is empty. -/
theorem bfs_spec (hg : Graph nodes) (hw : 32 ≤ w) (hroot : root < nodes.length) {fuel : ℕ}
    (hfuel : nodes.length < fuel) :
    ∃ (s : Search w) (S : Finset ℕ), BFS w nodes root fuel = some s ∧ Inv nodes root s S ∧ s.Q = [] := by
  obtain ⟨B, hB, hinv⟩ := inv_start hw hroot
  obtain ⟨s, S, hsearch, h, hnil⟩ := hinv.search hg hw (show _ < fuel + _ by simpa using hfuel)
  exact ⟨s, S, by rw [BFS, hB, Option.bind_some, hsearch], h, hnil⟩

/-! ## The routes -/

/-- With an empty queue all nodes that can be reached have been found. -/
theorem Inv.mem_iff (h : Inv nodes root s S) (hQ : s.Q = []) :
    v ∈ S ↔ Reachable (Link nodes) root v := by
  constructor
  · exact fun hv => ⟨_, (h.dist v hv).walk⟩
  · rintro ⟨c, p⟩
    induction p with
    | nil => exact h.source
    | snoc p e ih => exact h.closed _ ih (by simp [hQ]) _ e.1

theorem Inv.parent_ne (h : Inv nodes root s S) (hg : Graph nodes) (hv : v ∈ S) (hvr : v ≠ root) :
    s.Parent v ≠ NODE_NONE :=
  ((h.lt _ (h.parent v hv hvr).1).trans_le hg.ids).ne

theorem Inv.dist_root (h : Inv nodes root s S) : s.D root = 0 := by
  have := (h.dist root h.source).unique (isDist_self link_pos root)
  exact_mod_cast this

theorem Inv.dist_pos (h : Inv nodes root s S) (hv : v ∈ S) (hvr : v ≠ root) : 0 < s.D v := by
  have := (h.parent v hv hvr).2.2
  omega

/-- Along the parents of a node the distance goes down by one hop, to the root. -/
theorem Inv.ancestor (h : Inv nodes root s S) (hv : v ∈ S) :
    ∀ i ≤ s.D v, s.Parent^[i] v ∈ S ∧ s.D (s.Parent^[i] v) = s.D v - i := by
  intro i
  induction i with
  | zero => exact fun _ => ⟨hv, rfl⟩
  | succ i ih =>
    intro hi
    obtain ⟨hmem, hdist⟩ := ih (by omega)
    have hne : s.Parent^[i] v ≠ root := by
      intro hroot
      rw [hroot, h.dist_root] at hdist
      omega
    obtain ⟨h1, -, h3⟩ := h.parent _ hmem hne
    rw [Function.iterate_succ_apply']
    exact ⟨h1, by omega⟩

/-- A node is the root exactly when it has no distance. -/
theorem Inv.eq_root_iff (h : Inv nodes root s S) (hv : v ∈ S) : v = root ↔ s.D v = 0 := by
  constructor
  · rintro rfl
    exact h.dist_root
  · intro h0
    by_contra hvr
    exact (h.dist_pos hv hvr).ne' h0

/-- The next hop is the last node before the root. -/
theorem Inv.nextHop_eq (h : Inv nodes root s S) {n : ℕ} (hv : v ∈ S) (hn : s.D v = n + 1) :
    s.NextHop v = s.Parent^[n] v := by
  induction n generalizing v with
  | zero =>
    have hvr : v ≠ root := fun hvr => by rw [(h.eq_root_iff hv).mp hvr] at hn; omega
    obtain ⟨h1, -, h3⟩ := h.parent v hv hvr
    rw [h.nextHop v hv hvr, if_pos ((h.eq_root_iff h1).mpr (by omega))]
    rfl
  | succ n ih =>
    have hvr : v ≠ root := fun hvr => by rw [(h.eq_root_iff hv).mp hvr] at hn; omega
    obtain ⟨h1, -, h3⟩ := h.parent v hv hvr
    have hpr : s.Parent v ≠ root := fun hpr => by rw [(h.eq_root_iff h1).mp hpr] at h3; omega
    rw [h.nextHop v hv hvr, if_neg hpr, ih h1 (by omega), Function.iterate_succ_apply]

/-- A distance is less than the number of nodes: the nodes along the parents differ. -/
theorem Inv.dist_lt (h : Inv nodes root s S) (hv : v ∈ S) : s.D v < nodes.length := by
  have hmaps : ∀ i ∈ Finset.range (s.D v + 1), s.Parent^[i] v ∈ Finset.range nodes.length := by
    intro i hi
    exact Finset.mem_range.mpr (h.lt _ (h.ancestor hv i (by simpa [Nat.lt_succ_iff] using hi)).1)
  have hinj : Set.InjOn (fun i => s.Parent^[i] v) (Finset.range (s.D v + 1)) := by
    intro i hi j hj hij
    have hi' : i ≤ s.D v := by simpa [Nat.lt_succ_iff] using hi
    have hj' : j ≤ s.D v := by simpa [Nat.lt_succ_iff] using hj
    have h1 := (h.ancestor hv i hi').2
    have h2 := (h.ancestor hv j hj').2
    dsimp only at hij
    rw [hij] at h1
    omega
  have hle := Finset.card_le_card_of_injOn _ hmaps hinj
  simpa using hle

/-! ## Indices -/

theorem highestBit_spec {l h : ℕ} (hl : l < 2 ^ (h + 1)) :
    l < 2 ^ highestBit l h ∧ 1 ≤ highestBit l h ∧ highestBit l h ≤ h + 1 := by
  induction h with
  | zero => exact ⟨hl, le_rfl, le_rfl⟩
  | succ h ih =>
    rw [highestBit]
    split_ifs with hbit
    · exact ⟨hl, by omega, by omega⟩
    · have hlt : l < 2 ^ (h + 1) := by
        refine Nat.lt_pow_two_of_testBit _ fun i hi => ?_
        rcases Nat.eq_or_lt_of_le hi with rfl | hi
        · exact Bool.eq_false_of_not_eq_true hbit
        · exact Nat.testBit_lt_two_pow (hl.trans_le (Nat.pow_le_pow_right (by decide) hi))
      obtain ⟨h1, h2, h3⟩ := ih hlt
      exact ⟨h1, h2, by omega⟩

/-- The bits of a number are enough for it. -/
theorem GetBitl_spec {l : ℕ} (hl : l < 2 ^ 32) :
    l < 2 ^ GetBitl l ∧ 1 ≤ GetBitl l ∧ GetBitl l ≤ 32 := by
  have hlow : ∀ k, k ≤ 32 → l &&& (2 ^ 32 - 2 ^ k) = 0 → l < 2 ^ k := by
    intro k hk hand
    refine Nat.lt_pow_two_of_testBit _ fun i hi => ?_
    rcases Nat.lt_or_ge i 32 with hi32 | hi32
    · have hbit : (l &&& (2 ^ 32 - 2 ^ k)).testBit i = false := by rw [hand, Nat.zero_testBit]
      have hmask : (2 ^ 32 - 2 ^ k).testBit i = true := by
        have hsplit : 2 ^ 32 - 2 ^ k = 2 ^ k * (2 ^ (32 - k) - 1) := by
          rw [Nat.mul_sub, ← pow_add, Nat.add_sub_cancel' hk, Nat.mul_one]
        rw [hsplit, Nat.testBit_two_pow_mul, Nat.testBit_two_pow_sub_one]
        simp [hi]
        omega
      rwa [Nat.testBit_and, hmask, Bool.and_true] at hbit
    · exact Nat.testBit_lt_two_pow (hl.trans_le (Nat.pow_le_pow_right (by decide) hi32))
  have hcase : ∀ h, h ≤ 31 → l < 2 ^ (h + 1) →
      l < 2 ^ highestBit l h ∧ 1 ≤ highestBit l h ∧ highestBit l h ≤ 32 := by
    intro h hh hlt
    obtain ⟨h1, h2, h3⟩ := highestBit_spec hlt
    exact ⟨h1, h2, by omega⟩
  rw [GetBitl]
  split_ifs with h16 h8
  · exact hcase 7 (by decide) (hlow 8 (by decide) h8)
  · exact hcase 15 (by decide) (hlow 16 (by decide) h16)
  · exact hcase 31 le_rfl hl

/-- The pair of a neighbor: its index, which names it, in enough bits. -/
theorem getNix_spec {m_Adj : List ℕ} (hx : x ∈ m_Adj) (hlen : m_Adj.length ≤ NIX_NONE) :
    (GetNix m_Adj x).1 ≠ NIX_NONE ∧ GetNeighbor m_Adj (GetNix m_Adj x).1 = some x ∧
      Nix.NixVec.Valid (GetNix m_Adj x) := by
  have hlt := List.idxOf_lt_length_of_mem hx
  have hnone : NIX_NONE < 2 ^ 32 := by decide
  obtain ⟨h1, h2, h3⟩ := GetBitl_spec (l := m_Adj.length - 1) (by omega)
  rw [GetNix, if_pos hx]
  refine ⟨by omega, ?_, h2, h3, (Nat.le_sub_one_of_lt hlt).trans_lt h1⟩
  rw [GetNeighbor, List.getElem?_eq_getElem hlt, List.getElem_idxOf]

/-- From a node over the neighbors with these indices. -/
def follow (nodes : List (List ℕ)) (s : ℕ) (l : List (ℕ × ℕ)) : Option ℕ :=
  l.foldlM (fun u n => GetNeighbor (nodes.getD u []) n.1) s

/-- **The indices of `NixRoute`**, one for each hop. -/
theorem Inv.nixPred (h : Inv nodes root s S) (hg : Graph nodes) {fuel : ℕ} {t : ℕ} (ht : t ∈ S)
    (hfuel : s.D t < fuel) :
    ∃ l, NixPred nodes s.Parent root fuel t = some l ∧ l.length = s.D t ∧
      follow nodes root l = some t ∧ ∀ p ∈ l, Nix.NixVec.Valid p := by
  induction fuel generalizing t with
  | zero => exact absurd hfuel (Nat.not_lt_zero _)
  | succ fuel ih =>
    rw [NixPred]
    by_cases hroot : root = t
    · subst hroot
      rw [if_pos rfl]
      exact ⟨[], rfl, h.dist_root.symm, rfl, fun _ hp => absurd hp List.not_mem_nil⟩
    · have htr : t ≠ root := Ne.symm hroot
      obtain ⟨h1, h2, h3⟩ := h.parent t ht htr
      obtain ⟨l, hl, hlen, hfollow, hvalid⟩ := ih h1 (by omega)
      have hmem : nodes.getD (s.Parent t) [] ∈ nodes := by
        rw [List.getD_eq_getElem _ _ (h.lt _ h1)]
        exact List.getElem_mem _
      obtain ⟨hne, hneighbor, hv⟩ := getNix_spec h2 (hg.degree _ hmem)
      rw [if_neg hroot, if_neg (h.parent_ne hg ht htr), hl, Option.bind_some]
      dsimp only
      rw [if_neg hne]
      refine ⟨_, rfl, ?_, ?_, fun p hp => ?_⟩
      · rw [List.length_append, List.length_singleton]
        omega
      · have hprefix : l.foldlM (fun u n => GetNeighbor (nodes.getD u []) n.1) root =
            some (s.Parent t) := hfollow
        rw [follow, List.foldlM_append, hprefix]
        simpa using hneighbor
      · rcases List.mem_append.mp hp with hp | hp
        · exact hvalid p hp
        · rw [List.mem_singleton.mp hp]
          exact hv

/-- **Breadth-first search gives shortest paths.**  The search ends; exactly the other nodes that can be
reached have a parent; the parents lead to the root in the least number of hops, and the next hop is
the last of them before it; and the indices that `NixRoute` adds lead from the root to the target in
the least number of hops. -/
theorem bfs_shortest (w : ℕ) (hw : 32 ≤ w) (nodes : List (List ℕ)) (hg : Graph nodes) (root : ℕ)
    (hroot : root < nodes.length) (fuel : ℕ) (hfuel : nodes.length < fuel) :
    ∃ s : Search w, BFS w nodes root fuel = some s ∧
      (∀ v, s.Parent v ≠ NODE_NONE ↔ v ≠ root ∧ Reachable (Link nodes) root v) ∧
      (∀ v, Reachable (Link nodes) root v → ∃ n : ℕ, IsDist (Link nodes) root v n ∧
        (∀ i < n, s.Parent^[i] v ≠ root ∧ s.Parent^[i] v ∈ nodes.getD (s.Parent^[i + 1] v) []) ∧
        s.Parent^[n] v = root ∧ (v ≠ root → s.NextHop v = s.Parent^[n - 1] v)) ∧
      ∀ t, Reachable (Link nodes) root t → ∃ l pNv, ComputeNixVector w nodes root t fuel = some (l, pNv) ∧
        NixPred nodes s.Parent root fuel t = some l ∧ follow nodes root l = some t ∧
        IsDist (Link nodes) root t l.length := by
  obtain ⟨s, S, hbfs, h, hQ⟩ := bfs_spec hg hw hroot hfuel
  refine ⟨s, hbfs, fun v => ?_, fun v hv => ?_, fun t ht => ?_⟩
  · rw [← h.mem_iff hQ]
    constructor
    · intro hp
      by_contra hnot
      refine hp (h.blank v ?_).1
      by_cases hvr : v = root
      · exact Or.inr hvr
      · exact Or.inl fun hv => hnot ⟨hvr, hv⟩
    · exact fun ⟨hvr, hv⟩ => h.parent_ne hg hv hvr
  · have hv := (h.mem_iff hQ).mpr hv
    refine ⟨s.D v, h.dist v hv, fun i hi => ?_, ?_, fun hvr => ?_⟩
    · obtain ⟨hmem, hdist⟩ := h.ancestor hv i hi.le
      have hne : s.Parent^[i] v ≠ root := fun hr => by rw [(h.eq_root_iff hmem).mp hr] at hdist; omega
      rw [Function.iterate_succ_apply']
      exact ⟨hne, (h.parent _ hmem hne).2.1⟩
    · obtain ⟨hmem, hdist⟩ := h.ancestor hv _ le_rfl
      exact (h.eq_root_iff hmem).mpr (by omega)
    · have hpos := h.dist_pos hv hvr
      exact h.nextHop_eq hv (by omega)
  · have ht := (h.mem_iff hQ).mpr ht
    obtain ⟨l, hl, hlen, hfollow, hvalid⟩ := h.nixPred hg ht ((h.dist_lt ht).trans hfuel)
    have hempty : Nix.NixVec.Holds (Nix.NixVec.empty w) [0] := ⟨rfl, rfl⟩
    have hblank : Nix.NixVec.Blank ([0] : List (BitVec w)) 0 := by
      intro k j _
      unfold Nix.NixVec.bitAt
      cases k <;> simp
    obtain ⟨pNv, -, hadd, -⟩ := hempty.addAll hw hvalid rfl hblank
    refine ⟨l, pNv, ?_, hl, hfollow, hlen ▸ h.dist t ht⟩
    rw [ComputeNixVector, hbfs, Option.bind_some, hl, Option.bind_some, hadd, Option.map_some]

/-- A graph of five nodes. -/
def fiveNodes : List (List ℕ) := [[1, 2], [3], [3], [4], [0]]

theorem graph_fiveNodes : Graph fiveNodes where
  ids := by decide
  adjacent := by decide
  degree := by decide

/-- Node 4 is three hops away, over nodes 1 and 3. -/
theorem bfs_shortest_fiveNodes : ∃ s : Search 64, BFS 64 fiveNodes 0 6 = some s ∧
    s.Parent 4 ≠ NODE_NONE ∧ ∃ l, NixPred fiveNodes s.Parent 0 6 4 = some l ∧
      follow fiveNodes 0 l = some 4 ∧ IsDist (Link fiveNodes) 0 4 l.length := by
  obtain ⟨s, hs, hparent, -, hroute⟩ := bfs_shortest 64 (by decide) fiveNodes graph_fiveNodes 0
    (by decide) 6 (by decide)
  have h1 : Link fiveNodes 0 1 1 := ⟨by decide, rfl⟩
  have h3 : Link fiveNodes 1 3 1 := ⟨by decide, rfl⟩
  have h4 : Link fiveNodes 3 4 1 := ⟨by decide, rfl⟩
  have hreach : Reachable (Link fiveNodes) 0 4 := ⟨_, ((Walk.nil.snoc h1).snoc h3).snoc h4⟩
  obtain ⟨l, -, -, hl, hfollow, hdist⟩ := hroute 4 hreach
  exact ⟨s, hs, (hparent 4).mpr ⟨by decide, hreach⟩, l, hl, hfollow, hdist⟩

end Ns2.Routealgo
