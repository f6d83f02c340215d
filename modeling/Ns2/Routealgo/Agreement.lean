import Ns2.Routealgo.RLookup

/-!
# The compressed tables against the plain one

* `Complete r o` — every entry but the owner's is a node, and two of them
  differ.
* `Complete.analysis` — what `Analyze` returns for a complete vector.
* `bitMap_agrees_32`, `bitMap_agrees_64` — the bitmap agrees with the plain
  table on 32 bits; on 64 bits exactly when every entry between the first and
  the last non-default one is one of the first two neighbours.
* `map_disagrees` — the map never agrees: its comparison is `equal_to`, so all
  keys but equal ones are the same to it and it keeps a single entry.
* `ordered_map_agrees` — an ordered map would agree.
* `lookups_agree` — the three results together.
-/

namespace Ns2.Routealgo

variable {w : ℕ} {r : List ℕ} {o : ℕ}

/-- A complete next-hop vector of the owner `o`. -/
structure Complete (r : List ℕ) (o : ℕ) : Prop where
  /-- `NODE_NONE` is not a node. -/
  size : r.length ≤ NODE_NONE
  owner : o < r.length
  valid : ∀ t, t < r.length → t ≠ o → r.getD t 0 < r.length
  two : ∃ t t', t < r.length ∧ t ≠ o ∧ t' < r.length ∧ t' ≠ o ∧ r.getD t 0 ≠ r.getD t' 0

/-! ## Analysis -/

/-- Every next hop is counted. -/
theorem population_spec (h : Complete r o) :
    (population r o).length = r.length ∧
      ∀ t, t < r.length → t ≠ o → (population r o).getD (r.getD t 0) 0 ≠ 0 := by
  suffices ∀ m, m ≤ r.length →
      let p := (List.range m).foldl
        (fun p i => if i ≠ o then p.modify (r.getD i 0) (· + 1) else p)
        (List.replicate r.length 0)
      p.length = r.length ∧ ∀ t, t < m → t ≠ o → p.getD (r.getD t 0) 0 ≠ 0 by
    exact this r.length le_rfl
  intro m
  induction m with
  | zero => simp
  | succ m ih =>
    intro hm
    obtain ⟨h1, h2⟩ := ih (Nat.le_of_succ_le hm)
    rw [List.range_succ, List.foldl_append]
    simp only [List.foldl_cons, List.foldl_nil]
    generalize (List.range m).foldl _ _ = p at h1 h2
    by_cases hmo : m = o
    · rw [if_neg (not_not.mpr hmo)]
      exact ⟨h1, fun t ht hto => h2 t (by omega) hto⟩
    · rw [if_pos hmo]
      refine ⟨by simpa using h1, fun t ht hto => ?_⟩
      have hlt : r.getD m 0 < p.length := h1 ▸ h.valid m hm hmo
      have hval : (p.modify (r.getD m 0) (· + 1)).getD (r.getD t 0) 0 =
          if r.getD m 0 = r.getD t 0 then p.getD (r.getD t 0) 0 + 1 else p.getD (r.getD t 0) 0 := by
        generalize r.getD m 0 = x at hlt
        generalize r.getD t 0 = y
        rw [List.getD_eq_getElem?_getD, List.getElem?_modify, List.getD_eq_getElem?_getD]
        by_cases heq : x = y
        · subst heq
          simp [hlt]
        · simp [heq]
      rw [hval]
      split_ifs with heq
      · omega
      · refine h2 t ?_ hto
        rcases Nat.lt_succ_iff_lt_or_eq.mp ht with ht | rfl
        · exact ht
        · exact absurd rfl heq

theorem mem_neighbors {p : List ℕ} {i : ℕ} : i ∈ neighbors p ↔ i < p.length ∧ p.getD i 0 ≠ 0 := by
  simp [neighbors]

theorem neighbors_nodup (p : List ℕ) : (neighbors p).Nodup := List.nodup_range.filter _

/-- Every next hop is a neighbour. -/
theorem Complete.mem_neighbors (h : Complete r o) {t : ℕ} (ht : t < r.length) (hto : t ≠ o) :
    r.getD t 0 ∈ neighbors (population r o) := by
  obtain ⟨h1, h2⟩ := population_spec h
  exact Ns2.Routealgo.mem_neighbors.mpr ⟨h1 ▸ h.valid t ht hto, h2 t ht hto⟩

/-- There are two neighbours or more, and not too many for `FindBPE`. -/
theorem Complete.neighbors_length (h : Complete r o) :
    2 ≤ (neighbors (population r o)).length ∧ (neighbors (population r o)).length < 2 ^ 32 := by
  obtain ⟨t, t', ht, hto, ht', hto', hne⟩ := h.two
  have hsub : [r.getD t 0, r.getD t' 0] ⊆ neighbors (population r o) := by
    intro x hx
    rcases List.mem_pair.mp hx with rfl | rfl
    · exact h.mem_neighbors ht hto
    · exact h.mem_neighbors ht' hto'
  have hnodup : [r.getD t 0, r.getD t' 0].Nodup := by simpa using hne
  refine ⟨(hnodup.subperm hsub).length_le, ?_⟩
  have hle : (neighbors (population r o)).length ≤ r.length := by
    rw [← (population_spec h).1]
    exact (List.length_filter_le _ _).trans (List.length_range).le
  have := h.size
  unfold NODE_NONE at this
  omega

/-- The number of counts that are not zero. -/
theorem bestDefault_count (p : List ℕ) :
    ((List.range p.length).foldl (bestDefaultStep p) (NODE_NONE, 0)).2 = (neighbors p).length := by
  unfold neighbors
  generalize p.length = m
  induction m with
  | zero => rfl
  | succ m ih =>
    rw [List.range_succ, List.foldl_append, List.filter_append, List.length_append, ← ih]
    by_cases hp : p.getD m 0 = 0
    · simp [bestDefaultStep, hp, -List.getD_eq_getElem?_getD]
    · simp [bestDefaultStep, hp, -List.getD_eq_getElem?_getD]

/-- An entry that is not the default. -/
def NonDefault (r : List ℕ) (o d i : ℕ) : Prop := i ≠ o ∧ r.getD i 0 ≠ d

/-- The first and the last entry that is not the default. -/
theorem nonDefault_spec (d m : ℕ) (hm : m ≤ NODE_NONE) :
    let s := (List.range m).foldl (nonDefaultStep r o d) (NODE_NONE, NODE_NONE)
    (s.1 = NODE_NONE ∧ ∀ i, i < m → ¬ NonDefault r o d i) ∨
      (s.1 ≤ s.2 ∧ s.2 < m ∧ NonDefault r o d s.1 ∧
        ∀ i, i < m → NonDefault r o d i → s.1 ≤ i ∧ i ≤ s.2) := by
  induction m with
  | zero => exact Or.inl ⟨rfl, fun i hi => absurd hi (Nat.not_lt_zero i)⟩
  | succ m ih =>
    have ih := ih (by omega)
    simp only at ih
    rw [List.range_succ, List.foldl_append]
    simp only [List.foldl_cons, List.foldl_nil]
    generalize (List.range m).foldl _ _ = s at ih ⊢
    have hcases : ∀ i, i < m + 1 → i < m ∨ i = m := fun i hi => by omega
    by_cases hnd : NonDefault r o d m
    · obtain ⟨hmo, hmd⟩ := id hnd
      right
      simp only [nonDefaultStep, if_pos hmo, if_pos hmd]
      rcases ih with ⟨h1, h2⟩ | ⟨h1, h2, h3, h4⟩
      · rw [if_pos ⟨hmd, h1⟩]
        refine ⟨le_rfl, Nat.lt_succ_self m, hnd, fun i hi hid => ?_⟩
        rcases hcases i hi with hi | rfl
        · exact absurd hid (h2 i hi)
        · exact ⟨le_rfl, le_rfl⟩
      · rw [if_neg fun h => by omega]
        refine ⟨by omega, Nat.lt_succ_self m, h3, fun i hi hid => ?_⟩
        rcases hcases i hi with hi | rfl
        · have := h4 i hi hid
          omega
        · omega
    · have hstep : nonDefaultStep r o d s m = s := by
        unfold nonDefaultStep
        by_cases hmo : m = o
        · rw [if_neg (not_not.mpr hmo)]
        · have hmd : r.getD m 0 = d := by
            by_contra hmd
            exact hnd ⟨hmo, hmd⟩
          simp [hmo, hmd, -List.getD_eq_getElem?_getD]
      rw [hstep]
      rcases ih with ⟨h1, h2⟩ | ⟨h1, h2, h3, h4⟩
      · refine Or.inl ⟨h1, fun i hi hid => ?_⟩
        rcases hcases i hi with hi | rfl
        · exact h2 i hi hid
        · exact hnd hid
      · refine Or.inr ⟨h1, by omega, h3, fun i hi hid => ?_⟩
        rcases hcases i hi with hi | rfl
        · exact h4 i hi hid
        · exact absurd hid hnd

/-- **What `Analyze` returns for a complete vector.** -/
theorem Complete.analysis (h : Complete r o) :
    (Analyze r o).p = population r o ∧ (Analyze r o).f ≤ (Analyze r o).l ∧
      (Analyze r o).l < r.length ∧ NonDefault r o (Analyze r o).d (Analyze r o).f ∧
      ∀ i, i < r.length → NonDefault r o (Analyze r o).d i →
        (Analyze r o).f ≤ i ∧ i ≤ (Analyze r o).l := by
  have hcount := bestDefault_count (population r o)
  have hlen := h.neighbors_length.1
  unfold Analyze
  simp only
  generalize (List.range (population r o).length).foldl _ _ = s at hcount ⊢
  rw [if_neg (by omega)]
  have hspec := nonDefault_spec (r := r) (o := o) (if s.2 = 0 then NODE_NONE else s.1) r.length
    h.size
  simp only at hspec
  generalize (List.range r.length).foldl _ _ = s' at hspec ⊢
  rcases hspec with ⟨-, hall⟩ | hspec
  · obtain ⟨t, t', ht, hto, ht', hto', hne⟩ := h.two
    have hd : ∀ i, i < r.length → i ≠ o → r.getD i 0 = if s.2 = 0 then NODE_NONE else s.1 :=
      fun i hi hio => not_not.mp fun hid => hall i hi ⟨hio, hid⟩
    exact absurd ((hd t ht hto).trans (hd t' ht' hto').symm) hne
  · exact ⟨rfl, hspec⟩

/-! ## The bitmap -/

/-- The entry of the bitmap for `f + k`. -/
def entry (w : ℕ) (r nvec : List ℕ) (f k : ℕ) : BitVec w :=
  BitVec.ofNat w (nvec.idxOf (r.getD (f + k) 0))

/-- An index has no bits beyond those of an entry. -/
theorem entry_bits {nvec : List ℕ} {f k bpe j : ℕ} (hlen : nvec.length < 2 ^ bpe) (hj : bpe ≤ j) :
    (entry w r nvec f k).getLsbD j = false := by
  unfold entry
  have hle : nvec.idxOf (r.getD (f + k) 0) < 2 ^ j :=
    (List.idxOf_le_length.trans_lt hlen).trans_le (Nat.pow_le_pow_right (by omega) hj)
  rw [BitVec.getLsbD_ofNat, Nat.testBit_lt_two_pow hle, Bool.and_false]

/-- Populating the bitmap. -/
theorem populateBitMap_spec {nvec : List ℕ} {f c bpe : ℕ} (hw : 32 ≤ w)
    (hmask : BitMap.MaskInside w bpe) (h1 : 1 ≤ bpe) (h32 : bpe ≤ 32)
    (hlen : nvec.length < 2 ^ bpe) (hc : f + c ≤ r.length) :
    ∃ b, populateBitMap r nvec f c (BitMap.new w c bpe) = some b ∧
      b.Stores c bpe c (entry w r nvec f) := by
  suffices ∀ m, m ≤ c → ∃ b, populateBitMap r nvec f m (BitMap.new w c bpe) = some b ∧
      b.Stores c bpe m (entry w r nvec f) by
    exact this c le_rfl
  intro m
  induction m with
  | zero => exact fun _ => ⟨_, rfl, BitMap.stores_new _ h1 h32⟩
  | succ m ih =>
    intro hm
    obtain ⟨b, hb, hst⟩ := ih (by omega)
    obtain ⟨b', hb', hst'⟩ := hst.set hw hmask h1 h32 (by omega) fun j hj => entry_bits hlen hj
    refine ⟨b', ?_, hst'⟩
    have hget : r[f + m]? = some (r.getD (f + m) 0) := by
      rw [List.getD_eq_getElem?_getD, List.getElem?_eq_getElem (by omega)]
      rfl
    unfold populateBitMap at hb ⊢
    rw [List.range_succ, List.foldlM_append, hb]
    simp only [List.foldlM_cons, List.foldlM_nil, Option.bind_eq_bind, Option.bind_some, hget]
    have hset : b.Set m (BitVec.ofNat w (nvec.idxOf (r.getD (f + m) 0))) = some b' := hb'
    rw [hset]
    rfl

/-- The bitmap, populated with the results of `Analyze`, agrees with the plain table. -/
def BitMapAgrees (w : ℕ) (r : List ℕ) (o : ℕ) : Prop :=
  ∃ h, BMLookup.Populate w r (Analyze r o) = some h ∧
    ∀ t, t < r.length → t ≠ o →
      h.Lookup t = some (r.getD t 0) ∧ (NHLookup.Populate r).Lookup t = some (r.getD t 0)

theorem nextHop_lookup {t : ℕ} (ht : t < r.length) :
    (NHLookup.Populate r).Lookup t = some (r.getD t 0) := by
  unfold NHLookup.Lookup NHLookup.Populate
  rw [if_neg (not_le.mpr ht), List.getD_eq_getElem?_getD, List.getElem?_eq_getElem ht]
  rfl

/-- Agreement is a matter of what `Get` returns between the first and the last non-default
entry. -/
theorem bitMapAgrees_iff (hw : 32 ≤ w) (h : Complete r o)
    (hmask : BitMap.MaskInside w (BitMap.FindBPE (neighbors (population r o)).length))
    (g : BitVec w → BitVec w)
    (hget : ∀ (b : BitMap w) c vals e,
      b.Stores c (BitMap.FindBPE (neighbors (population r o)).length) c vals → e < c →
      (∀ j, BitMap.FindBPE (neighbors (population r o)).length ≤ j →
        (vals e).getLsbD j = false) → b.Get e = some (g (vals e))) :
    BitMapAgrees w r o ↔ ∀ t, t ≠ o → (Analyze r o).f ≤ t → t ≤ (Analyze r o).l →
      (neighbors (population r o))[(g (BitVec.ofNat w
        ((neighbors (population r o)).idxOf (r.getD t 0)))).toNat]? = some (r.getD t 0) := by
  obtain ⟨hp, hfl, hl, -, hrange⟩ := h.analysis
  obtain ⟨hlt, h2, h32⟩ := BitMap.FindBPE_spec h.neighbors_length.1 h.neighbors_length.2
  obtain ⟨b, hb, hst⟩ := populateBitMap_spec (r := r) (f := (Analyze r o).f)
    (c := (Analyze r o).l - (Analyze r o).f + 1) hw hmask (by omega) h32 hlt (by omega)
  have hpop : BMLookup.Populate w r (Analyze r o) =
      some ⟨(Analyze r o).d, (Analyze r o).f, (Analyze r o).l,
        neighbors (population r o), b⟩ := by
    unfold BMLookup.Populate
    rw [hp]
    simp only
    rw [hb]
    rfl
  have hin : ∀ t, (Analyze r o).f ≤ t → t ≤ (Analyze r o).l →
      BMLookup.Lookup ⟨(Analyze r o).d, (Analyze r o).f, (Analyze r o).l,
        neighbors (population r o), b⟩ t =
      (neighbors (population r o))[(g (BitVec.ofNat w
        ((neighbors (population r o)).idxOf (r.getD t 0)))).toNat]? := by
    intro t hft htl
    unfold BMLookup.Lookup
    simp only
    rw [if_neg (not_lt.mpr hft), if_neg (not_lt.mpr htl),
      hget b _ _ (t - (Analyze r o).f) hst (by omega) fun j hj => entry_bits hlt hj]
    unfold entry
    rw [Nat.add_sub_cancel' hft]
    rfl
  unfold BitMapAgrees
  rw [hpop]
  constructor
  · rintro ⟨_, ⟨⟩, hagree⟩ t hto hft htl
    rw [← hin t hft htl]
    exact (hagree t (by omega) hto).1
  · intro hall
    refine ⟨_, rfl, fun t ht hto => ⟨?_, nextHop_lookup ht⟩⟩
    by_cases hmid : (Analyze r o).f ≤ t ∧ t ≤ (Analyze r o).l
    · rw [hin t hmid.1 hmid.2]
      exact hall t hto hmid.1 hmid.2
    · have hd : r.getD t 0 = (Analyze r o).d :=
        not_not.mp fun hd => hmid (hrange t ht ⟨hto, hd⟩)
      unfold BMLookup.Lookup
      simp only
      split_ifs with hlo hhi
      · rw [hd]
      · rw [hd]
      · exact absurd ⟨not_lt.mp hlo, not_lt.mp hhi⟩ hmid

variable {nvec : List ℕ} {x : ℕ}

/-- The index read as it is. -/
theorem index_32 (hlen : nvec.length < 2 ^ 32) (hx : x ∈ nvec) :
    nvec[(BitVec.ofNat 32 (nvec.idxOf x)).toNat]? = some x := by
  have hlt := List.idxOf_lt_length_of_mem hx
  rw [BitVec.toNat_ofNat, Nat.mod_eq_of_lt (hlt.trans hlen), List.getElem?_eq_getElem hlt,
    List.getElem_idxOf]

/-- The lowest bit of the index. -/
theorem index_64 (hlen : nvec.length < 2 ^ 32) (h2 : 2 ≤ nvec.length) (hnd : nvec.Nodup)
    (hx : x ∈ nvec) :
    nvec[(BitVec.ofNat 64 (nvec.idxOf x) &&& 1).toNat]? = some x ↔ nvec.idxOf x < 2 := by
  have hlt := List.idxOf_lt_length_of_mem hx
  have hone : (1 : BitVec 64).toNat = 2 ^ 1 - 1 := by decide
  have hval : (BitVec.ofNat 64 (nvec.idxOf x) &&& 1).toNat = nvec.idxOf x % 2 := by
    rw [BitVec.toNat_and, BitVec.toNat_ofNat, hone, Nat.and_two_pow_sub_one_eq_mod,
      Nat.mod_eq_of_lt (hlt.trans (hlen.trans (by norm_num)))]
  have hmod : nvec.idxOf x % 2 < nvec.length := (Nat.mod_lt _ (by omega)).trans_le h2
  rw [hval, List.getElem?_eq_getElem hmod, Option.some_inj]
  constructor
  · intro heq
    have hidx := hnd.idxOf_getElem (nvec.idxOf x % 2) hmod
    rw [heq] at hidx
    omega
  · intro hlt2
    simp only [Nat.mod_eq_of_lt hlt2]
    exact List.getElem_idxOf hlt

/-- **On 32 bits the bitmap agrees with the plain table.** -/
theorem bitMap_agrees_32 (h : Complete r o) : BitMapAgrees 32 r o := by
  obtain ⟨-, h2, h32⟩ := BitMap.FindBPE_spec h.neighbors_length.1 h.neighbors_length.2
  refine (bitMapAgrees_iff le_rfl h (BitMap.maskInside_32 (by omega) h32) id ?_).mpr ?_
  · intro b c vals e hst he hval
    exact hst.get_32 (by omega) h32 he he hval
  · intro t hto _ htl
    have hl := h.analysis.2.2.1
    exact index_32 h.neighbors_length.2 (h.mem_neighbors (by omega) hto)

/-- **On 64 bits the bitmap agrees with the plain table exactly when between the first and the
last entry that is not the default there are only the first two neighbours.** -/
theorem bitMap_agrees_64 (h : Complete r o) :
    BitMapAgrees 64 r o ↔ ∀ t, t ≠ o → (Analyze r o).f ≤ t → t ≤ (Analyze r o).l →
      (neighbors (population r o)).idxOf (r.getD t 0) < 2 := by
  obtain ⟨-, h2, h32⟩ := BitMap.FindBPE_spec h.neighbors_length.1 h.neighbors_length.2
  rw [bitMapAgrees_iff (by omega) h (BitMap.maskInside_64 (by omega) h32) (· &&& 1)
    fun b c vals e hst he _ => hst.get_64 (by omega) h32 he he]
  refine forall_congr' fun t => forall_congr' fun hto => forall_congr' fun _ =>
    forall_congr' fun htl => ?_
  have hl := h.analysis.2.2.1
  exact index_64 h.neighbors_length.2 h.neighbors_length.1 (neighbors_nodup _)
    (h.mem_neighbors (by omega) hto)

/-! ## The map -/

/-- The map, populated with the results of `Analyze`, agrees with the plain table. -/
def MapAgrees (before : ℕ → ℕ → Bool) (r : List ℕ) (o : ℕ) : Prop :=
  ∀ t, t < r.length → t ≠ o →
    (HMLookup.Populate before r (Analyze r o)).Lookup before t = some (r.getD t 0) ∧
      (NHLookup.Populate r).Lookup t = some (r.getD t 0)

/-- An entry that `Populate` inserts. -/
def Inserted (r : List ℕ) (d i : ℕ) : Prop := r.getD i 0 ≠ d ∧ r.getD i 0 ≠ NODE_NONE

/-- The map after the first `m` entries, for a comparison under which different keys are the same:
only the first entry. -/
theorem routeMap_equal_to (d m : ℕ) :
    let map := (List.range m).foldl (fun map i =>
      if r.getD i 0 ≠ d ∧ r.getD i 0 ≠ NODE_NONE then insertUnique equal_to map (i, r.getD i 0)
      else map) []
    (map = [] ∧ ∀ i, i < m → ¬ Inserted r d i) ∨
      ∃ i, i < m ∧ Inserted r d i ∧ map = [(i, r.getD i 0)] := by
  induction m with
  | zero => exact Or.inl ⟨rfl, fun i hi => absurd hi (Nat.not_lt_zero i)⟩
  | succ m ih =>
    simp only at ih
    rw [List.range_succ, List.foldl_append]
    simp only [List.foldl_cons, List.foldl_nil]
    generalize (List.range m).foldl _ _ = map at ih ⊢
    by_cases hm : r.getD m 0 ≠ d ∧ r.getD m 0 ≠ NODE_NONE
    · rw [if_pos hm]
      right
      rcases ih with ⟨rfl, -⟩ | ⟨i, hi, hins, rfl⟩
      · exact ⟨m, Nat.lt_succ_self m, hm, rfl⟩
      · have hsame : sameKey equal_to i m = true := by
          simp [sameKey, equal_to, hi.ne, hi.ne']
        refine ⟨i, Nat.lt_succ_of_lt hi, hins, ?_⟩
        simp [insertUnique, hsame]
    · rw [if_neg hm]
      rcases ih with ⟨h1, h2⟩ | ⟨i, hi, hins, hmap⟩
      · refine Or.inl ⟨h1, fun i hi => ?_⟩
        rcases Nat.lt_succ_iff_lt_or_eq.mp hi with hi | rfl
        · exact h2 i hi
        · exact hm
      · exact Or.inr ⟨i, Nat.lt_succ_of_lt hi, hins, hmap⟩

/-- **The map never agrees.**  It keeps one entry and returns it for every other key. -/
theorem map_disagrees (h : Complete r o) : ¬ MapAgrees equal_to r o := by
  intro hagree
  obtain ⟨-, hfl, hl, ⟨hfo, hfd⟩, -⟩ := h.analysis
  have hf : (Analyze r o).f < r.length := by omega
  have hvalid := h.valid _ hf hfo
  have hsize := h.size
  have hmap := routeMap_equal_to (r := r) (Analyze r o).d r.length
  simp only at hmap
  rcases hmap with ⟨-, hnone⟩ | ⟨i, hi, ⟨hid, -⟩, hmap⟩
  · exact hnone _ hf ⟨hfd, by omega⟩
  · have hlook : ∀ t, (HMLookup.Populate equal_to r (Analyze r o)).Lookup equal_to t =
        if t = i then some (Analyze r o).d else some (r.getD i 0) := by
      intro t
      unfold HMLookup.Lookup HMLookup.Populate find
      rw [hmap]
      by_cases hti : t = i
      · subst hti
        simp [sameKey, equal_to]
      · simp [sameKey, equal_to, hti, Ne.symm hti]
    by_cases hio : i = o
    · -- the owner's entry is returned for every destination
      obtain ⟨t, t', ht, hto, ht', hto', hne⟩ := h.two
      have h1 := (hagree t ht hto).1
      have h2 := (hagree t' ht' hto').1
      rw [hlook, if_neg (hio ▸ hto)] at h1
      rw [hlook, if_neg (hio ▸ hto'), h1] at h2
      exact hne (Option.some.inj h2)
    · -- the default is returned for the key itself
      have h1 := (hagree i hi hio).1
      rw [hlook, if_pos rfl] at h1
      exact hid (Option.some.inj h1).symm

/-- The comparison of an ordered map. -/
def less (a b : ℕ) : Bool := a < b

/-- With an ordered map keys are the same only if they are equal. -/
theorem sameKey_less (a b : ℕ) : sameKey less a b = true ↔ a = b := by
  simp only [sameKey, less, Bool.and_eq_true, Bool.not_eq_true', decide_eq_false_iff_not]
  omega

/-- The ordered map after the first `m` entries. -/
theorem routeMap_less (d m : ℕ) :
    let map := (List.range m).foldl (fun map i =>
      if r.getD i 0 ≠ d ∧ r.getD i 0 ≠ NODE_NONE then insertUnique less map (i, r.getD i 0)
      else map) []
    ∀ e, e ∈ map ↔ e.1 < m ∧ Inserted r d e.1 ∧ e.2 = r.getD e.1 0 := by
  induction m with
  | zero => simp
  | succ m ih =>
    simp only at ih
    rw [List.range_succ, List.foldl_append]
    simp only [List.foldl_cons, List.foldl_nil]
    generalize (List.range m).foldl _ _ = map at ih ⊢
    intro e
    by_cases hm : r.getD m 0 ≠ d ∧ r.getD m 0 ≠ NODE_NONE
    · have hnew : (map.any fun e' => sameKey less e'.1 m) = false := by
        rw [List.any_eq_false]
        intro e' he' hsame
        have := (ih e').mp he'
        rw [sameKey_less] at hsame
        omega
      rw [if_pos hm]
      unfold insertUnique
      rw [hnew, if_neg Bool.false_ne_true, List.mem_append, List.mem_singleton, ih e]
      constructor
      · rintro (⟨h1, h2⟩ | rfl)
        · exact ⟨by omega, h2⟩
        · exact ⟨Nat.lt_succ_self m, hm, rfl⟩
      · rintro ⟨h1, h2, h3⟩
        rcases Nat.lt_succ_iff_lt_or_eq.mp h1 with h1 | h1
        · exact Or.inl ⟨h1, h2, h3⟩
        · exact Or.inr (Prod.ext h1 (h1 ▸ h3))
    · rw [if_neg hm, ih e]
      constructor
      · rintro ⟨h1, h2⟩
        exact ⟨by omega, h2⟩
      · rintro ⟨h1, h2, h3⟩
        rcases Nat.lt_succ_iff_lt_or_eq.mp h1 with h1 | h1
        · exact ⟨h1, h2, h3⟩
        · exact absurd (h1 ▸ h2) hm

/-- **An ordered map would agree.** -/
theorem ordered_map_agrees (h : Complete r o) : MapAgrees less r o := by
  intro t ht hto
  refine ⟨?_, nextHop_lookup ht⟩
  have hmap := routeMap_less (r := r) (Analyze r o).d r.length
  simp only at hmap
  unfold HMLookup.Lookup HMLookup.Populate find
  simp only
  generalize (List.range r.length).foldl _ _ = map at hmap
  cases hfind : map.find? fun e => sameKey less e.1 t with
  | none =>
    have hnot : ¬ Inserted r (Analyze r o).d t := by
      intro hins
      have := List.find?_eq_none.mp hfind (t, r.getD t 0) ((hmap _).mpr ⟨ht, hins, rfl⟩)
      exact this ((sameKey_less t t).mpr rfl)
    have hvalid := h.valid t ht hto
    have hsize := h.size
    have hd : r.getD t 0 = (Analyze r o).d :=
      not_not.mp fun hd => hnot ⟨hd, by omega⟩
    rw [hd]
  | some e =>
    have hsame : sameKey less e.1 t = true := by
      have := List.find?_some hfind
      exact this
    have hkey := (sameKey_less _ _).mp hsame
    have hval := ((hmap e).mp (List.mem_of_find?_eq_some hfind)).2.2
    simp only
    rw [hval, hkey]

/-! ## All tables -/

/-- **The compressed tables against the plain one.**  The bitmap agrees on 32 bits; on 64 bits it
agrees exactly when the entries of its range are among the first two neighbours; the map never
agrees. -/
theorem lookups_agree (r : List ℕ) (o : ℕ) (h : Complete r o) :
    BitMapAgrees 32 r o ∧
    (BitMapAgrees 64 r o ↔ ∀ t, t ≠ o → (Analyze r o).f ≤ t → t ≤ (Analyze r o).l →
      (neighbors (population r o)).idxOf (r.getD t 0) < 2) ∧
    ¬ MapAgrees equal_to r o :=
  ⟨bitMap_agrees_32 h, bitMap_agrees_64 h, map_disagrees h⟩

/-- Node 0 reaches nodes 1 and 2 directly. -/
theorem complete_two : Complete [NODE_NONE, 1, 2] 0 := by
  refine ⟨by decide, by decide, ?_, 1, 2, by decide⟩
  intro t ht ht0
  have h12 : t = 1 ∨ t = 2 := by
    rw [List.length_cons, List.length_cons, List.length_cons, List.length_nil] at ht
    omega
  rcases h12 with rfl | rfl <;> decide

theorem lookups_agree_two :
    BitMapAgrees 32 [NODE_NONE, 1, 2] 0 ∧
    (BitMapAgrees 64 [NODE_NONE, 1, 2] 0 ↔ ∀ t, t ≠ 0 → (Analyze [NODE_NONE, 1, 2] 0).f ≤ t →
      t ≤ (Analyze [NODE_NONE, 1, 2] 0).l →
      (neighbors (population [NODE_NONE, 1, 2] 0)).idxOf
        (([NODE_NONE, 1, 2] : List ℕ).getD t 0) < 2) ∧
    ¬ MapAgrees equal_to [NODE_NONE, 1, 2] 0 :=
  lookups_agree [NODE_NONE, 1, 2] 0 complete_two

/-- Node 0 with the neighbours 1 and 2: the map returns 1 for node 2. -/
theorem not_lookups_agree :
    ¬ ∀ r o, Complete r o →
      BitMapAgrees 32 r o ∧ BitMapAgrees 64 r o ∧ MapAgrees equal_to r o := by
  intro hall
  have hmap := ((hall _ _ complete_two).2.2 2 (by decide) (by decide)).1
  have heval : (HMLookup.Populate equal_to [NODE_NONE, 1, 2]
      (Analyze [NODE_NONE, 1, 2] 0)).Lookup equal_to 2 = some 1 := by decide
  rw [heval] at hmap
  exact absurd hmap (by decide)

end Ns2.Routealgo
