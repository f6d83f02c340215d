import Ns2.Lib.FirstGap
import Ns2.Lib.Run

/-!
# The data-level cumulative acknowledgment

`MptcpAgent::set_dataack` is told, by each subflow, which ranges of the data
sequence space have arrived; `get_dataack` is the value put on outgoing packets
as the data-level ACK.  The agent keeps the acknowledged point `mackno_` and a
vector `dackmap_` of blocks.

* `setDataack` — the source function, loop by loop: `extendFirst` is the search
  for a block to extend, `recalc` the pass that moves `mackno_` and prunes.
* `recalc_fst` — what that pass does to the point: if any block touches it, the
  point becomes the end of the range *just reported*, whichever block it was.
* `ExtendsAck` — the condition on a report, read off the state before it, under
  which that is the right value.
* `getDataack_exact_iff` — a run of reports has an exact data-level ACK all
  along if and only if every report of it meets `ExtendsAck`.
-/

namespace Ns2.Mptcp

/-! ## The source -/

/-- `struct dack_mapping`: a block of the data sequence space. -/
structure DackMapping where
  /-- First number of the block. -/
  ackno : ℤ
  /-- Number of bytes in it. -/
  length : ℤ
  deriving DecidableEq, Repr

/-- The part of `MptcpAgent` that `set_dataack` reads and writes. -/
structure DataAck where
  /-- The data-level acknowledgment. -/
  mackno_ : ℤ
  /-- The blocks reported and not yet pruned, oldest first. -/
  dackmap_ : List DackMapping
  deriving DecidableEq, Repr

namespace DackMapping

/-- `p->ackno + p->length`. -/
def endno (p : DackMapping) : ℤ := p.ackno + p.length

/-- The bytes of the block. -/
def bytes (p : DackMapping) : Set ℤ := Set.Ico p.ackno p.endno

/-- The test `mackno_ >= p->ackno && mackno_ <= p->ackno + p->length`. -/
def Touches (p : DackMapping) (m : ℤ) : Prop := p.ackno ≤ m ∧ m ≤ p.endno

instance (p : DackMapping) (m : ℤ) : Decidable (p.Touches m) :=
  inferInstanceAs (Decidable (_ ∧ _))

end DackMapping

namespace DataAck

/-- The agent's constructor: `mackno_ (1)`, an empty vector. -/
def init : DataAck := ⟨1, []⟩

/-- `get_dataack`. -/
def getDataack (s : DataAck) : ℤ := s.mackno_

/-- The first loop of `set_dataack`: extend the first block that holds `ackno`
and ends before the reported range does.  `none` is `found == false`. -/
def extendFirst (ackno length : ℤ) : List DackMapping → Option (List DackMapping)
  | [] => none
  | p :: rest =>
    if p.ackno ≤ ackno ∧ ackno ≤ p.endno ∧ p.endno < ackno + length then
      some ({ p with length := ackno + length - p.ackno } :: rest)
    else
      (extendFirst ackno length rest).map (p :: ·)

/-- The first test of the second loop: `mackno_` after looking at block `p`. -/
def moved (ackno length m : ℤ) (p : DackMapping) : ℤ :=
  if p.Touches m then ackno + length else m

/-- The second loop of `set_dataack`, from the current `mackno_` over the blocks
that are left. -/
def recalc (ackno length : ℤ) : ℤ → List DackMapping → ℤ × List DackMapping
  | m, [] => (m, [])
  | m, p :: rest =>
    let r := recalc ackno length (moved ackno length m p) rest
    if moved ackno length m p > p.endno then r else (r.1, p :: r.2)

/-- The vector after the first loop and the `push_back`. -/
def addBlock (ackno length : ℤ) (map : List DackMapping) : List DackMapping :=
  (extendFirst ackno length map).getD (map ++ [⟨ackno, length⟩])

/-- `MptcpAgent::set_dataack`. -/
def setDataack (s : DataAck) (ackno length : ℤ) : DataAck :=
  let r := recalc ackno length s.mackno_ (addBlock ackno length s.dackmap_)
  ⟨r.1, r.2⟩

/-! ## What the two loops do -/

section Loops

variable {ackno length : ℤ}

/-- The bytes a vector of blocks stands for. -/
def blockBytes (map : List DackMapping) : Set ℤ := {n | ∃ p ∈ map, n ∈ p.bytes}

@[simp] theorem blockBytes_nil : blockBytes [] = ∅ := by
  ext n; simp [blockBytes]

@[simp] theorem blockBytes_cons (p : DackMapping) (map : List DackMapping) :
    blockBytes (p :: map) = p.bytes ∪ blockBytes map := by
  ext n; simp [blockBytes]

@[simp] theorem blockBytes_append (map₁ map₂ : List DackMapping) :
    blockBytes (map₁ ++ map₂) = blockBytes map₁ ∪ blockBytes map₂ := by
  ext n; simp [blockBytes, or_and_right, exists_or]

/-- Extending a block adds exactly the reported range to the bytes of the vector. -/
theorem blockBytes_extendFirst {map map' : List DackMapping}
    (h : extendFirst ackno length map = some map') :
    blockBytes map' = blockBytes map ∪ Set.Ico ackno (ackno + length) := by
  induction map generalizing map' with
  | nil => simp [extendFirst] at h
  | cons p rest ih =>
    rw [extendFirst] at h
    split at h
    · rename_i hp
      obtain rfl := Option.some.inj h
      have hext : DackMapping.bytes { p with length := ackno + length - p.ackno }
          = p.bytes ∪ Set.Ico ackno (ackno + length) := by
        ext n
        simp only [DackMapping.bytes, DackMapping.endno, Set.mem_union, Set.mem_Ico] at hp ⊢
        omega
      rw [blockBytes_cons, blockBytes_cons, hext, Set.union_assoc, Set.union_assoc,
        Set.union_comm (blockBytes rest)]
    · obtain ⟨rest', hrest, rfl⟩ := Option.map_eq_some_iff.mp h
      rw [blockBytes_cons, blockBytes_cons, ih hrest, Set.union_assoc]

theorem blockBytes_addBlock (map : List DackMapping) :
    blockBytes (addBlock ackno length map)
      = blockBytes map ∪ Set.Ico ackno (ackno + length) := by
  rw [addBlock]
  cases h : extendFirst ackno length map with
  | none => simp [DackMapping.bytes, DackMapping.endno]
  | some map' => simpa using blockBytes_extendFirst h

/-- Extending a block makes a vector touch a point exactly when it did so before
or the reported range does. -/
theorem touches_extendFirst {map map' : List DackMapping} {m : ℤ}
    (h : extendFirst ackno length map = some map') :
    (∃ p ∈ map', p.Touches m) ↔
      (∃ p ∈ map, p.Touches m) ∨ (ackno ≤ m ∧ m ≤ ackno + length) := by
  induction map generalizing map' with
  | nil => simp [extendFirst] at h
  | cons p rest ih =>
    rw [extendFirst] at h
    split at h
    · rename_i hp
      obtain rfl := Option.some.inj h
      have hext : DackMapping.Touches { p with length := ackno + length - p.ackno } m
          ↔ p.Touches m ∨ (ackno ≤ m ∧ m ≤ ackno + length) := by
        simp only [DackMapping.Touches, DackMapping.endno] at hp ⊢
        omega
      simp only [List.mem_cons, exists_eq_or_imp, hext]
      exact or_right_comm
    · obtain ⟨rest', hrest, rfl⟩ := Option.map_eq_some_iff.mp h
      simp only [List.mem_cons, exists_eq_or_imp, ih hrest]
      exact or_assoc.symm

theorem touches_addBlock {map : List DackMapping} {m : ℤ} :
    (∃ p ∈ addBlock ackno length map, p.Touches m) ↔
      (∃ p ∈ map, p.Touches m) ∨ (ackno ≤ m ∧ m ≤ ackno + length) := by
  rw [addBlock]
  cases h : extendFirst ackno length map with
  | none =>
    simp [DackMapping.Touches, DackMapping.endno, or_and_right, exists_or]
  | some map' => simpa using touches_extendFirst h

theorem recalc_cons_fst (m : ℤ) (p : DackMapping) (rest : List DackMapping) :
    (recalc ackno length m (p :: rest)).1
      = (recalc ackno length (moved ackno length m p) rest).1 := by
  rw [recalc]
  split
  · rfl
  · rfl

theorem mem_recalc_cons_snd {m : ℤ} {p q : DackMapping} {rest : List DackMapping} :
    q ∈ (recalc ackno length m (p :: rest)).2 ↔
      (q = p ∧ moved ackno length m p ≤ p.endno) ∨
        q ∈ (recalc ackno length (moved ackno length m p) rest).2 := by
  rw [recalc]
  split
  · rename_i hgt
    simp [not_le.mpr hgt]
  · rename_i hle
    simp [not_lt.mp hle]

/-- Once the point is the end of the reported range, the second loop leaves it there. -/
theorem recalc_fst_self (map : List DackMapping) :
    (recalc ackno length (ackno + length) map).1 = ackno + length := by
  induction map with
  | nil => rfl
  | cons p rest ih => rw [recalc_cons_fst, moved, ite_self, ih]

/-- **Where the second loop puts the point**: if any block touches it, at the end
of the range just reported, whichever block it was. -/
theorem recalc_fst (m : ℤ) (map : List DackMapping) :
    (recalc ackno length m map).1 = if ∃ p ∈ map, p.Touches m then ackno + length else m := by
  induction map with
  | nil => simp [recalc]
  | cons p rest ih =>
    rw [recalc_cons_fst, moved]
    by_cases hp : p.Touches m
    · have hex : ∃ q ∈ p :: rest, q.Touches m := ⟨p, List.mem_cons_self, hp⟩
      rw [if_pos hp, if_pos hex, recalc_fst_self]
    · have hiff : (∃ q ∈ p :: rest, q.Touches m) ↔ ∃ q ∈ rest, q.Touches m := by simp [hp]
      simp only [if_neg hp, ih, hiff]

/-- The second loop only prunes. -/
theorem recalc_snd_subset (m : ℤ) (map : List DackMapping) :
    ∀ p ∈ (recalc ackno length m map).2, p ∈ map := by
  induction map generalizing m with
  | nil => simp [recalc]
  | cons q rest ih =>
    intro p hp
    rcases mem_recalc_cons_snd.mp hp with ⟨rfl, -⟩ | hrest
    · exact List.mem_cons_self
    · exact List.mem_cons_of_mem _ (ih _ p hrest)

/-- A block that ends at or above both the old and the new point is kept. -/
theorem mem_recalc_snd {m : ℤ} {map : List DackMapping} {p : DackMapping} (hp : p ∈ map)
    (hm : m ≤ p.endno) (hfst : (recalc ackno length m map).1 ≤ p.endno) :
    p ∈ (recalc ackno length m map).2 := by
  induction map generalizing m with
  | nil => simp at hp
  | cons q rest ih =>
    -- the point is either where it was or already where it will end up
    have hmoved : moved ackno length m q ≤ p.endno := by
      rw [moved]
      split
      · rename_i hq
        rwa [recalc_fst, if_pos ⟨q, List.mem_cons_self, hq⟩] at hfst
      · exact hm
    rw [recalc_cons_fst] at hfst
    rcases List.mem_cons.mp hp with rfl | hrest
    · exact mem_recalc_cons_snd.mpr (Or.inl ⟨rfl, hmoved⟩)
    · exact mem_recalc_cons_snd.mpr (Or.inr (ih hrest hmoved hfst))

end Loops

/-! ## Runs of reports -/

/-- A report the agent can get: `ackno` at least 1 and a length that is not negative. -/
structure Report where
  /-- First data sequence number of the range. -/
  ackno : ℤ
  /-- Number of bytes reported. -/
  length : ℤ
  /-- Data sequence numbers start at 1. -/
  one_le_ackno : 1 ≤ ackno
  /-- A range has no negative length. -/
  length_nonneg : 0 ≤ length

namespace Report

/-- The bytes reported. -/
def bytes (c : Report) : Set ℤ := Set.Ico c.ackno (c.ackno + c.length)

end Report

/-- Everything reported so far. -/
def reported (calls : List Report) : Set ℤ := {n | ∃ c ∈ calls, n ∈ c.bytes}

@[simp] theorem reported_nil : reported [] = ∅ := by
  ext n; simp [reported]

@[simp] theorem reported_concat (calls : List Report) (c : Report) :
    reported (calls ++ [c]) = reported calls ∪ c.bytes := by
  ext n; simp [reported, or_and_right, exists_or]

/-- One call of `set_dataack`. -/
def step (s : DataAck) (c : Report) : DataAck := s.setDataack c.ackno c.length

/-- A sequence of calls on a fresh agent. -/
def run (calls : List Report) : DataAck := calls.foldl step init

/-- The condition on a report, in the state before it: either nothing touches
`mackno_`, neither a recorded block nor the reported range; or the reported range
does, and its end is not inside a recorded block. -/
def ExtendsAck (s : DataAck) (c : Report) : Prop :=
  ((∃ p ∈ s.dackmap_, p.Touches s.mackno_) ∨
      (c.ackno ≤ s.mackno_ ∧ s.mackno_ ≤ c.ackno + c.length)) →
    (c.ackno ≤ s.mackno_ ∧ s.mackno_ ≤ c.ackno + c.length) ∧
      ∀ p ∈ s.dackmap_, c.ackno + c.length ∉ p.bytes

/-- The state is faithful to the history: the point is the first gap, and above
it the blocks stand for exactly what was reported. -/
structure Faithful (calls : List Report) (s : DataAck) : Prop where
  /-- The data-level ACK is exact. -/
  gap : IsFirstGap 1 (reported calls) s.mackno_
  /-- A recorded block was reported. -/
  sound : ∀ n ∈ blockBytes s.dackmap_, n ∈ reported calls
  /-- What was reported at or above the point is still recorded. -/
  complete : ∀ n ∈ reported calls, s.mackno_ ≤ n → n ∈ blockBytes s.dackmap_

theorem faithful_init : Faithful [] init :=
  ⟨by simpa [init] using IsFirstGap.empty 1, by simp [init], by simp⟩

section Step

variable {calls : List Report} {s : DataAck} (h : Faithful calls s) (c : Report)

/-- Where one report puts the point, in terms of the state before it. -/
theorem step_mackno_ (s : DataAck) (c : Report) :
    (step s c).mackno_ =
      if (∃ p ∈ s.dackmap_, p.Touches s.mackno_) ∨
          (c.ackno ≤ s.mackno_ ∧ s.mackno_ ≤ c.ackno + c.length)
      then c.ackno + c.length else s.mackno_ := by
  simp only [step, setDataack, recalc_fst, touches_addBlock]

include h in
/-- No recorded block holds the point itself. -/
theorem Faithful.mackno_notMem {p : DackMapping} (hp : p ∈ s.dackmap_) : s.mackno_ ∉ p.bytes :=
  fun hm => h.gap.notMem (h.sound _ ⟨p, hp, hm⟩)

include h in
/-- A number at or above the point has been reported exactly when a block holds it. -/
theorem Faithful.mem_reported_iff {n : ℤ} (hn : s.mackno_ ≤ n) :
    n ∈ reported calls ↔ ∃ p ∈ s.dackmap_, n ∈ p.bytes :=
  ⟨fun hr => h.complete n hr hn, h.sound n⟩

include h in
/-- From a faithful state a report leads to an exact ACK exactly when it meets
`ExtendsAck`. -/
theorem extendsAck_iff :
    ExtendsAck s c ↔ IsFirstGap 1 (reported (calls ++ [c])) (step s c).mackno_ := by
  have hlen := c.length_nonneg
  rw [reported_concat, step_mackno_, Report.bytes]
  by_cases ht : (∃ p ∈ s.dackmap_, p.Touches s.mackno_) ∨
      (c.ackno ≤ s.mackno_ ∧ s.mackno_ ≤ c.ackno + c.length)
  · rw [if_pos ht]
    simp only [ExtendsAck, ht, forall_const]
    constructor
    · rintro ⟨⟨hs, he⟩, hne⟩
      refine h.gap.union_Ico hs he fun hr => ?_
      obtain ⟨p, hp, hmem⟩ := (h.mem_reported_iff he).mp hr
      exact hne p hp hmem
    · intro hg
      obtain ⟨hs, he, hne⟩ := h.gap.of_union_Ico (by omega) hg
      exact ⟨⟨hs, he⟩, fun p hp hmem => hne (h.sound _ ⟨p, hp, hmem⟩)⟩
  · rw [if_neg ht]
    refine iff_of_true (fun ht' => absurd ht' ht) (h.gap.union_of_notMem fun hm => ht (Or.inr ?_))
    exact ⟨hm.1, hm.2.le⟩

include h in
/-- A report that meets `ExtendsAck` keeps the state faithful. -/
theorem Faithful.step (hc : ExtendsAck s c) : Faithful (calls ++ [c]) (step s c) := by
  have hgap := (extendsAck_iff h c).mp hc
  have hmono : s.mackno_ ≤ (DataAck.step s c).mackno_ :=
    h.gap.mono hgap fun x _ hx => by rw [reported_concat]; exact Or.inl hx
  refine ⟨hgap, ?_, ?_⟩
  · rintro n ⟨p, hp, hn⟩
    have hadd : n ∈ blockBytes (addBlock c.ackno c.length s.dackmap_) :=
      ⟨p, recalc_snd_subset _ _ p hp, hn⟩
    rw [blockBytes_addBlock] at hadd
    rw [reported_concat]
    exact hadd.imp (h.sound n) id
  · intro n hn hle
    have hadd : n ∈ blockBytes (addBlock c.ackno c.length s.dackmap_) := by
      rw [blockBytes_addBlock]
      rw [reported_concat] at hn
      exact hn.imp (fun hr => h.complete n hr (hmono.trans hle)) id
    obtain ⟨p, hp, hmem⟩ := hadd
    have hlt : n < p.endno := hmem.2
    exact ⟨p, mem_recalc_snd hp (by omega) (hle.trans hlt.le), hmem⟩

end Step

/-- **When the data-level ACK is exact.**  Along a sequence of reports on a fresh
agent `get_dataack` is, after every call, the first data sequence number that was
not reported, if and only if every call meets `ExtendsAck`. -/
theorem getDataack_exact_iff (calls : List Report) :
    (∀ p, p <+: calls → IsFirstGap 1 (reported p) (run p).getDataack) ↔
      Run.AllSteps step ExtendsAck init calls := by
  have := Run.allSteps_iff_forall_prefix (I := Faithful)
    (G := fun p s => IsFirstGap 1 (reported p) s.mackno_)
    (fun p s hs => hs.gap) (fun p s c hs => extendsAck_iff hs c)
    (fun p s c hs hc => hs.step c hc) calls [] init faithful_init
  simpa [run, getDataack] using this.symm

/-- The data-level ACK is not exact on every run: after the in-order range
`[1, 11)` the out-of-order range `[20, 25)` moves it to 25, over nine bytes that
were never reported. -/
theorem getDataack_not_exact :
    ¬ ∀ calls : List Report, ∀ p, p <+: calls → IsFirstGap 1 (reported p) (run p).getDataack := by
  intro h
  have hgap := h [⟨1, 10, by decide, by decide⟩, ⟨20, 5, by decide, by decide⟩] _
    List.prefix_rfl
  have hrun : (run [⟨1, 10, by decide, by decide⟩, ⟨20, 5, by decide, by decide⟩]).getDataack
      = 25 := by decide
  rw [hrun] at hgap
  obtain ⟨c, hc, hmem⟩ := hgap.mem_of_lt 11 (by decide) (by decide)
  simp only [List.mem_cons, List.not_mem_nil, or_false] at hc
  rcases hc with rfl | rfl
  · exact absurd hmem.2 (by decide)
  · exact absurd hmem.1 (by decide)

/-- A stale report moves the ACK backwards: `[1, 11)` then `[1, 6)` takes it from
11 to 6. -/
example : (run [⟨1, 10, by decide, by decide⟩, ⟨1, 5, by decide, by decide⟩]).getDataack = 6 := by
  decide

end DataAck

end Ns2.Mptcp
