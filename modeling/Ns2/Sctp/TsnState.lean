import Ns2.Sctp.TsnBlocks

/-!
# The TSN state over a run

What the receiver knows after any sequence of DATA and FORWARD TSN chunks.

* `known` — the TSNs that have been received or skipped.
* `TsnState.Exact` — the cumulative ack, the blocks, and what has been handed to the streams.
* `SafeStep` — a chunk that was skipped can be told from a new one, and a loop over `int`s ends.
* `tsnState_exact` — the state is exact in all runs of such steps.
-/

namespace Ns2.Sctp

/-- What arrives. -/
inductive Event where
  | data (c : DataChunk)
  | forward (uiNewCum : ℤ)

/-- The TSNs that a chunk brings or skips. -/
def Event.tsns : Event → Set ℤ
  | .data c => {c.uiTsn}
  | .forward uiNewCum => Set.Icc 1 uiNewCum

/-- The TSNs received or skipped. -/
def known : List Event → Set ℤ
  | [] => ∅
  | e :: l => e.tsns ∪ known l

namespace Receiver

/-- One chunk is processed. -/
def receive (r : Receiver) : Event → Option Receiver
  | .data c => some (r.ProcessDataChunk c)
  | .forward uiNewCum => r.ProcessForwardTsnChunk uiNewCum

/-- Chunks are processed one after the other. -/
def run : Receiver → List Event → Option Receiver
  | r, [] => some r
  | r, e :: l => (r.receive e).bind fun r' => run r' l

/-- A property of each step of a run. -/
def Along (P : Receiver → Event → Prop) : Receiver → List Event → Prop
  | _, [] => True
  | r, e :: l => P r e ∧ ∀ r', r.receive e = some r' → Along P r' l

/-- A chunk within the receive window; TSNs do not wrap. -/
def Fits (r : Receiver) : Event → Prop
  | .data c => c.usLength ≤ r.uiMyRwnd ∧ 1 ≤ c.uiTsn ∧ c.uiTsn < 2 ^ 32 - 1
  | .forward uiNewCum => 0 ≤ uiNewCum ∧ uiNewCum < 2 ^ 32 - 1

/-- A DATA chunk that has been skipped is not above the highest TSN received, and a FORWARD TSN
chunk has its `int`s on one side of the sign. -/
def SafeStep (r : Receiver) : Event → Prop
  | .data c => ¬ (r.uiHighestRecvTsn < c.uiTsn ∧ c.uiTsn ≤ r.uiCumAck)
  | .forward uiNewCum => uiNewCum ≠ 2 ^ 31 - 1 ∧ (uiNewCum < 2 ^ 31 ↔ r.uiCumAck + 1 < 2 ^ 31)

instance (r : Receiver) : DecidablePred r.Fits
  | .data c => inferInstanceAs (Decidable (c.usLength ≤ r.uiMyRwnd ∧ 1 ≤ c.uiTsn ∧ _ < _))
  | .forward n => inferInstanceAs (Decidable (0 ≤ n ∧ n < 2 ^ 32 - 1))

instance (r : Receiver) : DecidablePred r.SafeStep
  | .data c => inferInstanceAs (Decidable (¬ (r.uiHighestRecvTsn < c.uiTsn ∧ _ ≤ _)))
  | .forward n => inferInstanceAs (Decidable (n ≠ 2 ^ 31 - 1 ∧ (n < 2 ^ 31 ↔ _)))

theorem along_cons_some {P : Receiver → Event → Prop} {r r' : Receiver} {e : Event}
    {l : List Event} (h : r.receive e = some r') :
    (r.Along P (e :: l) ↔ P r e ∧ r'.Along P l) := by
  simp [Along, h]

instance decidableAlong (P : Receiver → Event → Prop) [∀ r, DecidablePred (P r)] :
    ∀ (r : Receiver) (l : List Event), Decidable (r.Along P l)
  | _, [] => isTrue trivial
  | r, e :: l =>
    match h : r.receive e with
    | none => decidable_of_iff (P r e) (by simp [Along, h])
    | some r' =>
      have := decidableAlong P r' l
      decidable_of_iff (P r e ∧ r'.Along P l) (along_cons_some h).symm

/-- The variables that depend on TSNs alone. -/
structure TsnState where
  uiCumAck : ℤ
  uiHighestRecvTsn : ℤ
  sRecvTsnBlockList : List TsnBlock
  streamed : List DataChunk

/-- The TSN variables of a receiver. -/
def tsnState (r : Receiver) : TsnState :=
  ⟨r.uiCumAck, r.uiHighestRecvTsn, r.sRecvTsnBlockList, r.streamed⟩

/-- The cumulative ack, the blocks above it and the chunks handed on, for a set of TSNs. -/
structure TsnState.Exact (S : Set ℤ) (s : TsnState) : Prop where
  cumAck : IsGreatest {n : ℤ | 0 ≤ n ∧ Set.Icc 1 n ⊆ S} s.uiCumAck
  runs : Runs (S ∩ Set.Ioi s.uiCumAck) s.sRecvTsnBlockList
  once : (s.streamed.map DataChunk.uiTsn).Nodup

/-! ## What leaves the TSNs alone -/

variable {r r' : Receiver} {c : DataChunk} {S : Set ℤ} {s : TsnState} {t n i : ℤ} {e : Event}
  {l : List Event}

@[simp] theorem tsnState_PassToUpperLayer : (r.PassToUpperLayer c).tsnState = r.tsnState := rfl

@[simp] theorem tsnState_setStream {j : ℕ} {f : InStream} :
    (r.setStream j f).tsnState = r.tsnState := rfl

@[simp] theorem tsnState_noteNonReneg : (r.noteNonReneg c).tsnState = r.tsnState := by
  rw [noteNonReneg]
  split <;> rfl

@[simp] theorem tsnState_BuildNonReneg : r.BuildNonRenegTsnBlockList.tsnState = r.tsnState := rfl

theorem tsnState_updateStream {j : ℕ} {l : List DataChunk} :
    (updateStream j l r).tsnState = r.tsnState := by
  induction l generalizing r with
  | nil => rfl
  | cons c l ih =>
    rw [updateStream]
    split_ifs
    · simp [ih]
    · simp [ih]
    · simp

theorem tsnState_updateStreams : r.updateStreams.tsnState = r.tsnState := by
  have hfold : ∀ (js : List ℕ) (r : Receiver),
      (js.foldl (fun r j => updateStream j (r.spInStreams j).sBufferedChunkList r) r).tsnState =
        r.tsnState := by
    intro js
    induction js with
    | nil => exact fun _ => rfl
    | cons j js ih =>
      intro r
      rw [List.foldl_cons, ih, tsnState_updateStream]
  exact hfold _ r

@[simp] theorem tsnState_UpdateAllStreams : r.UpdateAllStreams.tsnState = r.tsnState := by
  rw [UpdateAllStreams]
  split
  · rw [tsnState_BuildNonReneg, tsnState_updateStreams]
  · exact tsnState_updateStreams

theorem tsnState_PassToStream :
    (r.PassToStream c).tsnState = { r.tsnState with streamed := r.streamed ++ [c] } := by
  rw [PassToStream]
  split
  · rw [tsnState_noteNonReneg]
    rfl
  · rfl

/-! ## One TSN more -/

/-- The invariant of the TSN variables. -/
structure TsnState.Inv (S : Set ℤ) (s : TsnState) : Prop where
  exact : Sctp.Exact S s.uiCumAck s.sRecvTsnBlockList
  nonneg : 0 ≤ s.uiCumAck
  pos : ∀ t ∈ S, 1 ≤ t ∧ t < 2 ^ 32 - 1
  /-- A TSN above the highest one received has been skipped. -/
  below : ∀ t ∈ S, t ≤ s.uiHighestRecvTsn ∨ t ≤ s.uiCumAck
  streamed_mem : ∀ c ∈ s.streamed, c.uiTsn ∈ S
  once : (s.streamed.map DataChunk.uiTsn).Nodup

theorem TsnState.Inv.init {f : ℕ → StreamMode} {w k : ℕ} {nr : Bool} :
    TsnState.Inv ∅ (Receiver.init w k f nr).tsnState where
  exact := Sctp.Exact.nil
  nonneg := le_rfl
  pos _ ht := absurd ht (Set.notMem_empty _)
  below _ ht := absurd ht (Set.notMem_empty _)
  streamed_mem _ hc := absurd hc List.not_mem_nil
  once := List.nodup_nil

theorem TsnState.Inv.toExact (h : s.Inv S) : s.Exact S := by
  refine ⟨⟨⟨h.nonneg, fun t ht => h.exact.acked t ht.1 ht.2⟩, fun n hn => ?_⟩, h.exact.runs, h.once⟩
  by_contra hlt
  have hnn := h.nonneg
  exact h.exact.next (hn.2 ⟨by omega, by omega⟩)

theorem TsnState.Inv.cumAck_lt (h : s.Inv S) : s.uiCumAck + 1 < 2 ^ 32 := by
  by_cases hpos : 1 ≤ s.uiCumAck
  · have := (h.pos _ (h.exact.acked _ hpos le_rfl)).2
    omega
  · omega

/-- **The search for duplicates tells whether a TSN is in the set.** -/
theorem IsDuplicateChunk_iff (h : r.tsnState.Inv S) (ht : 1 ≤ t) :
    r.IsDuplicateChunk t = true ↔ t ∈ S := by
  have hmem : t ∈ S ↔ t ≤ r.uiCumAck ∨ t ∈ tsns r.sRecvTsnBlockList := h.exact.mem_iff ht
  have hin : inBlocks t r.sRecvTsnBlockList = true ↔ t ∈ tsns r.sRecvTsnBlockList :=
    inBlocks_iff h.exact.runs.apart
  rw [IsDuplicateChunk]
  by_cases hc : t ≤ r.uiCumAck
  · simp [hc, hmem]
  · rw [if_neg hc]
    by_cases hhigh : r.uiCumAck < t ∧ t ≤ r.uiHighestRecvTsn
    · rw [if_neg (not_not_intro hhigh), hin, hmem, or_iff_right hc]
    · rw [if_pos hhigh]
      refine iff_of_false (by simp) fun hS => ?_
      have hle : t ≤ r.uiHighestRecvTsn ∨ t ≤ r.uiCumAck := h.below t hS
      omega

/-- `UpdateRecvTsnBlocks` for a new TSN that will be acked, or has been counted as received. -/
theorem UpdateRecvTsnBlocks_inv (h : r.tsnState.Inv S) (ht : 1 ≤ t) (ht' : t < 2 ^ 32 - 1)
    (hS : t ∉ S) (hle : t ≤ r.uiHighestRecvTsn ∨ t ≤ r.uiCumAck + 1) :
    (r.UpdateRecvTsnBlocks t).tsnState.Inv (insert t S) ∧
      r.uiCumAck ≤ (r.UpdateRecvTsnBlocks t).uiCumAck := by
  have hexact : Sctp.Exact (insert t S) (r.UpdateRecvTsnBlocks t).uiCumAck
      (r.UpdateRecvTsnBlocks t).sRecvTsnBlockList := updateBlocks_exact h.exact ht hS
  have hmono : r.uiCumAck ≤ (r.UpdateRecvTsnBlocks t).uiCumAck :=
    (updateBlocks_spec h.exact ht hS).le
  have hnn : 0 ≤ r.uiCumAck := h.nonneg
  have hacked : t ≤ r.uiCumAck + 1 → t ≤ (r.UpdateRecvTsnBlocks t).uiCumAck := by
    intro hle
    by_contra hlt
    have heq : t = (r.UpdateRecvTsnBlocks t).uiCumAck + 1 := by omega
    exact hexact.next (heq ▸ Set.mem_insert t S)
  refine ⟨⟨hexact, hnn.trans hmono, ?_, ?_, fun c hc => Or.inr (h.streamed_mem c hc), h.once⟩, hmono⟩
  · rintro n (rfl | hn)
    · exact ⟨ht, ht'⟩
    · exact h.pos n hn
  · rintro n (rfl | hn)
    · exact hle.imp id hacked
    · exact (h.below n hn).imp id fun hn : n ≤ r.uiCumAck => hn.trans hmono

/-! ## DATA chunks -/

/-- The window and the highest TSN once a chunk is taken. -/
def accept (r : Receiver) (c : DataChunk) : Receiver :=
  { r with
    uiHighestRecvTsn := max r.uiHighestRecvTsn c.uiTsn
    uiMyRwnd := r.uiMyRwnd - c.usLength }

/-- A chunk with a new TSN is taken. -/
theorem ProcessDataChunk_new (h : r.tsnState.Inv S) (hfit : r.Fits (.data c)) (hS : c.uiTsn ∉ S) :
    r.ProcessDataChunk c =
      (((r.accept c).UpdateRecvTsnBlocks c.uiTsn).PassToStream c).UpdateAllStreams := by
  rw [ProcessDataChunk, if_pos hfit.1, UpdateHighestTsn]
  by_cases hgt : c.uiTsn > r.uiHighestRecvTsn
  · rw [if_pos hgt, accept, max_eq_right hgt.le]
    rfl
  · have hdup : r.IsDuplicateChunk c.uiTsn ≠ true := mt (IsDuplicateChunk_iff h hfit.2.1).mp hS
    rw [if_neg hgt, accept, max_eq_left (not_lt.mp hgt)]
    simp [hdup]

/-- A chunk with a known TSN is noted as a duplicate. -/
theorem ProcessDataChunk_dup (h : r.tsnState.Inv S) (hfit : r.Fits (.data c)) (hS : c.uiTsn ∈ S)
    (hsafe : r.SafeStep (.data c)) :
    r.ProcessDataChunk c = { r.InsertDuplicateTsn c.uiTsn with eSackChunkNeeded := true } := by
  have hle : c.uiTsn ≤ r.uiHighestRecvTsn ∨ c.uiTsn ≤ r.uiCumAck := h.below _ hS
  have hgt : ¬ c.uiTsn > r.uiHighestRecvTsn := fun hgt => hsafe ⟨hgt, by omega⟩
  have hdup : r.IsDuplicateChunk c.uiTsn = true := (IsDuplicateChunk_iff h hfit.2.1).mpr hS
  rw [ProcessDataChunk, if_pos hfit.1, UpdateHighestTsn, if_neg hgt]
  simp [hdup]

theorem accept_inv (h : r.tsnState.Inv S) : (r.accept c).tsnState.Inv S where
  exact := h.exact
  nonneg := h.nonneg
  pos := h.pos
  below t ht := (h.below t ht).imp (fun hle => hle.trans (le_max_left _ _)) id
  streamed_mem := h.streamed_mem
  once := h.once

theorem PassToStream_inv (h : r.tsnState.Inv S) (hc : c.uiTsn ∈ S)
    (hnew : ∀ x ∈ r.streamed, x.uiTsn ≠ c.uiTsn) : (r.PassToStream c).tsnState.Inv S := by
  rw [tsnState_PassToStream]
  refine ⟨h.exact, h.nonneg, h.pos, h.below, fun x hx => ?_, ?_⟩
  · rcases List.mem_append.mp hx with hx | hx
    · exact h.streamed_mem x hx
    · exact List.mem_singleton.mp hx ▸ hc
  · show ((r.streamed ++ [c]).map DataChunk.uiTsn).Nodup
    rw [List.map_append, List.map_singleton, ← List.concat_eq_append]
    refine List.Nodup.concat (fun hmem => ?_) h.once
    obtain ⟨x, hx, heq⟩ := List.mem_map.mp hmem
    exact hnew x hx heq

theorem new_inv (h : r.tsnState.Inv S) (hfit : r.Fits (.data c)) (hS : c.uiTsn ∉ S) :
    (r.ProcessDataChunk c).tsnState.Inv (insert c.uiTsn S) := by
  rw [ProcessDataChunk_new h hfit hS, tsnState_UpdateAllStreams]
  have hacc : (r.accept c).tsnState.Inv S := accept_inv h
  have hblocks := (UpdateRecvTsnBlocks_inv hacc hfit.2.1 hfit.2.2 hS (Or.inl (le_max_right _ _))).1
  refine PassToStream_inv hblocks (Set.mem_insert _ _) fun x hx heq => hS ?_
  exact heq ▸ h.streamed_mem x hx

theorem data_inv (h : r.tsnState.Inv S) (hfit : r.Fits (.data c)) (hsafe : r.SafeStep (.data c)) :
    (r.ProcessDataChunk c).tsnState.Inv (insert c.uiTsn S) := by
  by_cases hS : c.uiTsn ∈ S
  · rw [ProcessDataChunk_dup h hfit hS hsafe, Set.insert_eq_of_mem hS]
    exact h
  · exact new_inv h hfit hS

/-! ## FORWARD TSN chunks -/

/-- The loop adds the TSNs that it goes through, as long as it follows the cumulative ack. -/
theorem forwardLoop_inv {k : ℕ} (h : r.tsnState.Inv S) (hn : 1 ≤ n) (hn' : n + k < 2 ^ 32)
    (hle : n ≤ r.uiCumAck + 1) (hi : i = n ∨ i = n - 2 ^ 32) :
    (forwardLoop k i r).tsnState.Inv (S ∪ Set.Ico n (n + k)) := by
  induction k generalizing r n i S with
  | zero => simpa [forwardLoop] using h
  | succ k ih =>
    have hmod : i % 2 ^ 32 = n := by omega
    have hset : insert n S ∪ Set.Ico (n + 1) (n + 1 + k) = S ∪ Set.Ico n (n + (k + 1 : ℕ)) := by
      rw [Set.insert_eq, Set.union_comm {n} S, Set.union_assoc]
      congr 1
      ext t
      simp only [Set.mem_union, Set.mem_singleton_iff, Set.mem_Ico]
      push_cast
      omega
    rw [forwardLoop, hmod, ← hset]
    have hstep : (if r.IsDuplicateChunk n = false then r.UpdateRecvTsnBlocks n
        else r).tsnState.Inv (insert n S) ∧ n + 1 ≤ (if r.IsDuplicateChunk n = false then
        r.UpdateRecvTsnBlocks n else r).uiCumAck + 1 := by
      by_cases hS : n ∈ S
      · have hdup := (IsDuplicateChunk_iff h hn).mpr hS
        have hacked : n ≤ r.uiCumAck := by
          by_contra hlt
          have heq : n = r.uiCumAck + 1 := by omega
          exact h.exact.next (heq ▸ hS)
        rw [if_neg (by simp [hdup]), Set.insert_eq_of_mem hS]
        exact ⟨h, by omega⟩
      · have hdup := mt (IsDuplicateChunk_iff h hn).mp hS
        rw [if_pos (by simpa using hdup)]
        have hnew := UpdateRecvTsnBlocks_inv h hn (by push_cast at hn'; omega) hS (Or.inr hle)
        refine ⟨hnew.1, ?_⟩
        by_contra hlt
        have heq : n = (r.UpdateRecvTsnBlocks n).uiCumAck + 1 := by
          have := hnew.2
          omega
        exact hnew.1.exact.next (heq ▸ Set.mem_insert n S)
    exact ih hstep.1 (by omega) (by push_cast at hn'; omega) hstep.2 (by omega)

theorem forward_inv (h : r.tsnState.Inv S) (hfit : r.Fits (.forward n))
    (hsafe : r.SafeStep (.forward n)) :
    ∃ r', r.ProcessForwardTsnChunk n = some r' ∧ r'.tsnState.Inv (S ∪ Set.Icc 1 n) := by
  have hnn : 0 ≤ r.uiCumAck := h.nonneg
  have hlt : r.uiCumAck + 1 < 2 ^ 32 := h.cumAck_lt
  obtain ⟨hmax, hsign⟩ := hsafe
  obtain ⟨hn, hn'⟩ := hfit
  have hint : toInt n ≠ 2 ^ 31 - 1 := by
    rw [toInt]
    split <;> omega
  rw [ProcessForwardTsnChunk, if_neg hint]
  refine ⟨_, rfl, ?_⟩
  rw [tsnState_UpdateAllStreams]
  -- the loop goes from behind the cumulative ack to `n`
  have hrounds : toInt n - toInt (r.uiCumAck + 1) + 1 = n - r.uiCumAck := by
    rw [toInt, toInt]
    split_ifs <;> omega
  have hi : toInt (r.uiCumAck + 1) = r.uiCumAck + 1 ∨
      toInt (r.uiCumAck + 1) = r.uiCumAck + 1 - 2 ^ 32 := by
    rw [toInt]
    split_ifs <;> omega
  have hloop := forwardLoop_inv (k := (n - r.uiCumAck).toNat) h (by omega) (by omega) le_rfl hi
  have hset : S ∪ Set.Ico (r.uiCumAck + 1) (r.uiCumAck + 1 + (n - r.uiCumAck).toNat) =
      S ∪ Set.Icc 1 n := by
    ext t
    have hacked : 1 ≤ t → t ≤ r.uiCumAck → t ∈ S := h.exact.acked t
    simp only [Set.mem_union, Set.mem_Ico, Set.mem_Icc]
    constructor
    · exact Or.imp id fun hin => by omega
    · rintro (hS | hin)
      · exact Or.inl hS
      · by_cases hle : t ≤ r.uiCumAck
        · exact Or.inl (hacked hin.1 hle)
        · exact Or.inr (by omega)
  rw [hrounds, ← hset]
  exact hloop

/-! ## Runs -/

theorem receive_inv (h : r.tsnState.Inv S) (hfit : r.Fits e) (hsafe : r.SafeStep e) :
    ∃ r', r.receive e = some r' ∧ r'.tsnState.Inv (S ∪ e.tsns) := by
  cases e with
  | data c => exact ⟨_, rfl, Set.union_singleton ▸ data_inv h hfit hsafe⟩
  | forward n => exact forward_inv h hfit hsafe

theorem run_inv (h : r.tsnState.Inv S) (hfit : r.Along Fits l) (hsafe : r.Along SafeStep l) :
    ∃ r', r.run l = some r' ∧ r'.tsnState.Inv (S ∪ known l) := by
  induction l generalizing r S with
  | nil => exact ⟨r, rfl, (Set.union_empty S).symm ▸ h⟩
  | cons e l ih =>
    obtain ⟨r₁, hr₁, h₁⟩ := receive_inv h hfit.1 hsafe.1
    obtain ⟨r', hr', h'⟩ := ih h₁ (hfit.2 r₁ hr₁) (hsafe.2 r₁ hr₁)
    refine ⟨r', ?_, ?_⟩
    · rw [run, hr₁]
      exact hr'
    · rw [known, ← Set.union_assoc]
      exact h'

/-- **The TSN state is exact after every chunk**, where no step is taken for a new one by mistake. -/
theorem tsnState_exact (w k : ℕ) (f : ℕ → StreamMode) (nr : Bool) (l : List Event)
    (hfit : (Receiver.init w k f nr).Along Fits l)
    (hsafe : (Receiver.init w k f nr).Along SafeStep l) :
    ∃ r', (Receiver.init w k f nr).run l = some r' ∧ r'.tsnState.Exact (known l) := by
  obtain ⟨r', hr', h'⟩ := run_inv TsnState.Inv.init hfit hsafe
  exact ⟨r', hr', (Set.empty_union (known l) ▸ h').toExact⟩

/-- A run in which every step is safe. -/
theorem tsnState_exact_skipped :
    ∃ r', (Receiver.init 100 1 (fun _ => .reliable) false).run
        [.data ⟨1, 10, 0, 0, false⟩, .forward 3, .data ⟨5, 10, 0, 1, false⟩] = some r' ∧
      r'.tsnState.Exact
        (known [.data ⟨1, 10, 0, 0, false⟩, .forward 3, .data ⟨5, 10, 0, 1, false⟩]) :=
  tsnState_exact 100 1 _ false _ (by decide) (by decide)

/-- A late copy of a TSN that was skipped, above the highest TSN received, is taken for a new one. -/
theorem not_exact_late :
    (Receiver.init 100 1 (fun _ => .reliable) false).Along Fits
        [.data ⟨1, 10, 0, 0, false⟩, .forward 3, .data ⟨3, 10, 0, 2, false⟩] ∧
      ¬ ∃ r', (Receiver.init 100 1 (fun _ => .reliable) false).run
          [.data ⟨1, 10, 0, 0, false⟩, .forward 3, .data ⟨3, 10, 0, 2, false⟩] = some r' ∧
        r'.tsnState.Exact
          (known [.data ⟨1, 10, 0, 0, false⟩, .forward 3, .data ⟨3, 10, 0, 2, false⟩]) := by
  refine ⟨by decide, ?_⟩
  rintro ⟨r', hr', h⟩
  cases hr'
  have hruns : tsns [⟨3, 3⟩] = _ ∩ Set.Ioi (3 : ℤ) := h.runs.tsns
  have hmem : (3 : ℤ) ∈ tsns [⟨3, 3⟩] := by simp [TsnBlock.stop]
  rw [hruns] at hmem
  exact lt_irrefl (3 : ℤ) hmem.2

end Receiver

end Ns2.Sctp
