import Ns2.Tcp.TcpSender

/-!
# At most one reaction to marks in a window

What decides whether a sender reacts to a mark: `recover_`, `maxseq_` and the last action.

* `OncePerWindow` — between two reactions without a timeout the acknowledgments have passed
  what had been sent at the first.
* `Guard.Ok` — the invariant: what had been sent at a reaction since the last timeout is below
  `recover_`.
* `Guard.Later` — what every other part of a sender may do.
* `Ok.later`, `Ok.ecn`, `Ok.timeout` — the three kinds of steps keep the invariant.
-/

namespace Ns2.Tcp

/-- Between two reactions with no timeout between them, the acknowledgment has passed what had
been sent at the first. -/
def OncePerWindow (cuts : List WindowCut) : Prop :=
  ∀ A B C s m s' m', cuts = A ++ .ecn s m :: B ++ .ecn s' m' :: C → WindowCut.timeout ∉ B → m < s'

/-- What decides whether a sender reacts to a mark. -/
structure Guard where
  /-- `recover_`. -/
  recover : ℤ
  /-- `maxseq_`. -/
  maxseq : ℤ
  /-- The last action was that of a timeout. -/
  timedOut : Bool
  /-- State of F-RTO. -/
  frto : ℤ
  /-- The reactions, and the timeouts. -/
  cuts : List WindowCut

namespace Guard

variable {g g' g'' : Guard}

/-- The invariant. -/
structure Ok (g : Guard) : Prop where
  /-- The reactions so far were far enough apart. -/
  once : OncePerWindow g.cuts
  /-- What had been sent at a reaction since the last timeout is below `recover`. -/
  pending : ∀ A B s m, g.cuts = A ++ .ecn s m :: B → WindowCut.timeout ∉ B →
    m ≤ g.recover ∧ m ≤ g.maxseq ∧ g.timedOut = false

/-- A step without a reaction: `recover` is not lowered, but for a value of `maxseq`, unless
the last action was that of a timeout. -/
structure Later (g g' : Guard) : Prop where
  /-- No reaction. -/
  cuts : g'.cuts = g.cuts
  /-- Nothing is taken back. -/
  maxseq_le : g.maxseq ≤ g'.maxseq
  /-- `recover` is not lowered. -/
  recover_le : g.recover ≤ g'.recover ∨ g.maxseq ≤ g'.recover ∨ g.timedOut = true
  /-- No timeout. -/
  timedOut : g'.timedOut = true → g.timedOut = true

theorem Later.refl (g : Guard) : Later g g := ⟨rfl, le_rfl, Or.inl le_rfl, id⟩

theorem later_of_eq (h : g' = g) : Later g g' := h ▸ Later.refl g

theorem Later.trans (h : Later g g') (h' : Later g' g'') : Later g g'' where
  cuts := h'.cuts.trans h.cuts
  maxseq_le := h.maxseq_le.trans h'.maxseq_le
  recover_le := by
    rcases h'.recover_le with hrec | hmax | hto
    · rcases h.recover_le with hrec' | hmax' | hto'
      · exact Or.inl (hrec'.trans hrec)
      · exact Or.inr (Or.inl (hmax'.trans hrec))
      · exact Or.inr (Or.inr hto')
    · exact Or.inr (Or.inl (h.maxseq_le.trans hmax))
    · exact Or.inr (Or.inr (h.timedOut hto))
  timedOut := h.timedOut ∘ h'.timedOut

/-- The reaction to a mark. -/
def react (g : Guard) (seqno : ℤ) : Guard where
  recover := g.maxseq
  maxseq := g.maxseq
  timedOut := false
  frto := g.frto
  cuts := g.cuts ++ [.ecn seqno g.maxseq]

/-- A list that ends with a given entry, split at an entry. -/
theorem split_concat {cuts A B : List WindowCut} {c d : WindowCut}
    (h : cuts ++ [c] = A ++ d :: B) :
    (B = [] ∧ cuts = A ∧ c = d) ∨ ∃ B', B = B' ++ [c] ∧ cuts = A ++ d :: B' := by
  rcases List.eq_nil_or_concat B with rfl | ⟨B', b, rfl⟩
  · obtain ⟨hcuts, hc⟩ := List.append_inj' h rfl
    exact Or.inl ⟨rfl, hcuts, (List.cons.inj hc).1⟩
  · right
    have hsplit : cuts ++ [c] = (A ++ d :: B') ++ [b] := by simpa using h
    obtain ⟨hcuts, hc⟩ := List.append_inj' hsplit rfl
    exact ⟨B', by rw [(List.cons.inj hc).1, List.concat_eq_append], hcuts⟩

/-- A step without a reaction keeps the invariant. -/
theorem Ok.later (h : Ok g) (hl : Later g g') : Ok g' where
  once := hl.cuts ▸ h.once
  pending A B s m heq hB := by
    obtain ⟨hrec, hmax, hto⟩ := h.pending A B s m (hl.cuts ▸ heq) hB
    refine ⟨?_, hmax.trans hl.maxseq_le, ?_⟩
    · rcases hl.recover_le with h1 | h1 | h1
      · exact hrec.trans h1
      · exact hmax.trans h1
      · rw [hto] at h1
        cases h1
    · by_contra htrue
      rw [hl.timedOut (by simpa using htrue)] at hto
      cases hto

/-- A reaction keeps the invariant. -/
theorem Ok.ecn (h : Ok g) {seqno : ℤ} (hreact : seqno > g.recover ∨ g.timedOut = true) :
    Ok (g.react seqno) where
  once A B C s m s' m' heq hB := by
    rcases split_concat (A := A ++ .ecn s m :: B) heq with ⟨-, hcuts, hc⟩ | ⟨C', -, hcuts⟩
    · obtain ⟨hrec, -, hto⟩ := h.pending A B s m hcuts hB
      cases hc
      rcases hreact with hgt | htrue
      · omega
      · rw [hto] at htrue
        cases htrue
    · exact h.once A B C' s m s' m' hcuts hB
  pending A B s m heq hB := by
    rcases split_concat heq with ⟨-, -, hc⟩ | ⟨B', rfl, hcuts⟩
    · cases hc
      exact ⟨le_rfl, le_rfl, rfl⟩
    · obtain ⟨-, hmax, -⟩ := h.pending A B' s m hcuts fun hmem => hB (List.mem_append_left _ hmem)
      exact ⟨hmax, hmax, rfl⟩

/-- A timeout keeps the invariant. -/
theorem Ok.timeout (h : Ok g) (hcuts : g'.cuts = g.cuts ++ [.timeout]) : Ok g' where
  once A B C s m s' m' heq hB := by
    rw [hcuts] at heq
    rcases split_concat (A := A ++ .ecn s m :: B) heq with ⟨-, -, hc⟩ | ⟨C', -, hcuts'⟩
    · cases hc
    · exact h.once A B C' s m s' m' hcuts' hB
  pending A B s m heq hB := by
    rw [hcuts] at heq
    rcases split_concat heq with ⟨-, -, hc⟩ | ⟨B', rfl, -⟩
    · cases hc
    · exact absurd (List.mem_append_right _ (List.mem_singleton_self _)) hB

/-- At the start of a connection there was no reaction. -/
theorem ok_of_nil (h : g.cuts = []) : Ok g where
  once A B C s m s' m' heq := by
    rw [h] at heq
    exact absurd heq.symm (by simp)
  pending A B s m heq := by
    rw [h] at heq
    exact absurd heq.symm (by simp)

end Guard

/-! ## What all senders share -/

namespace TcpSender

open Guard

variable {a : TcpSender}

/-- What decides whether the sender reacts to a mark. -/
def guard (a : TcpSender) : Guard where
  recover := a.recover_
  maxseq := a.maxseq_
  timedOut := a.last_cwnd_action_ = .timeout
  frto := a.frto_
  cuts := a.cuts

/-- Another sender with the same fields. -/
theorem guard_congr {b : TcpSender} (hrec : b.recover_ = a.recover_) (hmax : b.maxseq_ = a.maxseq_)
    (hact : b.last_cwnd_action_ = a.last_cwnd_action_) (hfrto : b.frto_ = a.frto_)
    (hcuts : b.cuts = a.cuts) : b.guard = a.guard := by
  unfold guard
  rw [hrec, hmax, hact, hfrto, hcuts]

@[simp] theorem guard_slowdown (a : TcpSender) (how : ℕ) : (a.slowdown how).guard = a.guard := by
  have hstore : a.toDctcpSender.storeDecrease.recover_ = a.recover_ ∧
      a.toDctcpSender.storeDecrease.maxseq_ = a.maxseq_ ∧
      a.toDctcpSender.storeDecrease.last_cwnd_action_ = a.last_cwnd_action_ ∧
      a.toDctcpSender.storeDecrease.frto_ = a.frto_ := by
    unfold DctcpSender.storeDecrease
    split
    · exact ⟨rfl, rfl, rfl, rfl⟩
    · exact ⟨rfl, rfl, rfl, rfl⟩
  exact guard_congr hstore.1 hstore.2.1 hstore.2.2.1 hstore.2.2.2 rfl

@[simp] theorem guard_capped (a : TcpSender) : a.capped.guard = a.guard := by
  unfold capped
  split <;> rfl

theorem guard_accumulate (a : TcpSender) (f : ℚ) : (a.accumulate f).guard = a.guard := by
  unfold accumulate
  split <;> rfl

theorem guard_linear {b : TcpSender} (h : a.linear = some b) : b.guard = a.guard := by
  unfold linear at h
  split at h
  all_goals cases h
  · split <;> rfl
  · rfl
  · exact guard_accumulate a _
  · exact guard_accumulate a _
  · exact guard_accumulate a _
  · exact guard_accumulate a _
  · rfl
  · rfl

theorem guard_opencwnd {b : TcpSender} (h : a.opencwnd = some b) : b.guard = a.guard := by
  unfold opencwnd at h
  obtain ⟨c, hc, rfl⟩ := Option.map_eq_some_iff.mp h
  rw [guard_capped]
  split at hc
  · cases hc
    rfl
  · exact guard_linear hc

@[simp] theorem guard_rttUpdate (a : TcpSender) (ticks : ℤ) : (a.rttUpdate ticks).guard = a.guard := by
  unfold rttUpdate
  simp only
  split <;> rfl

@[simp] theorem guard_rttBackoff (a : TcpSender) : a.rttBackoff.guard = a.guard := by
  unfold rttBackoff
  simp only
  split <;> split <;> rfl

/-- What `ecn` of the base class does when it reacts. -/
theorem ecn_fields (b : DctcpSender) (seqno : ℤ)
    (h : seqno > b.recover_ ∨ b.last_cwnd_action_ = .timeout) :
    (b.ecn seqno).recover_ = b.maxseq_ ∧ (b.ecn seqno).maxseq_ = b.maxseq_ ∧
      (b.ecn seqno).last_cwnd_action_ = .ecn ∧ (b.ecn seqno).frto_ = b.frto_ := by
  unfold DctcpSender.ecn
  rw [if_pos h]
  simp only [DctcpSender.slowdown, DctcpSender.storeDecrease]
  split <;> dsimp only <;> split <;> exact ⟨rfl, rfl, rfl, rfl⟩

/-- `ecn` reacts, or does nothing. -/
theorem guard_ecn (a : TcpSender) (seqno : ℤ) :
    (a.ecn seqno).guard = if a.reacts seqno then a.guard.react seqno else a.guard := by
  unfold ecn
  split
  · rename_i hreact
    obtain ⟨b, hb, hguard⟩ : ∃ b, b = (if a.cwnd_ ≤ 1 ∧ a.ecn_backoff_ then a.rttBackoff else a) ∧
        b.guard = a.guard := by
      refine ⟨_, rfl, ?_⟩
      split
      · exact guard_rttBackoff a
      · rfl
    simp only [← hb]
    have hrec : b.recover_ = a.recover_ := congrArg Guard.recover hguard
    have hmax : b.maxseq_ = a.maxseq_ := congrArg Guard.maxseq hguard
    have hact : (b.last_cwnd_action_ = .timeout) = (a.last_cwnd_action_ = .timeout) :=
      propext (decide_eq_decide.mp (congrArg Guard.timedOut hguard))
    have hfrto : b.frto_ = a.frto_ := congrArg Guard.frto hguard
    obtain ⟨h1, h2, h3, h4⟩ := ecn_fields b.toDctcpSender seqno (by
      rw [hrec, hact]
      exact hreact)
    unfold guard react
    simp only [h1, h2, h3, h4, hmax, hfrto]
    rfl
  · rfl

/-- `ecn` keeps the invariant. -/
theorem Ok.guard_ecn (h : a.guard.Ok) (seqno : ℤ) : (a.ecn seqno).guard.Ok := by
  rw [TcpSender.guard_ecn]
  split
  · rename_i hreact
    exact h.ecn (hreact.imp_right fun hto => by simpa [guard] using hto)
  · exact h

end TcpSender

end Ns2.Tcp
