import Ns2.Mptcp.Output

/-!
# What the application has asked for

`sendmsg` of the agent adds to what the application wants sent, `send_control` moves it
to the subflows.  Between the two counters nothing is lost as long as `sendmsg` finds
`total_bytes_` at zero; otherwise it overwrites what is left there.

* `requested` — the sum of the requests of a run.
* `Accounted` — `mcurseq_ - 1` and `total_bytes_` add up to it.
* `accounted_iff` — they do at every point of a run exactly when every request finds
  `total_bytes_` at zero.
-/

namespace Ns2.Mptcp

namespace MptcpAgent

/-- The bytes a step asks for. -/
def bytesOf : Action → ℤ
  | .sendmsg nbytes => nbytes
  | _ => 0

/-- The bytes the application has asked for. -/
def requested (l : List Action) : ℤ := (l.map bytesOf).sum

/-- The bytes assigned to subflows and the bytes not yet assigned are those asked for. -/
def Accounted (l : List Action) (s? : Option MptcpAgent) : Prop :=
  ∀ s ∈ s?, (s.mcurseq_ - 1) + s.total_bytes_ = requested l

/-- Nothing is left of earlier requests when the application makes one. -/
def Idle (s? : Option MptcpAgent) (a : Action) : Prop :=
  ∀ s ∈ s?, ∀ nbytes, a = .sendmsg nbytes → s.total_bytes_ = 0

/-- A request for a number of bytes. -/
def Finite (a : Action) : Prop := ∀ nbytes, a = .sendmsg nbytes → 0 ≤ nbytes

variable {s s' : MptcpAgent} {a : Action} {id : ℕ}

theorem onSubflow_counters {f : MpFullTcpAgent → Core → Option (MpFullTcpAgent × Core)}
    (h : s.onSubflow id f = some s') :
    s'.mcurseq_ = s.mcurseq_ ∧ s'.total_bytes_ = s.total_bytes_ ∧
      s'.infinite_send_ = s.infinite_send_ := by
  obtain ⟨r, -, rfl⟩ := Option.map_eq_some_iff.mp h
  exact ⟨rfl, rfl, rfl⟩

/-- A turn of `send_control` moves bytes from one counter to the other. -/
theorem assign_counters (hfin : s.infinite_send_ = false) (h : s.assign id = some s') :
    s'.mcurseq_ + s'.total_bytes_ = s.mcurseq_ + s.total_bytes_ ∧ s'.infinite_send_ = false := by
  unfold assign at h
  split at h
  · cases h
    exact ⟨rfl, hfin⟩
  · rename_i n hn
    obtain ⟨s₁, h1, rfl⟩ := Option.map_eq_some_iff.mp h
    obtain ⟨h2, h3, h4⟩ := onSubflow_counters h1
    rw [hfin] at h4
    refine ⟨?_, h4⟩
    show s₁.mcurseq_ + n + (if s₁.infinite_send_ then _ else s₁.total_bytes_ - n) = _
    rw [h4, if_neg Bool.false_ne_true, h2, h3]
    omega

/-- Every step but a request keeps the sum of the two counters. -/
theorem step_counters (hfin : s.infinite_send_ = false) (ha : ∀ nbytes, a ≠ .sendmsg nbytes)
    (h : s.step a = some s') :
    s'.mcurseq_ + s'.total_bytes_ = s.mcurseq_ + s.total_bytes_ ∧ s'.infinite_send_ = false := by
  cases a with
  | sendmsg nbytes => exact absurd rfl (ha nbytes)
  | sendControl id =>
    unfold MptcpAgent.step at h
    simp only at h
    split at h
    · exact assign_counters hfin h
    · cases h
      exact ⟨rfl, hfin⟩
  | subflow id o =>
    obtain ⟨h1, h2, h3⟩ := onSubflow_counters h
    exact ⟨by rw [h1, h2], h3.trans hfin⟩

/-- The invariant of a run: the account is right, and there is an end to the data. -/
def AccountedFinite (l : List Action) (s? : Option MptcpAgent) : Prop :=
  ∀ s ∈ s?, (s.mcurseq_ - 1) + s.total_bytes_ = requested l ∧ s.infinite_send_ = false

theorem requested_concat (l : List Action) (a : Action) :
    requested (l ++ [a]) = requested l + bytesOf a := by
  simp [requested]

/-- After a request the account is right if and only if nothing was left before it. -/
theorem request_accounted {nbytes : ℤ} (l : List Action) (hn : 0 ≤ nbytes)
    (h : (s.mcurseq_ - 1) + s.total_bytes_ = requested l) :
    s.total_bytes_ = 0 ↔ ((s.request nbytes).mcurseq_ - 1) + (s.request nbytes).total_bytes_
      = requested (l ++ [.sendmsg nbytes]) := by
  have hne : nbytes ≠ -1 := by omega
  unfold request
  rw [if_neg hne, requested_concat, bytesOf]
  simp only
  omega

/-- A step keeps the account right exactly when it is no request, or finds nothing left. -/
theorem exec_accounted {l : List Action} {s? : Option MptcpAgent} (ha : Finite a)
    (h : AccountedFinite l s?) : Idle s? a ↔ Accounted (l ++ [a]) (exec s? a) := by
  cases s? with
  | none => exact iff_of_true (by simp [Idle]) (by simp [Accounted, exec])
  | some s =>
    obtain ⟨hacc, hfin⟩ := h s rfl
    by_cases hreq : ∃ nbytes, a = .sendmsg nbytes
    · obtain ⟨nbytes, rfl⟩ := hreq
      have := request_accounted l (ha nbytes rfl) hacc
      constructor
      · intro hidle s' hs'
        cases hs'
        exact this.mp (hidle s rfl nbytes rfl)
      · intro hacc' s₁ hs₁ _ _
        cases hs₁
        exact this.mpr (hacc' _ rfl)
    · refine iff_of_true (fun s _ n hn => absurd ⟨n, hn⟩ hreq) ?_
      intro s' hs'
      obtain ⟨h1, -⟩ := step_counters hfin (fun n hn => hreq ⟨n, hn⟩) hs'
      have hzero : bytesOf a = 0 := by
        cases a with
        | sendmsg n => exact absurd ⟨n, rfl⟩ hreq
        | sendControl id => rfl
        | subflow id o => rfl
      rw [requested_concat, hzero]
      omega

theorem exec_finite {l : List Action} {s? : Option MptcpAgent} (ha : Finite a)
    (h : AccountedFinite l s?) (hidle : Idle s? a) : AccountedFinite (l ++ [a]) (exec s? a) := by
  intro s' hs'
  refine ⟨(exec_accounted ha h).mp hidle s' hs', ?_⟩
  obtain ⟨s, hs, hstep⟩ := Option.bind_eq_some_iff.mp hs'
  obtain ⟨-, hfin⟩ := h s hs
  by_cases hreq : ∃ nbytes, a = .sendmsg nbytes
  · obtain ⟨nbytes, rfl⟩ := hreq
    have hne : nbytes ≠ -1 := by
      have := ha nbytes rfl
      omega
    cases hstep
    unfold request
    rw [if_neg hne]
  · exact (step_counters hfin (fun n hn => hreq ⟨n, hn⟩) hstep).2

/-- **No requested byte is lost or invented, as long as requests do not overlap.**  At
every point of a run the bytes assigned to subflows and those not yet assigned add up to
the bytes requested, if and only if every request finds `total_bytes_` at zero. -/
theorem accounted_iff (sub_num_ : ℕ) (configs : ℕ → Config) (l : List Action)
    (hl : ∀ a ∈ l, Finite a) :
    (∀ p, p <+: l → Accounted p (p.foldl exec (some (new sub_num_ configs)))) ↔
      Run.AllSteps exec Idle (some (new sub_num_ configs)) l := by
  refine (Run.allSteps_iff_forall_prefix_of (P := Finite) (I := AccountedFinite)
    (G := Accounted) ?_ ?_ ?_ l [] _ hl ?_).symm
  · exact fun h s? hs s hs' => (hs s hs').1
  · exact fun h s? a ha hs => exec_accounted ha hs
  · exact fun h s? a ha hs hidle => exec_finite ha hs hidle
  · intro s hs
    cases hs
    exact ⟨rfl, rfl⟩

/-- One request on a connection with two subflows, of which one gets a segment, and a
second one when the first has been used up. -/
theorem accounted_iff_idle :
    (∀ p, p <+: [.sendmsg 536, .sendControl 0, .sendmsg 7] →
        Accounted p (p.foldl exec (some (new 2 fun _ => .default)))) ↔
      Run.AllSteps exec Idle (some (new 2 fun _ => .default))
        [.sendmsg 536, .sendControl 0, .sendmsg 7] :=
  accounted_iff 2 (fun _ => .default) [.sendmsg 536, .sendControl 0, .sendmsg 7] (by
    intro a ha nbytes heq
    subst heq
    simp at ha
    omega)

/-- A request for 100 bytes while bytes of the one before are not assigned. -/
theorem not_accounted_overlap :
    ¬ Accounted [.sendmsg 5000, .sendmsg 100]
      (((new 1 fun _ => .default).sendmsg 5000 fun _ => []).bind fun s =>
        s.sendmsg 100 fun _ => []) := by
  have hrun : ((((new 1 fun _ => .default).sendmsg 5000 fun _ => []).bind fun s =>
      s.sendmsg 100 fun _ => []).map fun s => (s.mcurseq_ - 1) + s.total_bytes_) = some 636 := by
    decide +kernel
  obtain ⟨s, hs, hsum⟩ := Option.map_eq_some_iff.mp hrun
  intro h
  have := h s hs
  rw [hsum] at this
  exact absurd this (by decide)

end MptcpAgent

end Ns2.Mptcp
