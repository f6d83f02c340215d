import Ns2.Linux.ScoreBoardUpdate

/-!
# Runs of the scoreboard

* `ScoreBoardOp`, `exec`, `run` — the operations, and runs of them from a new scoreboard.
* `Legal` — the acknowledgments do not decrease, and the SACK blocks are not empty and are above
  them.
* `Sent` — the SACK blocks are of packets that were sent.
* `run_spec` — a legal run returns, and keeps the invariant.
* `run_exact` — the counters are exact, and so is `packets_in_flight`.
-/

namespace Ns2.Linux

open Tiling ScoreBoardNode1

/-- The operations. -/
inductive ScoreBoardOp where
  /-- `UpdateScoreBoard`. -/
  | update (last_ack : ℤ) (sacks : List (ℤ × ℤ)) (dupack_threshold : ℤ)
  /-- `MarkLoss`. -/
  | markLoss (snd_una snd_nxt : ℕ)
  /-- `MarkRetran` of the packet that `GetNextRetran` returns, if there is one. -/
  | markRetran (snd_nxt : ℤ)
  /-- `ClearScoreBoard`. -/
  | clear

/-- The acknowledgments do not decrease, and the SACK blocks are not empty and are above them. -/
def Legal : ℤ → List ScoreBoardOp → Prop
  | _, [] => True
  | last, .update last_ack sacks _ :: ops =>
    last ≤ last_ack ∧ Proper last_ack sacks ∧ Legal last_ack ops
  | last, _ :: ops => Legal last ops

/-- The last acknowledgment. -/
def lastAck : ℤ → List ScoreBoardOp → ℤ
  | last, [] => last
  | _, .update last_ack _ _ :: ops => lastAck last_ack ops
  | last, _ :: ops => lastAck last ops

/-- Only packets below `snd_nxt` are acknowledged or reported, and `MarkLoss` is called for packets
that are not acknowledged yet. -/
def Sent (snd_nxt : ℤ) : ℤ → List ScoreBoardOp → Prop
  | _, [] => True
  | _, .update last_ack sacks _ :: ops =>
    last_ack < snd_nxt ∧ (∀ b ∈ sacks, b.2 ≤ snd_nxt) ∧ Sent snd_nxt last_ack ops
  | last, .markLoss una nxt :: ops => last < una ∧ nxt ≤ snd_nxt ∧ Sent snd_nxt last ops
  | last, _ :: ops => Sent snd_nxt last ops

namespace ScoreBoard1

/-- One operation. -/
def exec (s : ScoreBoard1) : ScoreBoardOp → Option ScoreBoard1
  | .update last_ack sacks dupack_threshold =>
    (s.updateScoreBoard last_ack sacks dupack_threshold).map Prod.fst
  | .markLoss snd_una snd_nxt => s.markLoss snd_una snd_nxt
  | .markRetran snd_nxt =>
    if s.getNextRetran.2 = -1 then some s.getNextRetran.1
    else s.getNextRetran.1.markRetran s.getNextRetran.2 snd_nxt
  | .clear => some s.clearScoreBoard

/-- The operations, one after the other. -/
def run (s : ScoreBoard1) : List ScoreBoardOp → Option ScoreBoard1
  | [] => some s
  | op :: ops => (s.exec op).bind fun s => s.run ops

/-- The packets in nodes with a flag. -/
noncomputable def packets (s : ScoreBoard1) (f : SkbFlag) : Finset ℤ :=
  cells getStart getEnd (fun n => n.flag_ = f) s.nodes

variable {s s' : ScoreBoard1} {lo hi last snd_nxt : ℤ} {ops : List ScoreBoardOp}

/-- The nodes are above `last` and below `snd_nxt`, and so is the furthest packet in a SACK
block. -/
structure Inside (last snd_nxt lo hi : ℤ) (s : ScoreBoard1) : Prop where
  /-- No packet is acknowledged. -/
  lt : s.nodes ≠ [] → last < lo
  /-- All packets were sent. -/
  le : s.nodes ≠ [] → hi ≤ snd_nxt
  /-- The same for `fack_`. -/
  fack : s.fack_ < snd_nxt

/-- A legal run returns, and keeps the invariant. -/
theorem run_spec (snd_nxt : ℤ) (ops : List ScoreBoardOp) (h : Settled lo hi s) (hlegal : Legal last ops) :
    ∃ s' lo' hi', s.run ops = some s' ∧ Settled lo' hi' s' ∧
      (0 < snd_nxt → Sent snd_nxt last ops → Inside last snd_nxt lo hi s →
        Inside (lastAck last ops) snd_nxt lo' hi' s') := by
  induction ops generalizing last lo hi s with
  | nil => exact ⟨s, lo, hi, rfl, h, fun _ _ hin => hin⟩
  | cons op ops ih =>
    cases op with
    | update last_ack sacks thr =>
      obtain ⟨-, hproper, hlegal'⟩ := hlegal
      obtain ⟨s₁, flag, lo₁, hi₁, hupdate, h₁, hlt, htop⟩ := updateScoreBoard_spec h hproper thr
      obtain ⟨s', lo', hi', hrun, h', hin⟩ := ih h₁ hlegal'
      refine ⟨s', lo', hi', ?_, h', fun hpos hsent hinside => ?_⟩
      · rw [run, exec, hupdate, Option.map_some, Option.bind_some]
        exact hrun
      · obtain ⟨-, hblocks, hsent'⟩ := hsent
        obtain ⟨hle, hfack⟩ := htop snd_nxt hpos hinside.le hinside.fack hblocks
        exact hin hpos hsent' ⟨hlt, hle, hfack⟩
    | markLoss una nxt =>
      obtain ⟨s₁, lo₁, hi₁, hmark, h₁, -, hlt, htop⟩ := markLoss_spec h una nxt
      obtain ⟨s', lo', hi', hrun, h', hin⟩ := ih h₁ hlegal
      refine ⟨s', lo', hi', ?_, h', fun hpos hsent hinside => ?_⟩
      · rw [run, exec, hmark, Option.bind_some]
        exact hrun
      · obtain ⟨huna, hnxt, hsent'⟩ := hsent
        obtain ⟨hle, hfack⟩ := htop snd_nxt hinside.le hinside.fack hnxt
        exact hin hpos hsent' ⟨hlt last hinside.lt huna, hle, hfack⟩
    | markRetran nxt =>
      by_cases hnone : s.getNextRetran.2 = -1
      · obtain ⟨s', lo', hi', hrun, h', hin⟩ := ih (settled_getNextRetran h) hlegal
        refine ⟨s', lo', hi', ?_, h', fun hpos hsent hinside => ?_⟩
        · rw [run, exec, if_pos hnone, Option.bind_some]
          exact hrun
        · exact hin hpos hsent ⟨hinside.lt, hinside.le, hinside.fack⟩
      · obtain ⟨s₁, hmark, h₁, -, hne, hfack⟩ := markRetran_spec h hnone nxt
        obtain ⟨s', lo', hi', hrun, h', hin⟩ := ih h₁ hlegal
        refine ⟨s', lo', hi', ?_, h', fun hpos hsent hinside => ?_⟩
        · rw [run, exec, if_neg hnone, hmark, Option.bind_some]
          exact hrun
        · exact hin hpos hsent
            ⟨fun _ => hinside.lt hne, fun _ => hinside.le hne, hfack ▸ hinside.fack⟩
    | clear =>
      obtain ⟨s', lo', hi', hrun, h', hin⟩ := ih (settled_clear s lo) hlegal
      refine ⟨s', lo', hi', ?_, h', fun hpos hsent hinside => ?_⟩
      · rw [run, exec, Option.bind_some]
        exact hrun
      · exact hin hpos hsent ⟨fun hne => absurd rfl hne, fun hne => absurd rfl hne, hpos⟩

theorem Exact.card_packets (h : Exact lo hi s) (f : SkbFlag) :
    ((s.packets f).card : ℤ) = count f s.nodes := h.tiled.card_cells

/-- A packet is in one node only. -/
theorem Exact.disjoint (h : Exact lo hi s) : Disjoint (s.packets .sacked) (s.packets .lost) := by
  refine Finset.disjoint_left.mpr fun p hp hp' => ?_
  obtain ⟨n, hn, hflag, hlo, hhi⟩ := mem_cells.mp hp
  obtain ⟨m, hm, hflag', hlo', hhi'⟩ := mem_cells.mp hp'
  obtain rfl := h.tiled.eq_of_mem hn hm hlo hhi hlo' hhi'
  simp only [decide_eq_true_eq] at hflag hflag'
  rw [hflag] at hflag'
  cases hflag'

/-- The packets of the scoreboard are between the bounds. -/
theorem Inside.packets_subset (hin : Inside last snd_nxt lo hi s) (h : Exact lo hi s) (f : SkbFlag) :
    s.packets f ⊆ Finset.Ico (last + 1) snd_nxt := by
  intro p hp
  obtain ⟨n, hn, -, -, -⟩ := mem_cells.mp hp
  have hne : s.nodes ≠ [] := List.ne_nil_of_mem hn
  have hbounds := Finset.mem_Ico.mp (h.tiled.cells_subset hp)
  have hlt := hin.lt hne
  have hle := hin.le hne
  exact Finset.mem_Ico.mpr ⟨by omega, by omega⟩

theorem lastAck_lt (h : last < snd_nxt) (hsent : Sent snd_nxt last ops) :
    lastAck last ops < snd_nxt := by
  induction ops generalizing last with
  | nil => exact h
  | cons op ops ih =>
    cases op with
    | update last_ack sacks thr => exact ih hsent.1 hsent.2.2
    | markLoss una nxt => exact ih h hsent.2.2
    | markRetran nxt => exact ih h hsent
    | clear => exact ih h hsent

/-- **The counters are exact.**  Whatever operations are performed, with acknowledgments that do
not decrease and SACK blocks above them: none of them fails; the nodes are not empty, and each
begins where the one before it ends; `sack_out_` and `fack_out_` are the numbers of packets in the
nodes flagged so.  If packets below `snd_nxt` were sent, and no others reported, then
`packets_in_flight` is the number of packets sent that are neither acknowledged nor lost. -/
theorem run_exact (ops : List ScoreBoardOp) (hlegal : Legal (-1) ops) :
    ∃ s, new.run ops = some s ∧
      (∃ lo hi, Tiles getStart getEnd lo s.nodes hi) ∧
      s.sack_out_ = (s.packets .sacked).card ∧
      s.fack_out_ = (s.packets .lost).card ∧
      ∀ snd_nxt, 0 < snd_nxt → Sent snd_nxt (-1) ops →
        s.packetsInFlight (lastAck (-1) ops + 1) snd_nxt =
          (Finset.Ico (lastAck (-1) ops + 1) snd_nxt \ (s.packets .sacked ∪ s.packets .lost)).card := by
  obtain ⟨s, lo, hi, hrun, hs, -⟩ := run_spec 1 ops (settled_new 0) hlegal
  have hsack := hs.sack_out.trans (hs.card_packets .sacked).symm
  have hfack := hs.fack_out.trans (hs.card_packets .lost).symm
  refine ⟨s, hrun, ⟨lo, hi, hs.tiled⟩, hsack, hfack, fun snd_nxt hpos hsent => ?_⟩
  obtain ⟨s', lo', hi', hrun', hs', hin⟩ := run_spec snd_nxt ops (settled_new 0) hlegal
  obtain rfl : s' = s := Option.some.inj (hrun'.symm.trans hrun)
  have hinside := hin hpos hsent
    ⟨fun hne => absurd rfl hne, fun hne => absurd rfl hne, hpos⟩
  have hlast := lastAck_lt (show -1 < snd_nxt by omega) hsent
  have hsub : s'.packets .sacked ∪ s'.packets .lost ⊆
      Finset.Ico (lastAck (-1) ops + 1) snd_nxt :=
    Finset.union_subset (hinside.packets_subset hs'.toExact _) (hinside.packets_subset hs'.toExact _)
  have hcard := Finset.card_sdiff_add_card_eq_card hsub
  rw [Finset.card_union_of_disjoint hs'.disjoint, Int.card_Ico] at hcard
  rw [packetsInFlight, hsack, hfack]
  omega

/-- Three packets are reported, one of the two before them is lost and retransmitted. -/
theorem run_exact_three :
    ∃ s, new.run [.update 0 [(3, 6)] 3, .markRetran 8] = some s ∧
      (∃ lo hi, Tiles getStart getEnd lo s.nodes hi) ∧
      s.sack_out_ = (s.packets .sacked).card ∧
      s.fack_out_ = (s.packets .lost).card ∧
      ∀ snd_nxt, 0 < snd_nxt → Sent snd_nxt (-1) [.update 0 [(3, 6)] 3, .markRetran 8] →
        s.packetsInFlight (0 + 1) snd_nxt =
          (Finset.Ico (0 + 1) snd_nxt \ (s.packets .sacked ∪ s.packets .lost)).card :=
  run_exact [.update 0 [(3, 6)] 3, .markRetran 8]
    ⟨by decide, by simp [Proper], trivial⟩

end ScoreBoard1

end Ns2.Linux
