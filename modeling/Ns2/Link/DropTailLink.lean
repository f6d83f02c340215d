import Ns2.Link.Delivery
import Ns2.Queue.DropTailRun

/-!
# Links with a drop-tail queue

* `dropTail` — the discipline of `queue/drop-tail.cc`.
* `dropTail_lawful`, `dropTail_fifo` — it is lawful, and keeps the order unless it drops from the
  front; so what is known of links holds of links with this queue.
-/

namespace Ns2.Link

open Queue Queue.DropTail Queue.PacketQueue Simulation

variable {c : DropTail.Config} {size : ℕ → ℕ}

/-- The discipline of a drop-tail queue. -/
def dropTail (c : DropTail.Config) (size : ℕ → ℕ) : Discipline PacketQueue ℕ where
  enque q p := ((DropTail.enque c size q p).1, (DropTail.enque c size q p).2.toList)
  deque q := DropTail.deque size q

theorem dropTail_lawful (c : DropTail.Config) (size : ℕ → ℕ) :
    Lawful (dropTail c size) (Holds size) := by
  refine ⟨fun q xs p h hp => ?_, fun q xs p h hp => ?_, fun q xs h hn => ?_⟩
  · obtain ⟨q', ys, d, henque, hholds, harr⟩ := enque_arrival (c := c) h hp
    simp only [dropTail, henque]
    refine ⟨ys, hholds, ?_⟩
    cases harr with
    | kept => exact List.perm_append_singleton p xs
    | dropped => exact List.Perm.refl _
    | front _ _ hx =>
      rw [Option.toList_some, List.singleton_append, ← hx]
      exact List.perm_append_singleton p xs
  · simp only [dropTail, DropTail.deque] at hp ⊢
    cases xs with
    | nil =>
      rw [h.deque_nil] at hp
      cases hp
    | cons x t =>
      obtain ⟨q', hd, hholds⟩ := h.deque_cons
      rw [hd] at hp ⊢
      obtain rfl := Option.some.inj hp
      exact ⟨t, hholds, List.Perm.refl _⟩
  · simp only [dropTail, DropTail.deque] at hn ⊢
    cases xs with
    | nil =>
      rw [h.deque_nil]
      exact ⟨rfl, h⟩
    | cons x t =>
      obtain ⟨q', hd, -⟩ := h.deque_cons
      rw [hd] at hn
      cases hn

theorem dropTail_fifo (hf : c.drop_front_ = false) : Fifo (dropTail c size) (Holds size) := by
  refine ⟨fun q xs p h hp => ?_, fun q xs p h => ?_, fun q h => ?_⟩
  · obtain ⟨q', ys, d, henque, hholds, harr⟩ := enque_arrival (c := c) h hp
    simp only [dropTail, henque]
    cases harr with
    | kept => exact .inl ⟨hholds, rfl⟩
    | dropped => exact .inr ⟨hholds, rfl⟩
    | front _ hf' _ => exact absurd (hf.symm.trans hf') (by simp)
  · obtain ⟨q', hd, hholds⟩ := h.deque_cons
    simp only [dropTail, DropTail.deque, hd]
    exact ⟨trivial, hholds⟩
  · simp only [dropTail, DropTail.deque, h.deque_nil]
    exact ⟨trivial, h⟩

/-! ## A link of 8000 bits per second -/

/-- A link with room for two packets besides the one that is transmitted. -/
def smallLink (dynamic_ avoidReordering_ : Bool) : Config PacketQueue ℕ where
  discipline := dropTail ⟨3, 1000, false, false⟩ fun _ => 1000
  size := fun _ => 1000
  unblock_on_resume_ := true
  dynamic_ := dynamic_
  avoidReordering_ := avoidReordering_

/-- Four packets, while the bandwidth goes up and the delay down. -/
def fasterCalls : List (Input ℕ) :=
  [.recv 1, .advance (1 / 2), .recv 2, .recv 3, .recv 4, .setBandwidth 80000, .setDelay 1,
    .dispatch, .dispatch, .dispatch, .dispatch]

theorem link_conserves_faster :
    ∃ s reports xs, run (SimpleLink.step (smallLink false false))
        (SimpleLink.new (.empty fun _ => none) 8000 10) fasterCalls = some (s, reports) ∧
      Holds (fun _ => 1000) s.queue xs ∧
      (reports.flatMap Report.dropped ++ reports.filterMap Report.delivered ++ s.transit ++ xs).Perm
        (fasterCalls.filterMap Input.packet) ∧
      (s.blocked_ = true ↔ none ∈ s.events.map Due.packet) ∧ (s.blocked_ = false → xs = []) :=
  link_conserves (dropTail_lawful _ _) rfl rfl (holds_empty _) (by norm_num) (by norm_num) fasterCalls
    (by simp [fasterCalls, Input.Legal]) (by decide : [1, 2, 3, 4].Nodup)

theorem link_keeps_order_faster :
    ∃ s reports, run (SimpleLink.step (smallLink false true))
        (SimpleLink.new (.empty fun _ => none) 8000 10) fasterCalls = some (s, reports) ∧
      (reports.filterMap Report.delivered ++ s.transit).Sublist (reports.filterMap Report.started) :=
  link_keeps_order (dropTail_lawful _ _) (holds_empty _) (by norm_num) (by norm_num) fasterCalls
    (by simp [fasterCalls, Input.Legal]) (by decide : [1, 2, 3, 4].Nodup) (.inl ⟨rfl, rfl⟩)

/-- A dynamic link whose delay is lowered fails its assertion. -/
example : (run (SimpleLink.step (smallLink true false))
    (SimpleLink.new (.empty fun _ => none) 8000 10) fasterCalls).isNone := by
  decide +kernel

/-- Four packets; the last one finds no room. -/
def steadyCalls : List (Input ℕ) :=
  [.recv 1, .advance (1 / 2), .recv 2, .recv 3, .recv 4, .dispatch, .dispatch, .dispatch, .dispatch,
    .dispatch, .dispatch]

theorem link_delivers_steady :
    ∃ l s, steadyCalls.foldlM (track (smallLink false false))
        ({}, SimpleLink.new (.empty fun _ => none) 8000 10) = some (l, s) ∧
      l.delivered <+: deliveries (smallLink false false) 8000 10 l.accepted ∧
      ∀ x ∈ deliveries (smallLink false false) 8000 10 l.accepted, x.2 < s.clock_ → x ∈ l.delivered :=
  link_delivers (dropTail_fifo rfl) rfl (holds_empty _) (by norm_num) (by norm_num) steadyCalls
    (by simp [steadyCalls, Input.Steady]) (by decide : [1, 2, 3, 4].Nodup)

/-- The transmissions take a second each. -/
example : (steadyCalls.foldlM (track (smallLink false false))
    ({}, SimpleLink.new (.empty fun _ => none) 8000 10)).map (fun r => (r.1.accepted, r.1.delivered)) =
      some ([(1, 0), (2, 1 / 2), (3, 1 / 2)], [(1, 11), (2, 12), (3, 13)]) := by
  decide +kernel

end Ns2.Link
