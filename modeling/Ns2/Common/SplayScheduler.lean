import Ns2.Common.Requests
import Ns2.Lib.InOrder

/-!
# The splay tree scheduler

`SplayScheduler` of `common/splay-scheduler.cc`.  `LEFT` and `RIGHT` of an event are the
two children of its node.  The variables `l` and `r` of `insert` point to the places
where the rest of the two trees is to be linked in; here the loop returns the two trees,
and each round links in what the rounds after it return.

* `SplayScheduler.insert`, `deque`, `head`, `cancel` — the source functions.
* `SplayScheduler.serve` — one request.
* `SplayRefines` — the tree, from left to right, is the queue of the list scheduler.
* `splay_refines` — the splay tree does what the list does, in every run.
-/

namespace Ns2.Common

open BinaryTree Stable

/-- A `SplayScheduler`. -/
structure SplayScheduler where
  /-- Root of the tree. -/
  root_ : BinaryTree Event
  /-- Number of events in it. -/
  qsize_ : ℤ

namespace SplayScheduler

/-- The constructor. -/
def new : SplayScheduler := ⟨nil, 0⟩

/-- The loop of `insert`: the tree of the events up to `time`, and that of those after
it. -/
def splitLoop (time : ℚ) : BinaryTree Event → BinaryTree Event × BinaryTree Event
  | nil => (nil, nil)
  | node t l r =>
    if time < t.time_ then
      let s := splitLoop time l
      match l with
      | nil => (nil, node t nil r)
      | node x xl xr =>
        if time < x.time_ then
          -- `ROTATE_RIGHT(t, x)` before `LINK_RIGHT(r, t)`
          let s := splitLoop time xl
          (s.1, node x s.2 (node t xr r))
        else (s.1, node t s.2 r)
    else
      let s := splitLoop time r
      match r with
      | nil => (node t l nil, nil)
      | node x xl xr =>
        if time ≥ x.time_ then
          -- `ROTATE_LEFT(t, x)` before `LINK_LEFT(l, t)`
          let s := splitLoop time xr
          (node x (node t l xl) s.1, s.2)
        else (node t l s.1, s.2)
termination_by structural t => t

/-- `insert`: the new event becomes the root. -/
def insert (c : SplayScheduler) (n : Event) : SplayScheduler :=
  { root_ :=
      match c.root_ with
      | nil => node n nil nil
      | t => node n (splitLoop n.time_ t).1 (splitLoop n.time_ t).2
    qsize_ := c.qsize_ + 1 }

/-- `head`: the leftmost event. -/
def head (c : SplayScheduler) : Option Event :=
  leftmost c.root_
where
  /-- The loop of `head`. -/
  leftmost : BinaryTree Event → Option Event
    | nil => none
    | node t nil _ => some t
    | node _ l _ => leftmost l

/-- The loop of `deque`, for the node `t` with the children `l` and `r`: what is left of
it, and the leftmost event. -/
def dequeLoop : BinaryTree Event → Event → BinaryTree Event → BinaryTree Event × Event
  | nil, t, r => (r, t)
  | node l nil lr, t, r => (node t lr r, l)
  | node l (node ll nil llr) lr, t, r => (node t (node l llr lr) r, ll)
  | node l (node ll (node a b c) llr) lr, t, r =>
    -- zig-zig: rotate `l` with `ll`
    let s := dequeLoop (node a b c) ll (node l llr lr)
    (node t s.1 r, s.2)
termination_by structural t => t

/-- `deque`. -/
def deque (c : SplayScheduler) : SplayScheduler × Option Event :=
  match c.root_ with
  | nil => (c, none)
  | node t l r => ({ root_ := (dequeLoop l t r).1, qsize_ := c.qsize_ - 1 }, some (dequeLoop l t r).2)

/-- The search for the successor in `cancel`: the node with the children `l` and `r`,
without its leftmost event. -/
def unlinkLeftmost : BinaryTree Event → Event → BinaryTree Event → BinaryTree Event × Event
  | nil, p, r => (r, p)
  | node q ql qr, p, r =>
    let s := unlinkLeftmost ql q qr
    (node p s.1 r, s.2)

/-- What `cancel` puts in the place of an event with the children `l` and `r`. -/
def join : BinaryTree Event → BinaryTree Event → BinaryTree Event
  | l, nil => l
  | nil, r => r
  | l, node p pl pr => node (unlinkLeftmost pl p pr).2 l (unlinkLeftmost pl p pr).1

/-- The search of `cancel`: by time, and by `uid_` among events of one time.  `none` is
the call of `abort()`. -/
def cancelLoop (e : Event) : BinaryTree Event → Option (BinaryTree Event)
  | nil => none
  | node t l r =>
    if t = e then some (join l r)
    else if e.time_ > t.time_ ∨ (e.time_ = t.time_ ∧ e.uid_ > t.uid_) then
      (cancelLoop e r).map fun r' => node t l r'
    else (cancelLoop e l).map fun l' => node t l' r

/-- `cancel`.  The event leaves the tree with its `uid_` negated. -/
def cancel (c : SplayScheduler) (e : Event) : Option (SplayScheduler × Event) :=
  if e.uid_ ≤ 0 then some (c, e)
  else (cancelLoop e c.root_).map fun t =>
    ({ root_ := t, qsize_ := c.qsize_ - 1 }, { e with uid_ := -e.uid_ })

/-! ## What the functions do to the list of events -/

/-- Two trees have the events of a list in its order, those up to `time` in the first. -/
structure Split (time : ℚ) (l : List Event) (s : BinaryTree Event × BinaryTree Event) : Prop where
  /-- The order is kept. -/
  inorder : s.1.inorder ++ s.2.inorder = l
  /-- The first tree has events up to `time`. -/
  le : ∀ x ∈ s.1.inorder, x.time_ ≤ time
  /-- The second has those after it. -/
  lt : ∀ x ∈ s.2.inorder, time < x.time_

variable {time : ℚ} {l A B : List Event} {e : Event} {s : BinaryTree Event × BinaryTree Event}

/-- `LINK_RIGHT`: an event after `time`, and what follows it. -/
theorem Split.linkRight (h : Split time A s) (hlt : time < e.time_)
    (hs : IsSorted Event.time_ (A ++ e :: B)) {r : BinaryTree Event} (hr : r.inorder = B) :
    Split time (A ++ e :: B) (s.1, node e s.2 r) := by
  obtain ⟨-, hafter⟩ := hs.sides
  refine ⟨?_, h.le, fun x hx => ?_⟩
  · rw [inorder_node, ← List.append_assoc, h.inorder, hr]
  · rw [inorder_node, List.mem_append, List.mem_cons, hr] at hx
    rcases hx with hx | rfl | hx
    · exact h.lt x hx
    · exact hlt
    · exact hlt.trans_le (hafter x hx)

/-- `LINK_LEFT`: an event up to `time`, and what comes before it. -/
theorem Split.linkLeft (h : Split time B s) (hle : e.time_ ≤ time)
    (hs : IsSorted Event.time_ (A ++ e :: B)) {r : BinaryTree Event} (hr : r.inorder = A) :
    Split time (A ++ e :: B) (node e r s.1, s.2) := by
  obtain ⟨hbefore, -⟩ := hs.sides
  refine ⟨?_, fun x hx => ?_, h.lt⟩
  · rw [inorder_node, List.append_assoc, List.cons_append, h.inorder, hr]
  · rw [inorder_node, List.mem_append, List.mem_cons, hr] at hx
    rcases hx with hx | rfl | hx
    · exact (hbefore x hx).trans hle
    · exact hle
    · exact h.le x hx

/-- The loop of `insert` splits a sorted tree. -/
theorem splitLoop_spec (time : ℚ) (t : BinaryTree Event) (h : IsSorted Event.time_ t.inorder) :
    Split time t.inorder (splitLoop time t) := by
  have hnil : Split time [] (nil, nil) := ⟨rfl, by simp, by simp⟩
  have hsub : ∀ {l r : BinaryTree Event} {t : Event}, IsSorted Event.time_ (node t l r).inorder →
      IsSorted Event.time_ l.inorder ∧ IsSorted Event.time_ r.inorder := by
    intro l r t hs
    exact ⟨hs.sublist (List.sublist_append_left _ _),
      hs.sublist ((List.sublist_cons_self _ _).trans (List.sublist_append_right _ _))⟩
  induction t using splitLoop.induct time with
  | case1 => exact hnil
  | case2 t r hlt ih =>
    unfold splitLoop
    rw [if_pos hlt]
    exact hnil.linkRight hlt h rfl
  | case3 t r hlt x xl xr hx ih₁ ih₂ =>
    unfold splitLoop
    simp only [if_pos hlt, if_pos hx]
    rw [← inorder_rotate] at h ⊢
    exact (ih₂ (hsub h).1).linkRight hx h rfl
  | case4 t r hlt x xl xr hx ih =>
    unfold splitLoop
    simp only [if_pos hlt, if_neg hx]
    exact (ih (hsub h).1).linkRight hlt h rfl
  | case5 t l hlt ih =>
    unfold splitLoop
    rw [if_neg hlt]
    exact hnil.linkLeft (not_lt.mp hlt) h rfl
  | case6 t l hlt x xl xr hx ih₁ ih₂ =>
    unfold splitLoop
    simp only [if_neg hlt, if_pos hx]
    rw [inorder_rotate] at h ⊢
    exact (ih₂ (hsub h).2).linkLeft hx h rfl
  | case7 t l hlt x xl xr hx ih =>
    unfold splitLoop
    simp only [if_neg hlt, if_neg hx]
    exact (ih (hsub h).2).linkLeft (not_lt.mp hlt) h rfl

/-- An event goes between the two trees where it goes in the list. -/
theorem Split.insert (h : Split e.time_ l s) :
    s.1.inorder ++ e :: s.2.inorder = ListScheduler.insert l e := by
  have hle : ∀ x ∈ s.1.inorder, decide (¬ e.time_ < x.time_) = true := fun x hx =>
    decide_eq_true (not_lt.mpr (h.le x hx))
  rw [ListScheduler.insert, ← h.inorder, List.takeWhile_append_of_pos hle,
    List.dropWhile_append_of_pos hle]
  cases hs : s.2.inorder with
  | nil => simp
  | cons x tail =>
    have hlt : e.time_ < x.time_ := h.lt x (by rw [hs]; exact List.mem_cons_self)
    simp [hlt]

theorem insert_inorder (c : SplayScheduler) (h : IsSorted Event.time_ c.root_.inorder) :
    (c.insert e).root_.inorder = ListScheduler.insert c.root_.inorder e := by
  rw [← (splitLoop_spec e.time_ c.root_ h).insert, insert]
  cases c.root_ with
  | nil => rfl
  | node t l r => rfl

/-- The loop of `deque` takes the first event out. -/
theorem dequeLoop_inorder (l : BinaryTree Event) (t : Event) (r : BinaryTree Event) :
    (node t l r).inorder = (dequeLoop l t r).2 :: (dequeLoop l t r).1.inorder := by
  induction l, t, r using dequeLoop.induct with
  | case1 t r => rfl
  | case2 l lr t r => simp [dequeLoop]
  | case3 l ll llr lr t r => simp [dequeLoop]
  | case4 l ll a b c llr lr t r ih =>
    unfold dequeLoop
    simp only
    rw [inorder_node, inorder_node t, ← List.cons_append, ← ih]
    simp

/-- The search for the successor takes the first event of a subtree out. -/
theorem unlinkLeftmost_inorder (l : BinaryTree Event) (p : Event) (r : BinaryTree Event) :
    (node p l r).inorder = (unlinkLeftmost l p r).2 :: (unlinkLeftmost l p r).1.inorder := by
  induction l generalizing p r with
  | nil => rfl
  | node q ql qr ih _ =>
    unfold unlinkLeftmost
    simp only
    rw [inorder_node, inorder_node p, ← List.cons_append, ← ih]

/-- Joining two subtrees keeps the order. -/
theorem join_inorder (l r : BinaryTree Event) : (join l r).inorder = l.inorder ++ r.inorder := by
  cases l with
  | nil => cases r <;> rfl
  | node a al ar =>
    cases r with
    | nil => simp [join]
    | node p pl pr =>
      rw [unlinkLeftmost_inorder pl p pr]
      rfl

/-! ### The search of `cancel` -/

/-- The search finds every event of an ordered tree, and takes out that one; it fails
for an event that is not in the tree. -/
theorem cancelLoop_spec (e : Event) (t : BinaryTree Event) (h : t.inorder.Pairwise Precedes) :
    (cancelLoop e t).map inorder =
      if e ∈ t.inorder then some (t.inorder.erase e) else none := by
  induction t with
  | nil => rfl
  | node a l r ihl ihr =>
    obtain ⟨hbefore, hafter⟩ := h.sides
    rw [inorder_node] at h ⊢
    obtain ⟨hl, har, -⟩ := List.pairwise_append.mp h
    have hr := (List.pairwise_cons.mp har).2
    unfold cancelLoop
    by_cases hae : a = e
    · subst hae
      have hnot : a ∉ l.inorder := fun hmem => (hbefore a hmem).ne rfl
      rw [if_pos rfl, if_pos (by simp), Option.map_some, join_inorder,
        List.erase_append_right _ hnot, List.erase_cons_head]
    rw [if_neg hae]
    by_cases hright : Precedes a e
    · -- the event is not on the left
      have hnot : e ∉ l.inorder := fun hmem => (hbefore e hmem).asymm hright
      have hmem : e ∈ l.inorder ++ a :: r.inorder ↔ e ∈ r.inorder := by
        simp [hnot, Ne.symm hae]
      rw [if_pos (by simpa [Precedes, eq_comm] using hright), Option.map_map]
      simp only [hmem]
      rw [List.erase_append_right _ hnot, List.erase_cons_tail (by simpa using hae)]
      have := congrArg (Option.map fun x => l.inorder ++ a :: x) (ihr hr)
      rw [Option.map_map] at this
      rw [apply_ite (Option.map _)] at this
      exact this
    · have hnot : e ∉ r.inorder := fun hmem => hright (hafter e hmem)
      have hmem : e ∈ l.inorder ++ a :: r.inorder ↔ e ∈ l.inorder := by
        simp [hnot, Ne.symm hae]
      rw [if_neg (by simpa [Precedes, eq_comm] using hright), Option.map_map]
      simp only [hmem]
      have := congrArg (Option.map fun x => x ++ a :: r.inorder) (ihl hl)
      rw [Option.map_map, apply_ite (Option.map _)] at this
      refine this.trans ?_
      split
      · rename_i hin
        rw [Option.map_some, List.erase_append_left _ hin]
      · rfl

/-- `head` is the first event. -/
theorem head_spec (c : SplayScheduler) : c.head = c.root_.inorder.head? := by
  rw [head]
  induction c.root_ using head.leftmost.induct with
  | case1 => rfl
  | case2 t r => rfl
  | case3 t l r hl ih =>
    have hne : l.inorder ≠ [] := fun h => hl (inorder_eq_nil.mp h)
    obtain ⟨x, tail, hx⟩ := List.exists_cons_of_ne_nil hne
    rw [inorder_node, hx, List.cons_append, List.head?_cons]
    rw [hx, List.head?_cons] at ih
    rw [← ih]
    cases l with
    | nil => exact absurd rfl hl
    | node a al ar => rfl

end SplayScheduler

/-! ## Runs -/

/-- One request to the splay tree. -/
def SplayScheduler.serve (s : Numbered SplayScheduler) :
    Request → Option (Numbered SplayScheduler × Option Event)
  | .schedule time_ => some (⟨s.uid_ + 1, s.queue.insert ⟨s.uid_, time_⟩⟩, none)
  | .deque => some (⟨s.uid_, s.queue.deque.1⟩, s.queue.deque.2)
  | .cancel e => (s.queue.cancel e).map fun r => (⟨s.uid_, r.1⟩, some r.2)

/-- The tree, from left to right, is the queue of the list scheduler. -/
structure SplayRefines (s : Numbered SplayScheduler) (s' : Numbered (List Event)) : Prop where
  /-- The next event gets the same number. -/
  uid_ : s.uid_ = s'.uid_
  /-- The events, in their order. -/
  inorder : s.queue.root_.inorder = s'.queue
  /-- Their number. -/
  qsize_ : s.queue.qsize_ = s'.queue.length
  /-- The order is that of time and insertion. -/
  inOrder : InOrder s'

open Simulation SplayScheduler

/-- Every request does the same to both schedulers. -/
theorem SplayRefines.serve {s : Numbered SplayScheduler} {s' : Numbered (List Event)}
    (h : SplayRefines s s') (q : Request) :
    Agree SplayRefines (SplayScheduler.serve s q) (ListScheduler.serve s' q) := by
  obtain ⟨u, c⟩ := s
  obtain ⟨u', l⟩ := s'
  obtain ⟨huid, hl, hq, hord⟩ := h
  simp only at huid hl hq
  subst huid hl
  cases q with
  | schedule time_ =>
    refine Option.Rel.some ⟨⟨rfl, insert_inorder c hord.sorted, ?_, hord.insert time_⟩, rfl⟩
    simp only [SplayScheduler.insert, hq, ListScheduler.length_insert]
    push_cast
    rfl
  | deque =>
    obtain ⟨root_, qsize_⟩ := c
    cases root_ with
    | nil => exact Option.Rel.some ⟨⟨rfl, rfl, hq, hord⟩, rfl⟩
    | node t l r =>
      have hdeq := dequeLoop_inorder l t r
      simp only [SplayScheduler.serve, ListScheduler.serve, SplayScheduler.deque] at hq hord ⊢
      rw [hdeq] at hq hord ⊢
      refine Option.Rel.some ⟨⟨rfl, rfl, ?_, hord.sublist (List.sublist_cons_self _ _)⟩, rfl⟩
      simp only [hq, ListScheduler.deque, List.length_cons]
      push_cast
      ring
  | cancel e =>
    rw [SplayScheduler.serve, ListScheduler.serve, SplayScheduler.cancel, ListScheduler.cancel]
    by_cases hu : e.uid_ ≤ 0
    · rw [if_pos hu, if_pos hu]
      exact Option.Rel.some ⟨⟨rfl, rfl, hq, hord⟩, rfl⟩
    rw [if_neg hu, if_neg hu]
    have hsearch := cancelLoop_spec e c.root_ hord.ordered
    by_cases hmem : e ∈ c.root_.inorder
    · rw [if_pos hmem] at hsearch ⊢
      obtain ⟨t, ht, hinorder⟩ := Option.map_eq_some_iff.mp hsearch
      rw [ht]
      refine Option.Rel.some ⟨⟨rfl, hinorder, ?_, hord.sublist List.erase_sublist⟩, rfl⟩
      have hpos := List.length_pos_of_mem hmem
      simp only [hq, List.length_erase_of_mem hmem]
      omega
    · rw [if_neg hmem] at hsearch ⊢
      rw [Option.map_eq_none_iff.mp hsearch]
      exact Option.Rel.none

theorem splayRefines_new : SplayRefines ⟨1, SplayScheduler.new⟩ ⟨1, []⟩ :=
  ⟨rfl, rfl, rfl, List.Pairwise.nil, by simp⟩

/-- **The splay tree refines the list.**  Whatever events are scheduled, dequeued and
cancelled, the splay tree returns the same events as the list ordered by time and order of
insertion, and holds the same events in that order; it fails when the list scheduler does,
and only then. -/
theorem splay_refines (requests : List Request) :
    Agree SplayRefines (run SplayScheduler.serve ⟨1, SplayScheduler.new⟩ requests)
      (run ListScheduler.serve ⟨1, []⟩ requests) :=
  run_rel (fun _ _ q h => h.serve q) requests _ _ splayRefines_new

end Ns2.Common
