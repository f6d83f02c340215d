import Ns2.Common.Scheduler
import Ns2.Lib.Stable

/-!
# The contents of a calendar queue

* `slot`, `calendarHash_eq` — a bucket holds the times whose slot on the calendar is its
  index modulo the number of buckets.
* `place_spec`, `place2_spec` — where `insert` and `insert2` link an event in.
* `Holds c l` — the invariant: the buckets of `c` are sorted and hold, for each time, the
  same events as the list `l`, in the same order; the counters are right.
* `Holds.put`, `Holds.take` — putting an event in and taking one out.
* `resize_spec` — a resize, whether it happens or not, keeps the contents.
-/

namespace Ns2.Common

open Stable

namespace CalendarScheduler

variable {c c' : CalendarScheduler} {l : List Event} {e x : Event} {t : ℚ}

/-! ## The hash -/

/-- The position of a time on a calendar that does not wrap around. -/
def slot (c : CalendarScheduler) (t : ℚ) : ℕ := ⌊t / c.width_⌋₊

theorem calendarHash_eq (hw : 0 < c.width_) (ht : 0 ≤ t) :
    c.calendarHash t = c.slot t % c.nbuckets_ := by
  have hx : 0 ≤ t / c.width_ := div_nonneg ht hw.le
  have hfmod : fmod (t / c.width_) c.nbuckets_
      = t / c.width_ - (c.nbuckets_ * (c.slot t / c.nbuckets_) : ℕ) := by
    rw [fmod, toInt_of_nonneg (div_nonneg hx (Nat.cast_nonneg _)), Nat.floor_div_natCast, slot]
    push_cast
    rfl
  have hle : ((c.nbuckets_ * (c.slot t / c.nbuckets_) : ℕ) : ℚ) ≤ t / c.width_ :=
    le_trans (Nat.cast_le.mpr (Nat.mul_div_le _ _)) (Nat.floor_le hx)
  rw [calendarHash, hfmod, toInt_of_nonneg (sub_nonneg.mpr hle), Int.toNat_natCast,
    Nat.floor_sub_natCast, ← slot]
  exact (Nat.mod_eq_sub_mul_div ..).symm

theorem calendarHash_lt (hw : 0 < c.width_) (hn : 4 ≤ c.nbuckets_) (ht : 0 ≤ t) :
    c.calendarHash t < c.nbuckets_ := by
  rw [calendarHash_eq hw ht]
  exact Nat.mod_lt _ (by omega)

/-! ## Linking in -/

/-- `insert` puts an event after those of the same time. -/
theorem place_spec (h : IsSorted Event.time_ l) :
    IsSorted Event.time_ (place e l).1 ∧ (place e l).1.Perm (e :: l) ∧
      (∀ k, cls Event.time_ k (place e l).1 = cls Event.time_ k (l ++ [e])) ∧
      ((place e l).2.1 = true ↔ ∀ y ∈ l, y.time_ ≠ e.time_) := by
  cases l with
  | nil => exact ⟨List.pairwise_singleton _ _, List.Perm.refl _, fun _ => rfl, by simp [place]⟩
  | cons a l =>
    rw [place]
    split
    · rename_i hlt
      have hall : ∀ y ∈ a :: l, e.time_ < y.time_ := fun y hy => hlt.trans_le (h.head_le y hy)
      refine ⟨h.insert (A := []) (by simp) fun b hb => (hall b hb).le, List.Perm.refl _, fun k => ?_,
        iff_of_true rfl fun y hy => (hall y hy).ne'⟩
      exact cls_insert_after (A := []) hall
    · have hsplit := List.rdropWhile_append_rtakeWhile (p := fun x : Event => e.time_ < x.time_)
        (l := a :: l)
      have hafter : ∀ b ∈ (a :: l).rtakeWhile (fun x => decide (e.time_ < x.time_)),
          e.time_ < b.time_ := fun b hb => by simpa using List.mem_rtakeWhile_imp hb
      have hlast := List.rdropWhile_last_not (fun x : Event => decide (e.time_ < x.time_)) (a :: l)
      simp only
      generalize (a :: l).rdropWhile (fun x => decide (e.time_ < x.time_)) = A at *
      generalize (a :: l).rtakeWhile (fun x => decide (e.time_ < x.time_)) = B at *
      rw [← hsplit] at h ⊢
      have hbefore : ∀ x ∈ A, x.time_ ≤ e.time_ := by
        rcases List.eq_nil_or_concat A with rfl | ⟨A, z, rfl⟩
        · simp
        · rw [List.concat_eq_append] at h hlast ⊢
          have hz := hlast (by simp)
          rw [List.getLast_concat, decide_eq_true_eq, not_lt] at hz
          intro x hx
          exact ((h.sublist (List.sublist_append_left _ B)).le_last x hx).trans hz
      refine ⟨h.insert hbefore fun b hb => (hafter b hb).le, List.perm_middle,
        fun k => cls_insert_after hafter, ?_⟩
      rcases List.eq_nil_or_concat A with rfl | ⟨A, z, rfl⟩
      · simpa using fun b hb => (hafter b hb).ne'
      · rw [List.concat_eq_append] at *
        rw [List.getLast?_concat, Option.map_some, Option.getD_some, decide_eq_true_eq]
        constructor
        · intro hz y hy
          rcases List.mem_append.mp hy with hy | hy
          · exact (((h.sublist (List.sublist_append_left _ B)).le_last y hy).trans_lt hz).ne
          · exact (hafter y hy).ne'
        · exact fun hne => lt_of_le_of_ne (hbefore z (by simp)) (hne z (by simp))

/-- `insert2` puts an event before those of the same time. -/
theorem place2_spec (h : IsSorted Event.time_ l) :
    IsSorted Event.time_ (place2 e l).1 ∧ (place2 e l).1.Perm (e :: l) ∧
      (∀ k, cls Event.time_ k (place2 e l).1 = cls Event.time_ k (e :: l)) ∧
      ((place2 e l).2 = true ↔ ∀ y ∈ l, y.time_ ≠ e.time_) := by
  cases l with
  | nil => exact ⟨List.pairwise_singleton _ _, List.Perm.refl _, fun _ => rfl, by simp [place2]⟩
  | cons a l =>
    rw [place2]
    split
    · rename_i hgt
      have hall : ∀ y ∈ a :: l, y.time_ < e.time_ := by
        obtain ⟨B, z, hz⟩ : ∃ B z, a :: l = B ++ [z] :=
          ⟨_, _, (List.dropLast_append_getLast (List.cons_ne_nil a l)).symm⟩
        simp only [hz, List.getLast_concat] at hgt
        rw [hz] at h ⊢
        exact fun y hy => (h.le_last y hy).trans_lt hgt
      refine ⟨(by simpa using h : IsSorted Event.time_ (a :: l ++ [])).insert
        (fun y hy => (hall y hy).le) (by simp), List.perm_append_singleton _ _, fun k => ?_, ?_⟩
      · simpa using cls_insert_before (B := []) (k := k) hall
      · rw [decide_eq_true_eq]
        exact iff_of_true (hall a List.mem_cons_self).ne fun y hy => (hall y hy).ne
    · rename_i hle
      have hsplit := List.takeWhile_append_dropWhile (p := fun x : Event => e.time_ > x.time_)
        (l := a :: l)
      have hbefore : ∀ b ∈ (a :: l).takeWhile (fun x => decide (e.time_ > x.time_)),
          b.time_ < e.time_ := fun b hb => by simpa using List.mem_takeWhile_imp hb
      have hafter : ∀ b ∈ (a :: l).dropWhile (fun x => decide (e.time_ > x.time_)),
          e.time_ ≤ b.time_ := by
        intro b hb
        have := h.dropWhile_not (p := fun x => decide (e.time_ > x.time_))
          (fun x y hxy hy => decide_eq_true (hxy.trans_lt (of_decide_eq_true hy))) b hb
        simpa using this
      obtain ⟨z, hz, hle⟩ : ∃ z ∈ a :: l, ¬ e.time_ > z.time_ := ⟨_, List.getLast_mem _, hle⟩
      simp only
      generalize (a :: l).takeWhile (fun x => decide (e.time_ > x.time_)) = A at *
      generalize (a :: l).dropWhile (fun x => decide (e.time_ > x.time_)) = B at *
      rw [← hsplit] at h hz ⊢
      refine ⟨h.insert (fun y hy => (hbefore y hy).le) hafter, List.perm_middle,
        fun k => cls_insert_before hbefore, ?_⟩
      have hzB : z ∈ B := (List.mem_append.mp hz).resolve_left fun hA => hle (hbefore z hA)
      obtain ⟨b, B, rfl⟩ := List.exists_cons_of_ne_nil (List.ne_nil_of_mem hzB)
      rw [List.cons_append, List.head?_cons, Option.map_some, Option.getD_some, decide_eq_true_eq]
      constructor
      · intro hb y hy
        have hlt := lt_of_le_of_ne (hafter b List.mem_cons_self) hb.symm
        rcases List.mem_append.mp hy with hy | hy
        · exact (hbefore y hy).ne
        · exact (hlt.trans_le ((h.sublist (List.sublist_append_right A _)).head_le y hy)).ne'
      · exact fun hne => hne b (by simp)

/-! ## The invariant -/

/-- The calendar holds the events of `l`: those of the same time in the order in which
they stand in `l`. -/
structure Holds (c : CalendarScheduler) (l : List Event) : Prop where
  /-- Buckets have a width. -/
  width_pos : 0 < c.width_
  /-- There are at least four buckets. -/
  four_le : 4 ≤ c.nbuckets_
  /-- Buckets are sorted by time. -/
  sorted : ∀ i < c.nbuckets_, IsSorted Event.time_ (c.buckets_ i).list_
  /-- An event is in the bucket of its time. -/
  home : ∀ i < c.nbuckets_, ∀ e ∈ (c.buckets_ i).list_, 0 ≤ e.time_ ∧ c.calendarHash e.time_ = i
  /-- The events of one time are those of the list, in the same order. -/
  classes : ∀ t, 0 ≤ t →
    cls Event.time_ t (c.buckets_ (c.calendarHash t)).list_ = cls Event.time_ t l
  /-- Time starts at zero. -/
  nonneg : ∀ e ∈ l, 0 ≤ e.time_
  /-- The counter of a bucket. -/
  count : ∀ i < c.nbuckets_, (c.buckets_ i).count_ = distinct Event.time_ (c.buckets_ i).list_
  /-- The counter of distinct times. -/
  stat : c.stat_qsize_ = distinct Event.time_ l
  /-- The counter of events. -/
  size : c.qsize_ = l.length

/-- What the invariant is about. -/
theorem Holds.frame (h : c.Holds l) (hw : c'.width_ = c.width_ := by rfl)
    (hn : c'.nbuckets_ = c.nbuckets_ := by rfl) (hb : c'.buckets_ = c.buckets_ := by rfl)
    (hs : c'.stat_qsize_ = c.stat_qsize_ := by rfl) (hq : c'.qsize_ = c.qsize_ := by rfl) :
    c'.Holds l := by
  have hhash : c'.calendarHash = c.calendarHash := by
    funext t
    rw [calendarHash, calendarHash, hw, hn]
  refine ⟨?_, ?_, ?_, ?_, ?_, h.nonneg, ?_, ?_, ?_⟩
  · rw [hw]; exact h.width_pos
  · rw [hn]; exact h.four_le
  · rw [hn, hb]; exact h.sorted
  · rw [hn, hb, hhash]; exact h.home
  · rw [hb, hhash]; exact h.classes
  · rw [hn, hb]; exact h.count
  · rw [hs]; exact h.stat
  · rw [hq]; exact h.size

/-- Only the classes of the list matter. -/
theorem Holds.congr {l' : List Event} (h : c.Holds l)
    (hl : ∀ k, cls Event.time_ k l = cls Event.time_ k l') : c.Holds l' where
  width_pos := h.width_pos
  four_le := h.four_le
  sorted := h.sorted
  home := h.home
  classes t ht := (h.classes t ht).trans (hl t)
  nonneg e he := h.nonneg e ((mem_congr hl).mpr he)
  count := h.count
  stat := by rw [h.stat, distinct_perm (perm_of_cls hl)]
  size := by rw [h.size, (perm_of_cls hl).length_eq]

namespace Holds

variable {i : ℕ}

theorem hash_lt (h : c.Holds l) (ht : 0 ≤ t) : c.calendarHash t < c.nbuckets_ :=
  calendarHash_lt h.width_pos h.four_le ht

/-- The events of a bucket. -/
theorem mem_bucket_iff (h : c.Holds l) (hi : i < c.nbuckets_) :
    x ∈ (c.buckets_ i).list_ ↔ x ∈ l ∧ c.calendarHash x.time_ = i := by
  constructor
  · intro hx
    obtain ⟨h1, h2⟩ := h.home i hi x hx
    refine ⟨?_, h2⟩
    rw [mem_iff_mem_cls (f := Event.time_), ← h.classes _ h1, h2]
    exact mem_iff_mem_cls.mp hx
  · rintro ⟨hx, rfl⟩
    rw [mem_iff_mem_cls (f := Event.time_), h.classes _ (h.nonneg x hx)]
    exact mem_iff_mem_cls.mp hx

/-- The bucket of a time has the events of that time. -/
theorem forall_bucket_iff (h : c.Holds l) (he : 0 ≤ t) :
    (∀ y ∈ (c.buckets_ (c.calendarHash t)).list_, y.time_ ≠ t) ↔ ∀ y ∈ l, y.time_ ≠ t := by
  constructor
  · rintro hall y hy rfl
    exact hall y ((h.mem_bucket_iff (h.hash_lt he)).mpr ⟨hy, rfl⟩) rfl
  · intro hall y hy
    exact hall y ((h.mem_bucket_iff (h.hash_lt he)).mp hy).1

/-! ## Changing one bucket -/

/-- A change of the bucket of the time `t`, to a sorted list with the classes of the new
contents. -/
theorem set {b l' : List Event} {d : ℤ} {n : ℕ} (h : c.Holds l) (ht : 0 ≤ t)
    (hsorted : IsSorted Event.time_ b)
    (hmem : ∀ y ∈ b, y.time_ = t ∨ y ∈ (c.buckets_ (c.calendarHash t)).list_)
    (hb : ∀ k, k ≠ t →
      cls Event.time_ k b = cls Event.time_ k (c.buckets_ (c.calendarHash t)).list_)
    (hl : ∀ k, k ≠ t → cls Event.time_ k l' = cls Event.time_ k l)
    (ht' : cls Event.time_ t b = cls Event.time_ t l') (hnn : ∀ e ∈ l', 0 ≤ e.time_)
    (hcount : ((c.buckets_ (c.calendarHash t)).count_ + d : ℤ) = distinct Event.time_ b)
    (hstat : (c.stat_qsize_ + d : ℤ) = distinct Event.time_ l') (hn : n = l'.length) :
    Holds { c.setBucket (c.calendarHash t) b d with qsize_ := n } l' := by
  have hset : ∀ j, ({ c.setBucket (c.calendarHash t) b d with qsize_ := n } :
      CalendarScheduler).buckets_ j = if j = c.calendarHash t
        then ⟨b, (c.buckets_ (c.calendarHash t)).count_ + d⟩ else c.buckets_ j := by
    intro j
    exact Function.update_apply ..
  refine ⟨h.width_pos, h.four_le, fun j hj => ?_, fun j hj y hy => ?_, fun k hk => ?_, hnn,
    fun j hj => ?_, hstat, hn⟩
  · rw [hset]
    split
    · exact hsorted
    · exact h.sorted j hj
  · rw [hset] at hy
    split at hy
    · rename_i heq
      subst heq
      rcases hmem y hy with rfl | hy
      · exact ⟨ht, rfl⟩
      · exact h.home _ hj y hy
    · exact h.home j hj y hy
  · rw [hset]
    show cls Event.time_ k (if c.calendarHash k = c.calendarHash t then _ else _ : Bucket).list_ = _
    by_cases hkt : k = t
    · subst hkt
      rw [if_pos rfl]
      exact ht'
    · rw [hl k hkt, ← h.classes k hk]
      split
      · rename_i heq
        rw [heq]
        exact hb k hkt
      · rfl
  · rw [hset]
    split
    · exact hcount
    · exact h.count j hj

/-- Putting an event in, at the end of its class or in front of it. -/
theorem put (ins : List Event → List Event) {b : List Event} {u : Bool} (h : c.Holds l)
    (he : 0 ≤ e.time_) (hperm : ∀ l, (ins l).Perm (e :: l))
    (hcls : ∀ k l, cls Event.time_ k (ins l)
      = if e.time_ = k then ins (cls Event.time_ k l) else cls Event.time_ k l)
    (hsorted : IsSorted Event.time_ b)
    (hbperm : b.Perm (e :: (c.buckets_ (c.calendarHash e.time_)).list_))
    (hb : ∀ k, cls Event.time_ k b
      = cls Event.time_ k (ins (c.buckets_ (c.calendarHash e.time_)).list_))
    (hu : u = true ↔ ∀ y ∈ (c.buckets_ (c.calendarHash e.time_)).list_, y.time_ ≠ e.time_) :
    Holds { c.setBucket (c.calendarHash e.time_) b (if u then 1 else 0) with
      qsize_ := c.qsize_ + 1 } (ins l) := by
  have hmem : ∀ y ∈ ins l, y = e ∨ y ∈ l := fun y hy =>
    List.mem_cons.mp ((hperm l).mem_iff.mp hy)
  refine h.set he hsorted ?_ ?_ ?_ ?_ ?_ ?_ ?_ ?_
  · intro y hy
    rcases List.mem_cons.mp (hbperm.mem_iff.mp hy) with rfl | hy
    · exact Or.inl rfl
    · exact Or.inr hy
  · intro k hk
    rw [hb, hcls, if_neg hk.symm]
  · intro k hk
    rw [hcls, if_neg hk.symm]
  · rw [hb, hcls, if_pos rfl, hcls, if_pos rfl, h.classes _ he]
  · intro y hy
    rcases hmem y hy with rfl | hy
    · exact he
    · exact h.nonneg y hy
  · rw [distinct_perm hbperm, distinct_cons, h.count _ (h.hash_lt he)]
    simp only [hu]
    split <;> simp
  · rw [distinct_perm (hperm l), distinct_cons, h.stat]
    simp only [hu, h.forall_bucket_iff he]
    split <;> simp
  · rw [(hperm l).length_eq, List.length_cons, h.size]

/-- Taking an event out. -/
theorem take {u : Bool} {b : List Event} (h : c.Holds l) (he : e ∈ l)
    (hb : b = (c.buckets_ (c.calendarHash e.time_)).list_.erase e)
    (hu : u = true ↔ ∀ y ∈ b, y.time_ ≠ e.time_) :
    Holds { c.setBucket (c.calendarHash e.time_) b (if u then -1 else 0) with
      qsize_ := c.qsize_ - 1 } (l.erase e) := by
  have hnn := h.nonneg e he
  have hlt := h.hash_lt hnn
  have hin : e ∈ (c.buckets_ (c.calendarHash e.time_)).list_ :=
    (h.mem_bucket_iff hlt).mpr ⟨he, rfl⟩
  have hclass : cls Event.time_ e.time_ b = cls Event.time_ e.time_ (l.erase e) := by
    rw [hb, cls_erase, cls_erase, if_pos rfl, if_pos rfl, h.classes _ hnn]
  have hu' : u = true ↔ ∀ y ∈ l.erase e, y.time_ ≠ e.time_ := by
    rw [hu]
    have hiff : ∀ m : List Event, (∀ y ∈ m, y.time_ ≠ e.time_) ↔ cls Event.time_ e.time_ m = [] := by
      intro m
      refine ⟨cls_eq_nil, fun hm y hy heq => ?_⟩
      have : y ∈ cls Event.time_ e.time_ m := mem_cls.mpr ⟨hy, heq⟩
      rw [hm] at this
      exact absurd this List.not_mem_nil
    rw [hiff, hiff, hclass]
  refine h.set hnn ?_ ?_ ?_ ?_ hclass ?_ ?_ ?_ ?_
  · rw [hb]
    exact (h.sorted _ hlt).sublist List.erase_sublist
  · intro y hy
    rw [hb] at hy
    exact Or.inr (List.mem_of_mem_erase hy)
  · intro k hk
    rw [hb, cls_erase, if_neg hk.symm]
  · intro k hk
    rw [cls_erase, if_neg hk.symm]
  · exact fun y hy => h.nonneg y (List.mem_of_mem_erase hy)
  · have hd := distinct_perm (f := Event.time_) (List.perm_cons_erase hin)
    rw [distinct_cons, ← hb] at hd
    rw [h.count _ hlt, hd]
    simp only [hu]
    split <;> simp
  · have hd := distinct_perm (f := Event.time_) (List.perm_cons_erase he)
    rw [distinct_cons] at hd
    rw [h.stat, hd]
    simp only [hu']
    split <;> simp
  · rw [h.size, List.length_erase_of_mem he]

/-! ## `insert2` and `resize` -/

theorem insert2 (h : c.Holds l) (he : 0 ≤ e.time_) : (c.insert2 e).Holds (e :: l) := by
  obtain ⟨h1, h2, h3, h4⟩ := place2_spec (e := e) (h.sorted _ (h.hash_lt he))
  exact h.put (fun l => e :: l) he (fun _ => List.Perm.refl _) (fun _ _ => cls_cons)
    h1 h2 h3 h4

/-- New buckets are empty. -/
theorem reinit {nbuck : ℕ} {bwidth start : ℚ} (hw : 0 < bwidth) (hn : 4 ≤ nbuck) :
    (c.reinit nbuck bwidth start).Holds [] where
  width_pos := hw
  four_le := hn
  sorted _ _ := IsSorted.nil
  home := by simp [CalendarScheduler.reinit]
  classes _ _ := rfl
  nonneg := by simp
  count _ _ := rfl
  stat := rfl
  size := rfl

/-- Copying one bucket, from its tail to its head. -/
theorem foldr_insert2 {b : List Event} (h : c.Holds l) (hb : ∀ e ∈ b, 0 ≤ e.time_) :
    (b.foldr (fun e d => d.insert2 e) c).Holds (b ++ l) := by
  induction b with
  | nil => exact h
  | cons e b ih =>
    exact (ih fun x hx => hb x (List.mem_cons_of_mem e hx)).insert2 (hb e List.mem_cons_self)

/-- Copying some buckets. -/
theorem foldl_buckets {d : CalendarScheduler} (h : c.Holds l) (hd : d.Holds []) :
    ∀ n ≤ c.nbuckets_, ∃ l',
      ((List.range n).foldl (fun d i => (c.buckets_ i).list_.foldr (fun e d => d.insert2 e) d)
        d).Holds l' ∧
      ∀ t, 0 ≤ t → cls Event.time_ t l'
        = if c.calendarHash t < n then cls Event.time_ t l else [] := by
  intro n
  induction n with
  | zero => exact fun _ => ⟨[], hd, fun _ _ => rfl⟩
  | succ n ih =>
    intro hn
    obtain ⟨l', h1, h2⟩ := ih (by omega)
    rw [List.range_succ, List.foldl_append]
    refine ⟨_, h1.foldr_insert2 fun e he => (h.home n (by omega) e he).1, fun t ht => ?_⟩
    rw [cls_append, h2 t ht]
    rcases lt_trichotomy (c.calendarHash t) n with hlt | heq | hgt
    · have hnil : cls Event.time_ t (c.buckets_ n).list_ = [] := cls_eq_nil fun x hx hxt => by
        have := (h.home n (by omega) x hx).2
        rw [hxt] at this
        omega
      rw [hnil, if_pos hlt, if_pos (by omega), List.nil_append]
    · rw [if_neg (by omega), if_pos (by omega), List.append_nil, ← heq, h.classes t ht]
    · have hnil : cls Event.time_ t (c.buckets_ n).list_ = [] := cls_eq_nil fun x hx hxt => by
        have := (h.home n (by omega) x hx).2
        rw [hxt] at this
        omega
      rw [hnil, if_neg (by omega), if_neg (by omega), List.nil_append]

/-- New buckets of whatever width hold the same events. -/
theorem rebuild {newsize : ℕ} {bwidth start : ℚ} (h : c.Holds l) (hw : 0 < bwidth)
    (hn : 4 ≤ newsize) : (c.rebuild newsize bwidth start).Holds l := by
  obtain ⟨l', h1, h2⟩ := h.foldl_buckets (reinit (c := c) hw hn) _ le_rfl
  refine (h1.congr fun t => ?_).frame
  rcases lt_or_ge t 0 with ht | ht
  · rw [cls_eq_nil fun x hx => (ht.trans_le (h1.nonneg x hx)).ne',
      cls_eq_nil fun x hx => (ht.trans_le (h.nonneg x hx)).ne']
  · rw [h2 t ht, if_pos (h.hash_lt ht)]

end Holds

/-- What the search of `head` and a resize rely on, apart from the contents. -/
structure Ready (c : CalendarScheduler) : Prop where
  /-- `sqrt` of a positive number is positive. -/
  sqrt_pos : ∀ x, 0 < x → 0 < c.sqrt x
  /-- The clock does not run before zero. -/
  nonneg : 0 ≤ c.cal_clock_
  /-- The bucket of the clock. -/
  bucket : c.lastbucket_ = c.calendarHash c.cal_clock_
  /-- Half a year. -/
  diff0 : c.diff0_ = c.width_ * c.nbuckets_ / 2
  /-- Half a year and a bucket. -/
  diff1 : c.diff1_ = c.width_ * c.nbuckets_ / 2 + c.width_
  /-- A year. -/
  diff2 : c.diff2_ = c.width_ * c.nbuckets_

namespace Ready

theorem frame (h : c.Ready) (hs : c'.sqrt = c.sqrt := by rfl)
    (hc : c'.cal_clock_ = c.cal_clock_ := by rfl) (hl : c'.lastbucket_ = c.lastbucket_ := by rfl)
    (hw : c'.width_ = c.width_ := by rfl) (hn : c'.nbuckets_ = c.nbuckets_ := by rfl)
    (h0 : c'.diff0_ = c.diff0_ := by rfl) (h1 : c'.diff1_ = c.diff1_ := by rfl)
    (h2 : c'.diff2_ = c.diff2_ := by rfl) : c'.Ready := by
  refine ⟨?_, ?_, ?_, ?_, ?_, ?_⟩
  · rw [hs]; exact h.sqrt_pos
  · rw [hc]; exact h.nonneg
  · rw [hc, hl, h.bucket, calendarHash, calendarHash, hw, hn]
  · rw [h0, hw, hn]; exact h.diff0
  · rw [h1, hw, hn]; exact h.diff1
  · rw [h2, hw, hn]; exact h.diff2

theorem reinit {nbuck : ℕ} {bwidth : ℚ} (hs : ∀ x, 0 < x → 0 < c.sqrt x) (hc : 0 ≤ c.cal_clock_) :
    (c.reinit nbuck bwidth c.cal_clock_).Ready :=
  ⟨hs, hc, rfl, rfl, rfl, rfl⟩

/-- A property that `insert2` keeps is kept by the copying of the buckets. -/
theorem foldl_insert2 {P : CalendarScheduler → Prop} (hP : ∀ d e, P d → P (d.insert2 e))
    (b : ℕ → List Event) (is : List ℕ) {d : CalendarScheduler} (hd : P d) :
    P (is.foldl (fun d i => (b i).foldr (fun e d => d.insert2 e) d) d) := by
  induction is generalizing d with
  | nil => exact hd
  | cons i is ih =>
    have hbucket : ∀ m : List Event, P (m.foldr (fun e d => d.insert2 e) d) := by
      intro m
      induction m with
      | nil => exact hd
      | cons e m ihm => exact hP _ e ihm
    exact ih (hbucket (b i))

theorem rebuild {newsize : ℕ} {bwidth : ℚ} (h : c.Ready) :
    (c.rebuild newsize bwidth c.cal_clock_).Ready ∧
      (c.rebuild newsize bwidth c.cal_clock_).cal_clock_ = c.cal_clock_ := by
  obtain ⟨h1, h2⟩ := foldl_insert2 (P := fun d => d.Ready ∧ d.cal_clock_ = c.cal_clock_)
    (fun d e hd => ⟨hd.1.frame, hd.2⟩) (fun i => (c.buckets_ i).list_) (List.range c.nbuckets_)
    (d := c.reinit newsize bwidth c.cal_clock_) ⟨reinit h.sqrt_pos h.nonneg, rfl⟩
  exact ⟨h1.frame, h2⟩

end Ready

/-- A width can be sampled, and it is positive: the `assert` of `newwidth` holds. -/
theorem Holds.sampleWidth {newsize : ℕ} (h : c.Holds l) (hn : 0 < newsize) :
    ∃ w, c.sampleWidth newsize = some w ∧ 0 < w := by
  rw [CalendarScheduler.sampleWidth]
  simp only
  have hmax : c.maxBucket < c.nbuckets_ := by
    have hpos := h.four_le
    refine List.foldlRecOn (motive := fun m => m < c.nbuckets_) _ _ (by omega) fun m hm i hi => ?_
    split
    · exact List.mem_range.mp hi
    · exact hm
  split
  · exact ⟨c.width_, rfl, h.width_pos⟩
  · rename_i hcount
    have hcnt := h.count _ hmax
    have hdist : 1 < distinct Event.time_ (c.buckets_ c.maxBucket).list_ := by omega
    have hne : (c.buckets_ c.maxBucket).list_ ≠ [] := by
      intro hnil
      rw [hnil] at hdist
      exact absurd hdist (by simp)
    have hfirst := List.head?_eq_some_head hne
    have hlast := List.getLast?_eq_some_getLast hne
    have hlt := head_lt_last (h.sorted _ hmax) hdist hfirst hlast
    rw [hfirst, hlast]
    simp only
    rw [if_pos (sub_pos.mpr hlt)]
    refine ⟨_, rfl, mul_pos (div_pos (sub_pos.mpr hlt) ?_) (by norm_num)⟩
    rw [Int.cast_pos]
    split
    · exact_mod_cast hn
    · omega

theorem newwidth_spec {newsize : ℕ} (h : c.Holds l) (hr : c.Ready) (hn : 0 < newsize) :
    ∃ c' w, c.newwidth newsize = some (c', w) ∧ 0 < w ∧ c'.Holds l ∧ c'.Ready ∧
      c'.cal_clock_ = c.cal_clock_ ∧ c'.nbuckets_ = c.nbuckets_ := by
  rw [newwidth]
  split
  · have h' : Holds { c with time_to_newwidth := c.adjust_new_width_interval_ } l := h.frame
    have hr' : Ready { c with time_to_newwidth := c.adjust_new_width_interval_ } := hr.frame
    simp only
    split
    · rename_i hgap
      exact ⟨_, _, rfl, mul_pos hgap (by norm_num), h', hr', rfl, rfl⟩
    · obtain ⟨w, hw, hpos⟩ := h'.sampleWidth hn
      exact ⟨_, w, by rw [hw]; rfl, hpos, h', hr', rfl, rfl⟩
  · obtain ⟨w, hw, hpos⟩ := h.sampleWidth hn
    exact ⟨c, w, by rw [hw]; rfl, hpos, h, hr, rfl, rfl⟩

theorem adjustedWidth_pos (h : c.Holds l) (hr : c.Ready) : 0 < c.adjustedWidth := by
  have hb₁ : (0 : ℚ) < if c.head_search_ ≠ 0 then (c.head_search_ : ℚ) else 1 := by
    split
    · rename_i hne
      exact Nat.cast_pos.mpr (Nat.pos_of_ne_zero hne)
    · exact one_pos
  rw [adjustedWidth]
  refine mul_pos (hr.sqrt_pos _ ?_) h.width_pos
  split
  · rename_i hne
    exact div_pos hb₁ (Nat.cast_pos.mpr (Nat.pos_of_ne_zero hne))
  · exact hb₁

/-- **Resizing.**  It returns, and the calendar holds what it held before. -/
theorem resize_spec {newsize : ℕ} (h : c.Holds l) (hr : c.Ready) (hn : 0 < newsize) :
    ∃ c', c.resize newsize c.cal_clock_ = some c' ∧ c'.Holds l ∧ c'.Ready ∧
      c'.cal_clock_ = c.cal_clock_ := by
  obtain ⟨c₁, w, h1, hw, h2, h3, h4, h5⟩ := newwidth_spec h hr hn
  rw [resize, h1]
  split
  · rename_i heq
    have hfour : 4 ≤ newsize := heq ▸ h.four_le
    split
    · split
      · exact ⟨_, rfl, h.frame, hr.frame, rfl⟩
      · refine ⟨_, rfl, h2.rebuild hw hfour, ?_, ?_⟩
        · rw [← h4]
          exact h3.rebuild.1
        · rw [← h4]
          exact h3.rebuild.2
    · exact ⟨_, rfl, h.rebuild (adjustedWidth_pos h hr) hfour, hr.rebuild.1, hr.rebuild.2⟩
  · have hfour : 4 ≤ if newsize < 4 then 4 else newsize := by
      split
      · exact le_rfl
      · omega
    refine ⟨_, rfl, h2.rebuild hw hfour, ?_, ?_⟩
    · rw [← h4]
      exact h3.rebuild.1
    · rw [← h4]
      exact h3.rebuild.2

end CalendarScheduler

end Ns2.Common
