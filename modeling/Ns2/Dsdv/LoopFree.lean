import Mathlib
import Ns2.Lib.DistanceVector
import Ns2.Dsdv.Agent

/-!
# DSDV is loop-free, as long as no old route is taken for waiting packets

* `routeOf`, `Tidy` — the route of an entry with its label, and what holds of the entries.
* `Advert.Timely` — no older route with a finite metric is heard while packets wait.
* `hear_spec`, `processUpdate_spec`, `makeUpdate_spec`, … — what each function does to the routes.
* `dsdv_loop_free` — every run in which all advertisements are timely.
* `old_route_taken` — a loop, when one is not.
-/

namespace Ns2.Dsdv

open DistanceVector

/-! ## Tables -/

section Tables

variable {t : RoutingTable} {d k : ℤ} {e : RtableEnt} {f : RtableEnt → RtableEnt}

theorem GetEntry_AddEntry :
    (t.AddEntry e).GetEntry d = if d = e.dst then some e else t.GetEntry d := by
  simp only [RoutingTable.GetEntry, RoutingTable.AddEntry, Std.TreeMap.getElem?_insert,
    Std.compare_eq_iff_eq, eq_comm (a := d)]

theorem GetEntry_setAt :
    (t.setAt k f).GetEntry d = if d = k then (t.GetEntry k).map f else t.GetEntry d := by
  unfold RoutingTable.setAt
  cases hk : t.GetEntry k with
  | none =>
    by_cases hd : d = k
    · rw [if_pos hd, hd, hk]
      rfl
    · rw [if_neg hd]
  | some e =>
    simp only [RoutingTable.GetEntry, Std.TreeMap.getElem?_insert, Std.compare_eq_iff_eq,
      eq_comm (a := d), Option.map_some]

theorem GetEntry_map : RoutingTable.GetEntry (t.map fun _ e => f e) d = (t.GetEntry d).map f := by
  simp only [RoutingTable.GetEntry, Std.TreeMap.getElem?_map]

/-- The route of an entry: its label, and its next hop if the metric is not infinite. -/
def RtableEnt.route (e : RtableEnt) : Route ℤ (ℕᵒᵈ ×ₗ ℕ) :=
  ⟨seqLabel e.seqnum e.metric, if e.metric ≠ BIG then some e.hop else none⟩

/-- The route for `d`. -/
def routeOf (t : RoutingTable) (d : ℤ) : Option (Route ℤ (ℕᵒᵈ ×ₗ ℕ)) :=
  (t.GetEntry d).map RtableEnt.route

theorem routeOf_AddEntry :
    routeOf (t.AddEntry e) d = if d = e.dst then some e.route else routeOf t d := by
  rw [routeOf, GetEntry_AddEntry]
  split_ifs <;> rfl

/-- Assignments to other fields leave the routes alone. -/
theorem routeOf_setAt (hf : ∀ e, (f e).route = e.route) : routeOf (t.setAt k f) d = routeOf t d := by
  rw [routeOf, GetEntry_setAt, routeOf]
  by_cases hd : d = k
  · rw [if_pos hd, hd, Option.map_map]
    exact Option.map_congr fun e _ => hf e
  · rw [if_neg hd]

/-- The entries are under their destinations, metrics are at most `BIG`, and packets wait only
where there is no route; except at `ex`. -/
def Tidy (ex : Option ℤ) (t : RoutingTable) : Prop :=
  ∀ d e, t.GetEntry d = some e →
    e.dst = d ∧ e.metric ≤ BIG ∧ (some d ≠ ex → e.q ≠ none → e.metric = BIG)

theorem Tidy.addEntry {ex : Option ℤ} (h : Tidy ex t) (hm : e.metric ≤ BIG)
    (hq : some e.dst ≠ ex → e.q ≠ none → e.metric = BIG) : Tidy ex (t.AddEntry e) := by
  intro d e' he'
  rw [GetEntry_AddEntry] at he'
  by_cases hd : d = e.dst
  · rw [if_pos hd] at he'
    obtain rfl := Option.some.inj he'
    exact ⟨hd.symm, hm, hd ▸ hq⟩
  · rw [if_neg hd] at he'
    exact h d e' he'

theorem Tidy.setAt {ex : Option ℤ} (h : Tidy ex t)
    (hf : ∀ e, t.GetEntry k = some e → (f e).dst = e.dst ∧ (f e).metric ≤ BIG ∧
      (some k ≠ ex → (f e).q ≠ none → (f e).metric = BIG)) : Tidy ex (t.setAt k f) := by
  intro d e' he'
  rw [GetEntry_setAt] at he'
  by_cases hd : d = k
  · rw [if_pos hd] at he'
    obtain ⟨e, he, rfl⟩ := Option.map_eq_some_iff.mp he'
    obtain ⟨h1, h2, h3⟩ := hf e he
    subst hd
    exact ⟨h1.trans (h d e he).1, h2, h3⟩
  · rw [if_neg hd] at he'
    exact h d e' he'

end Tables

/-! ## Packets -/

section Packets

variable {c : Config} {me k : ℤ} {t t' : RoutingTable} {p : Packet} {now : ℚ} {d : ℤ}
  {ex : Option ℤ}

/-- Packets leave the routes alone; at most there is a new entry without a next hop. -/
def KeepsRoutes (t t' : RoutingTable) : Prop :=
  ∀ d, routeOf t' d = routeOf t d ∨
    routeOf t d = none ∧ ∃ r, routeOf t' d = some r ∧ r.next = none

theorem KeepsRoutes.refl (t : RoutingTable) : KeepsRoutes t t := fun _ => Or.inl rfl

theorem KeepsRoutes.some {r : Route ℤ (ℕᵒᵈ ×ₗ ℕ)} (h : KeepsRoutes t t')
    (hr : routeOf t d = some r) : routeOf t' d = some r := by
  rcases h d with h | ⟨h, -⟩
  · exact h.trans hr
  · exact absurd (h.symm.trans hr) (by simp)

theorem KeepsRoutes.trans {t'' : RoutingTable} (h : KeepsRoutes t t') (h' : KeepsRoutes t' t'') :
    KeepsRoutes t t'' := by
  intro d
  rcases h d with hd | ⟨hd, r, hr, hn⟩
  · rcases h' d with hd' | ⟨hd', hr'⟩
    · exact Or.inl (hd'.trans hd)
    · exact Or.inr ⟨hd.symm.trans hd', hr'⟩
  · exact Or.inr ⟨hd, r, h'.some hr, hn⟩

theorem KeepsRoutes.adopts {M : Set (ℤ × (ℕᵒᵈ ×ₗ ℕ))} (h : KeepsRoutes t t') (d : ℤ) :
    Adopts M d (routeOf t d) (routeOf t' d) := by
  rcases h d with h | ⟨h, r, hr, hn⟩
  · rw [h]
    exact Adopts.refl _
  · rw [h, hr]
    exact Adopts.of_none fun w hw => absurd (hn.symm.trans hw) (by simp)

theorem keepsRoutes_setAt {f : RtableEnt → RtableEnt} (hf : ∀ e, (f e).route = e.route) :
    KeepsRoutes t (t.setAt k f) := fun _ => Or.inl (routeOf_setAt hf)

theorem forwardPacket_spec (h : Tidy ex t) :
    KeepsRoutes t (forwardPacket c t p now) ∧ Tidy ex (forwardPacket c t p now) := by
  unfold forwardPacket
  by_cases hsub : c.diff_subnet p.daddr
  · rw [if_pos hsub]
    exact ⟨KeepsRoutes.refl t, h⟩
  · rw [if_neg hsub]
    cases he : t.GetEntry p.daddr with
    | some e =>
      by_cases hm : e.metric ≠ BIG
      · simp only [if_pos hm]
        exact ⟨KeepsRoutes.refl t, h⟩
      · simp only [if_neg hm]
        refine ⟨keepsRoutes_setAt fun _ => rfl, h.setAt fun e' he' => ?_⟩
        obtain rfl := Option.some.inj (he.symm.trans he')
        have hbig : e.metric = BIG := not_not.mp hm
        exact ⟨rfl, hbig.le, fun _ _ => hbig⟩
    | none =>
      refine ⟨fun d => ?_, h.addEntry le_rfl fun _ _ => rfl⟩
      rw [routeOf_AddEntry]
      by_cases hd : d = p.daddr
      · refine Or.inr ⟨by rw [routeOf, hd, he]; rfl, _, if_pos hd, ?_⟩
        simp [RtableEnt.route]
      · exact Or.inl (if_neg hd)

variable (c me p now) in
theorem recv_spec (h : Tidy ex t) :
    KeepsRoutes t (recv c me t p now) ∧ Tidy ex (recv c me t p now) := by
  unfold recv
  cases ttlOf me p with
  | none => exact ⟨KeepsRoutes.refl t, h⟩
  | some p =>
    dsimp only
    split_ifs
    · exact ⟨KeepsRoutes.refl t, h⟩
    · exact forwardPacket_spec h

theorem resend_spec {n : ℕ} (h : Tidy (some k) t) (hr : resend c me k now n t = some t') :
    KeepsRoutes t t' ∧ Tidy (some k) t' := by
  induction n generalizing t with
  | zero => exact absurd hr (by simp [resend])
  | succ n ih =>
    rw [resend] at hr
    split at hr
    · rename_i p ps _
      have h₁ : Tidy (some k) (t.setAt k fun e => { e with q := some ps }) :=
        h.setAt fun e he => ⟨rfl, (h k e he).2.1, fun hne => absurd rfl hne⟩
      obtain ⟨hk₁, ht₁⟩ := recv_spec c me p now h₁
      obtain ⟨hk₂, ht₂⟩ := ih ht₁ hr
      have hk : KeepsRoutes t (t.setAt k fun e => { e with q := some ps }) :=
        keepsRoutes_setAt fun _ => rfl
      exact ⟨(hk.trans hk₁).trans hk₂, ht₂⟩
    · obtain rfl := Option.some.inj hr
      exact ⟨KeepsRoutes.refl t, h⟩

end Packets

/-! ## Updates that are received -/

/-- The metric that a route over the sender has. -/
def Advert.newMetric (a : Advert) : ℕ := if a.metric ≠ BIG then a.metric + 1 else a.metric

/-- If packets wait for the destination, then the advertisement has no route, or it is not
older than the entry. -/
def Advert.Timely (me : ℤ) (t : RoutingTable) (a : Advert) : Prop :=
  ∀ e, a.dst ≠ me → t.GetEntry a.dst = some e → e.q ≠ none → a.newMetric ≠ BIG →
    e.seqnum ≤ a.seqnum

section Updates

variable {c : Config} {me src : ℤ} {n : ℕ} {t t' : RoutingTable} {a : Advert} {now : ℚ}
  {prte : Option RtableEnt} {e rte : RtableEnt}

variable (c src a now) in
theorem newRte_fields (prte : Option RtableEnt) :
    (newRte c src prte a now).dst = a.dst ∧ (newRte c src prte a now).hop = src ∧
      (newRte c src prte a now).metric = a.newMetric ∧
      (newRte c src prte a now).seqnum = a.seqnum ∧
      (newRte c src prte a now).q = prte.bind RtableEnt.q := by
  cases prte <;> exact ⟨rfl, rfl, rfl, rfl, rfl⟩

variable (t now) in
/-- The entry is written, with other flags, or the routes stay as they are. -/
theorem decideUpdate_cases (prte : Option RtableEnt) (rte : RtableEnt) :
    (∃ rte', decideUpdate t prte rte now = (t.AddEntry rte', rte') ∧ rte'.dst = rte.dst ∧
      rte'.route = rte.route ∧ rte'.metric = rte.metric ∧ rte'.q = rte.q ∧
      ∀ e, prte = some e →
        (e.seqnum = rte.seqnum ∧ rte.metric < e.metric) ∨ e.seqnum < rte.seqnum) ∨
    (∃ t', decideUpdate t prte rte now = (t', rte) ∧ KeepsRoutes t t' ∧
      (Tidy none t → Tidy none t') ∧
      ∃ e, prte = some e ∧
        ((e.seqnum = rte.seqnum ∧ e.metric ≤ rte.metric) ∨ rte.seqnum < e.seqnum)) := by
  unfold decideUpdate
  cases prte with
  | none =>
    refine Or.inl ⟨_, rfl, ?_, ?_, ?_, ?_, by simp⟩
    all_goals split_ifs <;> rfl
  | some e =>
    dsimp only
    split_ifs with h1 h2 h3 h4
    · exact Or.inl ⟨_, rfl, rfl, rfl, rfl, rfl, fun e' he' =>
        Option.some.inj he' ▸ Or.inl ⟨h1, h2⟩⟩
    · exact Or.inr ⟨t, rfl, KeepsRoutes.refl t, id, e, rfl, Or.inl ⟨h1, not_lt.mp h2⟩⟩
    · exact Or.inl ⟨_, rfl, rfl, rfl, rfl, rfl, fun e' he' => Option.some.inj he' ▸ Or.inr h3⟩
    · refine Or.inr ⟨_, rfl, keepsRoutes_setAt fun _ => rfl, fun h => ?_, e, rfl, Or.inr (by omega)⟩
      exact h.setAt fun e' he' => ⟨rfl, (h _ e' he').2.1, fun _ => (h _ e' he').2.2 (by simp)⟩
    · exact Or.inr ⟨t, rfl, KeepsRoutes.refl t, id, e, rfl, Or.inr (by omega)⟩

/-- Writing an entry that is newer, or as new and shorter, or the first one. -/
theorem adopts_addEntry {M : Set (ℤ × (ℕᵒᵈ ×ₗ ℕ))} (hM : (src, seqLabel a.seqnum a.metric) ∈ M)
    (hdst : rte.dst = a.dst) (hroute : rte.route = (newRte c src prte a now).route)
    (hprte : t.GetEntry a.dst = prte)
    (hbetter : ∀ e, prte = some e →
      (e.seqnum = a.seqnum ∧ a.newMetric < e.metric) ∨ e.seqnum < a.seqnum) :
    Adopts M a.dst (routeOf t a.dst) (routeOf (t.AddEntry rte) a.dst) := by
  obtain ⟨-, hhop, hmetric, hseq, -⟩ := newRte_fields c src a now prte
  have hnew : rte.route = ⟨seqLabel a.seqnum a.newMetric,
      if a.newMetric ≠ BIG then some src else none⟩ := by
    rw [hroute, RtableEnt.route, hhop, hmetric, hseq]
  have hnext : ∀ w, rte.route.next = some w →
      w = a.dst ∨ ∃ l, (w, l) ∈ M ∧ l < rte.route.label := by
    rw [hnew]
    intro w hw
    by_cases hbig : a.newMetric ≠ BIG
    · simp only [if_pos hbig, Option.some.injEq] at hw
      subst hw
      refine Or.inr ⟨_, hM, seqLabel_lt_iff.mpr (Or.inr ⟨rfl, ?_⟩)⟩
      unfold Advert.newMetric at hbig ⊢
      by_cases hm : a.metric ≠ BIG
      · rw [if_pos hm]
        exact Nat.lt_succ_self _
      · rw [if_neg hm] at hbig
        exact absurd hbig hm
    · simp [hbig] at hw
  rw [routeOf_AddEntry, if_pos hdst.symm, routeOf, hprte]
  cases prte with
  | none => exact Adopts.of_none hnext
  | some e =>
    refine Adopts.of_le ?_ hnext
    rw [hnew]
    refine seqLabel_le_iff.mpr ?_
    rcases hbetter e rfl with ⟨h1, h2⟩ | h
    · exact Or.inr ⟨h1.symm, h2.le⟩
    · exact Or.inl h

theorem Advert.newMetric_le (hmetric : a.metric ≤ BIG) : a.newMetric ≤ BIG := by
  unfold Advert.newMetric
  split_ifs with hm
  · omega
  · exact hmetric

/-- An entry is written, the packets that waited for it are sent again, and it is written without
them: then no packets wait, and the routes are those after the first time. -/
theorem flushed_spec {t₂ : RoutingTable} (h : Tidy none t) (hle : rte.metric ≤ BIG)
    (hr : resend c me rte.dst now n (t.AddEntry rte) = some t₂) :
    Tidy none (t₂.AddEntry { rte with q := none }) ∧ ∀ (M : Set (ℤ × (ℕᵒᵈ ×ₗ ℕ))) (d : ℤ),
      Adopts M d (routeOf (t.AddEntry rte) d) (routeOf (t₂.AddEntry { rte with q := none }) d) := by
  have htidy : Tidy (some rte.dst) (t.AddEntry rte) := by
    have ht : Tidy (some rte.dst) t := fun d e he =>
      ⟨(h d e he).1, (h d e he).2.1, fun _ => (h d e he).2.2 (by simp)⟩
    exact ht.addEntry hle fun hne => absurd rfl hne
  obtain ⟨hkeep, htidy₂⟩ := resend_spec htidy hr
  have hat : routeOf t₂ rte.dst = some rte.route :=
    hkeep.some (by rw [routeOf_AddEntry, if_pos rfl])
  refine ⟨fun d e he => ?_, fun M d => (hkeep.adopts d).trans ?_⟩
  · rw [GetEntry_AddEntry] at he
    by_cases hd : d = rte.dst
    · rw [if_pos hd] at he
      obtain rfl := Option.some.inj he
      exact ⟨hd.symm, hle, fun _ hne => absurd rfl hne⟩
    · rw [if_neg hd] at he
      obtain ⟨h1, h2, h3⟩ := htidy₂ d e he
      exact ⟨h1, h2, fun _ => h3 (by simpa using hd)⟩
  · rw [routeOf_AddEntry]
    by_cases hd : d = rte.dst
    · rw [if_pos hd, hd, hat]
      exact Adopts.refl _
    · rw [if_neg hd]
      exact Adopts.refl _

/-- **One advertisement.** -/
theorem hear_spec {M : ℤ → Set (ℤ × (ℕᵒᵈ ×ₗ ℕ))} (h : Tidy none t) (hmetric : a.metric ≤ BIG)
    (hM : (src, seqLabel a.seqnum a.metric) ∈ M a.dst) (htimely : a.Timely me t)
    (hr : hear c me src n t a now = some t') :
    Tidy none t' ∧ ∀ d, Adopts (M d) d (routeOf t d) (routeOf t' d) := by
  unfold hear at hr
  by_cases hme : a.dst = me
  · rw [if_pos hme] at hr
    obtain rfl := Option.some.inj hr
    exact ⟨h, fun d => Adopts.refl _⟩
  rw [if_neg hme] at hr
  dsimp only at hr
  obtain ⟨hdst, -, hm, hseq, hq⟩ :=
    newRte_fields c src a now (t.GetEntry a.dst)
  have hnew : a.newMetric ≤ BIG := Advert.newMetric_le hmetric
  rcases decideUpdate_cases t now (t.GetEntry a.dst)
    (newRte c src (t.GetEntry a.dst) a now) with
    ⟨rte, hd, hdst', hroute, hm', hq', hbetter⟩ | ⟨t₁, hd, hkeep, htidy, e, he, hworse⟩
  · -- the entry is written
    rw [hd] at hr
    rw [hdst] at hdst'
    rw [hm] at hm'
    rw [hseq, hm] at hbetter
    have hadopt : ∀ d, Adopts (M d) d (routeOf t d) (routeOf (t.AddEntry rte) d) := by
      intro d
      by_cases hda : d = a.dst
      · subst hda
        exact adopts_addEntry hM hdst' hroute rfl hbetter
      · rw [routeOf_AddEntry, if_neg (hdst' ▸ hda)]
        exact Adopts.refl _
    by_cases hflush : rte.q ≠ none ∧ rte.metric ≠ BIG
    · simp only [if_pos hflush] at hr
      obtain ⟨t₂, hres, rfl⟩ := Option.map_eq_some_iff.mp hr
      obtain ⟨htidy, hsame⟩ := flushed_spec h (hm' ▸ hnew) (hdst'.symm ▸ hres)
      exact ⟨htidy, fun d => (hadopt d).trans (hsame (M d) d)⟩
    · simp only [if_neg hflush] at hr
      obtain rfl := Option.some.inj hr
      refine ⟨h.addEntry (hm' ▸ hnew) fun _ hne => ?_, hadopt⟩
      by_contra hbig
      exact hflush ⟨hne, hbig⟩
  · -- the routes stay; then no packets wait, or the advertisement has no route
    rw [hd] at hr
    have hnoflush : ¬ ((newRte c src (t.GetEntry a.dst) a now).q ≠ none ∧
        (newRte c src (t.GetEntry a.dst) a now).metric ≠ BIG) := by
      rw [hq, hm, he, Option.bind_some]
      rintro ⟨hqe, hfin⟩
      have hbig := (h a.dst e he).2.2 (by simp) hqe
      have hle := htimely e hme he hqe hfin
      rw [hseq, hm] at hworse
      have hlt : a.newMetric < BIG := lt_of_le_of_ne hnew hfin
      omega
    simp only [if_neg hnoflush] at hr
    obtain rfl := Option.some.inj hr
    exact ⟨htidy h, fun d => hkeep.adopts d⟩

/-- All advertisements are timely when they are heard. -/
def AllTimely (c : Config) (me src : ℤ) (n : ℕ) (now : ℚ) : List Advert → RoutingTable → Prop
  | [], _ => True
  | a :: as, t => a.Timely me t ∧
      ∀ t', hear c me src n t a now = some t' → AllTimely c me src n now as t'

theorem hearAll_spec {M : ℤ → Set (ℤ × (ℕᵒᵈ ×ₗ ℕ))} {as : List Advert} (h : Tidy none t)
    (hmetric : ∀ a ∈ as, a.metric ≤ BIG)
    (hM : ∀ a ∈ as, (src, seqLabel a.seqnum a.metric) ∈ M a.dst)
    (htimely : AllTimely c me src n now as t) (hr : hearAll c me src n now as t = some t') :
    Tidy none t' ∧ ∀ d, Adopts (M d) d (routeOf t d) (routeOf t' d) := by
  induction as generalizing t with
  | nil =>
    obtain rfl := Option.some.inj hr
    exact ⟨h, fun d => Adopts.refl _⟩
  | cons a as ih =>
    obtain ⟨t₁, hhear, hrest⟩ := Option.bind_eq_some_iff.mp hr
    obtain ⟨htidy, hadopt⟩ := hear_spec h (hmetric a List.mem_cons_self) (hM a List.mem_cons_self)
      htimely.1 hhear
    obtain ⟨htidy', hadopt'⟩ := ih htidy (fun b hb => hmetric b (List.mem_cons_of_mem _ hb))
      (fun b hb => hM b (List.mem_cons_of_mem _ hb)) (htimely.2 t₁ hhear) hrest
    exact ⟨htidy', fun d => (hadopt d).trans (hadopt' d)⟩

theorem touch_spec {M : ℤ → Set (ℤ × (ℕᵒᵈ ×ₗ ℕ))} (h : Tidy none t) :
    Tidy none (touch c src t now) ∧
      ∀ d, Adopts (M d) d (routeOf t d) (routeOf (touch c src t now) d) := by
  unfold touch
  cases he : t.GetEntry src with
  | some e =>
    have hkeep : KeepsRoutes t (t.setAt src fun e => { e with timeout_event := true }) :=
      keepsRoutes_setAt fun _ => rfl
    exact ⟨h.setAt fun e' he' => ⟨rfl, (h src e' he').2⟩, fun d => hkeep.adopts d⟩
  | none =>
    have hbig : 1 ≤ BIG := by decide
    refine ⟨h.addEntry hbig fun _ hne => absurd rfl hne, fun d => ?_⟩
    rw [routeOf_AddEntry]
    by_cases hd : d = src
    · -- the route to a neighbor never heard of before leads to the neighbor itself
      rw [if_pos hd, routeOf, hd, he]
      refine Adopts.of_none fun w hw => Or.inl ?_
      exact (Option.some.inj hw).symm
    · rw [if_neg hd]
      exact Adopts.refl _

theorem processUpdate_spec {M : ℤ → Set (ℤ × (ℕᵒᵈ ×ₗ ℕ))} {as : List Advert} (h : Tidy none t)
    (hmetric : ∀ a ∈ as, a.metric ≤ BIG)
    (hM : ∀ a ∈ as, (src, seqLabel a.seqnum a.metric) ∈ M a.dst)
    (htimely : AllTimely c me src n now as t)
    (hr : processUpdate c me src n t as now = some t') :
    Tidy none t' ∧ ∀ d, Adopts (M d) d (routeOf t d) (routeOf t' d) := by
  obtain ⟨t₁, hall, rfl⟩ := Option.map_eq_some_iff.mp hr
  obtain ⟨htidy, hadopt⟩ := hearAll_spec h hmetric hM htimely hall
  obtain ⟨htidy', hadopt'⟩ := touch_spec (M := M) htidy
  exact ⟨htidy', fun d => (hadopt d).trans (hadopt' d)⟩

end Updates

/-! ## Neighbors that are silent or lost -/

section Neighbors

variable {c : Config} {me nb : ℤ} {t : RoutingTable} {p : Packet} {now : ℚ}

variable (nb now) in
theorem helper_callback_spec {M : ℤ → Set (ℤ × (ℕᵒᵈ ×ₗ ℕ))} (h : Tidy none t) :
    Tidy none (helper_callback t nb now) ∧
      ∀ d, Adopts (M d) d (routeOf t d) (routeOf (helper_callback t nb now) d) := by
  have htidy : Tidy none (t.map fun _ e => e.down nb now) := by
    intro d e he
    rw [GetEntry_map] at he
    obtain ⟨e₀, he₀, rfl⟩ := Option.map_eq_some_iff.mp he
    obtain ⟨h1, h2, h3⟩ := h d e₀ he₀
    unfold RtableEnt.down
    split_ifs with hdown
    · exact ⟨h1, le_rfl, fun _ _ => rfl⟩
    · exact ⟨h1, h2, h3⟩
  refine ⟨htidy.setAt fun e he => ⟨rfl, (htidy nb e he).2⟩, fun d => ?_⟩
  have hroute : routeOf (helper_callback t nb now) d = routeOf (t.map fun _ e => e.down nb now) d :=
    routeOf_setAt fun _ => rfl
  rw [hroute, routeOf, routeOf, GetEntry_map, Option.map_map]
  cases t.GetEntry d with
  | none => exact Adopts.refl _
  | some e =>
    simp only [Option.map_some, Function.comp_apply]
    unfold RtableEnt.down
    split_ifs with hdown
    · exact Adopts.give_up (seqLabel_le_iff.mpr (Or.inl (Nat.lt_succ_self _))) (by simp [RtableEnt.route])
    · exact Adopts.refl _

variable (c me nb p now) in
theorem lost_link_spec {M : ℤ → Set (ℤ × (ℕᵒᵈ ×ₗ ℕ))} (h : Tidy none t) :
    Tidy none (lost_link c me t nb p now) ∧
      ∀ d, Adopts (M d) d (routeOf t d) (routeOf (lost_link c me t nb p now) d) := by
  unfold lost_link
  cases t.GetEntry nb with
  | none => exact ⟨h, fun d => Adopts.refl _⟩
  | some e =>
    dsimp only
    split_ifs
    · obtain ⟨htidy, hadopt⟩ := helper_callback_spec nb now (M := M) h
      obtain ⟨hkeep, htidy'⟩ := recv_spec c me p now htidy
      exact ⟨htidy', fun d => (hadopt d).trans (hkeep.adopts d)⟩
    · obtain ⟨hkeep, htidy⟩ := recv_spec c me p now h
      exact ⟨htidy, fun d => hkeep.adopts d⟩

end Neighbors

/-! ## Updates that are sent -/

section Sending

variable {a a' : Agent} {now : ℚ} {periodic : Bool} {k : ℕ} {o : Option (List Advert)} {d : ℤ}

theorem advertised_fields (periodic : Bool) (now : ℚ) (e : RtableEnt) :
    (e.advertised periodic now).route = e.route ∧ (e.advertised periodic now).dst = e.dst ∧
      (e.advertised periodic now).metric = e.metric ∧ (e.advertised periodic now).q = e.q := by
  unfold RtableEnt.advertised
  split_ifs <;> exact ⟨rfl, rfl, rfl, rfl⟩

/-- What is advertised is in the table, and the routes stay. -/
theorem writeUpdate_spec (h : Tidy none a.table_) (hr : writeUpdate a periodic k now = (a', o)) :
    a'.myaddr_ = a.myaddr_ ∧ Tidy none a'.table_ ∧ (∀ d, routeOf a'.table_ d = routeOf a.table_ d) ∧
      ∀ as, o = some as → ∀ b ∈ as, b.metric ≤ BIG ∧
        ∃ r, routeOf a'.table_ b.dst = some r ∧ r.label = seqLabel b.seqnum b.metric := by
  unfold writeUpdate at hr
  split_ifs at hr
  · obtain ⟨rfl, rfl⟩ := Prod.mk.inj hr
    exact ⟨rfl, h, fun d => rfl, by simp⟩
  · obtain ⟨rfl, rfl⟩ := Prod.mk.inj hr
    have hroute : ∀ d, routeOf (a.table_.map fun _ e => e.advertised periodic now) d =
        routeOf a.table_ d := by
      intro d
      rw [routeOf, GetEntry_map, Option.map_map, routeOf]
      exact Option.map_congr fun e _ => (advertised_fields periodic now e).1
    refine ⟨rfl, fun d e he => ?_, hroute, ?_⟩
    · dsimp only at he
      rw [GetEntry_map] at he
      obtain ⟨e₀, he₀, rfl⟩ := Option.map_eq_some_iff.mp he
      obtain ⟨-, h1, h2, h3⟩ := advertised_fields periodic now e₀
      rw [h1, h2, h3]
      exact h d e₀ he₀
    · intro as has b hb
      obtain rfl := Option.some.inj has
      obtain ⟨e, he, rfl⟩ := List.mem_map.mp (List.mem_of_mem_take hb)
      have hval := (List.mem_filter.mp he).1
      obtain ⟨⟨k, e'⟩, hke, rfl⟩ := List.mem_map.mp hval
      have hget : a.table_.GetEntry k = some e' :=
        Std.TreeMap.mem_toList_iff_getElem?_eq_some.mp hke
      obtain ⟨h1, h2, -⟩ := h k e' hget
      dsimp only at h1 ⊢
      refine ⟨h2, e'.route, ?_, rfl⟩
      rw [hroute, routeOf, h1, hget, Option.map_some]

/-- **`makeUpdate`**: the routes to other nodes stay, and what is advertised is in the table. -/
theorem makeUpdate_spec (h : Tidy none a.table_) (hr : makeUpdate a periodic now = (a', o)) :
    a'.myaddr_ = a.myaddr_ ∧ Tidy none a'.table_ ∧
      (∀ d, d ≠ a.myaddr_ → routeOf a'.table_ d = routeOf a.table_ d) ∧
      ∀ as, o = some as → ∀ b ∈ as, b.metric ≤ BIG ∧
        ∃ r, routeOf a'.table_ b.dst = some r ∧ r.label = seqLabel b.seqnum b.metric := by
  unfold makeUpdate at hr
  dsimp only at hr
  split_ifs at hr
  · have htidy : Tidy none (a.table_.AddEntry (a.ownEntry now)) :=
      h.addEntry (Nat.zero_le _) fun _ hne => absurd rfl hne
    obtain ⟨h1, h2, h3, h4⟩ := writeUpdate_spec htidy hr
    refine ⟨h1, h2, fun d hd => ?_, h4⟩
    rw [h3]
    dsimp only
    rw [routeOf_AddEntry, if_neg]
    exact hd
  · obtain ⟨h1, h2, h3, h4⟩ := writeUpdate_spec h hr
    exact ⟨h1, h2, fun d _ => h3 d, h4⟩

end Sending

/-! ## Runs -/

section Runs

variable {c : Config} {w w' : World} {n : ℕ} {u : ℤ} {now : ℚ} {ev : Event}

/-- The labels that have been advertised for `d`. -/
def World.advertised (w : World) (d : ℤ) : Set (ℤ × (ℕᵒᵈ ×ₗ ℕ)) :=
  {x | ∃ as, (x.1, as) ∈ w.sent ∧ ∃ b ∈ as, b.dst = d ∧ x.2 = seqLabel b.seqnum b.metric}

/-- The invariant of a network. -/
structure World.Inv (w : World) : Prop where
  addr : ∀ u, (w.agent u).myaddr_ = u
  tidy : ∀ u, Tidy none (w.agent u).table_
  metric_le : ∀ src as, (src, as) ∈ w.sent → ∀ b ∈ as, b.metric ≤ BIG
  sound : ∀ d, Sound (w.advertised d) d fun u => routeOf (w.agent u).table_ d

/-- In an update, all advertisements are timely when they are heard. -/
def Event.Timely (c : Config) (n : ℕ) (w : World) (u : ℤ) (now : ℚ) : Event → Prop
  | .update src as => AllTimely c u src n now as (w.agent u).table_
  | _ => True

/-- One step of a run. -/
def AnyStep (c : Config) (w w' : World) : Prop :=
  ∃ n u now ev, Event.Possible w u ev ∧ w.step c n u now ev = some w'

/-- One step of a run in which all advertisements are timely. -/
def Step (c : Config) (w w' : World) : Prop :=
  ∃ n u now ev, Event.Possible w u ev ∧ Event.Timely c n w u now ev ∧ w.step c n u now ev = some w'

theorem init_inv (now : ℚ) : (World.init now).Inv where
  addr _ := rfl
  tidy u := by
    have hempty : Tidy none (∅ : RoutingTable) := fun d e he =>
      absurd (Std.TreeMap.getElem?_emptyc.symm.trans he) (by simp)
    exact hempty.addEntry (Nat.zero_le _) fun _ hne => absurd rfl hne
  metric_le src as h := absurd h List.not_mem_nil
  sound d := by
    refine Sound.init (fun v l hl => ?_) fun v hv => ?_
    · obtain ⟨as, has, -⟩ := hl
      exact absurd has List.not_mem_nil
    · have hroute : routeOf (Agent.startUp v now).table_ d = none := by
        rw [Agent.startUp, routeOf_AddEntry, if_neg (Ne.symm hv), routeOf,
          RoutingTable.GetEntry, Std.TreeMap.getElem?_emptyc, Option.map_none]
      rw [nextHop, World.init]
      dsimp only
      rw [hroute, Option.bind_none]

/-- What one agent does to its routes, and what it advertises. -/
theorem react_spec {a' : Agent} {o : Option (List Advert)} (h : w.Inv)
    (hp : ev.Possible w u) (ht : ev.Timely c n w u now)
    (hr : (w.agent u).react c n now ev = some (a', o)) :
    a'.myaddr_ = u ∧ Tidy none a'.table_ ∧
      (∀ d, d ≠ u → Adopts (w.advertised d) d (routeOf (w.agent u).table_ d) (routeOf a'.table_ d)) ∧
      ∀ as, o = some as → ∀ b ∈ as, b.metric ≤ BIG ∧
        ∃ r, routeOf a'.table_ b.dst = some r ∧ r.label = seqLabel b.seqnum b.metric := by
  have haddr := h.addr u
  have htidy := h.tidy u
  cases ev with
  | send periodic =>
    obtain ⟨h1, h2, h3, h4⟩ := makeUpdate_spec htidy (Option.some.inj hr)
    refine ⟨h1.trans haddr, h2, fun d hd => ?_, h4⟩
    rw [h3 d (by rwa [haddr])]
    exact Adopts.refl _
  | update src as =>
    obtain ⟨t', hproc, heq⟩ := Option.map_eq_some_iff.mp hr
    obtain ⟨rfl, rfl⟩ := Prod.mk.inj heq
    rw [haddr] at hproc
    obtain ⟨h1, h2⟩ := processUpdate_spec (M := w.advertised) htidy (h.metric_le src as hp.2)
      (fun b hb => ⟨as, hp.2, b, hb, rfl, rfl⟩) ht hproc
    exact ⟨haddr, h1, fun d _ => h2 d, by simp⟩
  | packet p =>
    obtain ⟨rfl, rfl⟩ := Prod.mk.inj (Option.some.inj hr)
    obtain ⟨h1, h2⟩ := recv_spec c (w.agent u).myaddr_ p now htidy
    exact ⟨haddr, h2, fun d _ => h1.adopts d, by simp⟩
  | timeout nb =>
    obtain ⟨rfl, rfl⟩ := Prod.mk.inj (Option.some.inj hr)
    obtain ⟨h1, h2⟩ := helper_callback_spec nb now (M := w.advertised) htidy
    exact ⟨haddr, h1, fun d _ => h2 d, by simp⟩
  | lost next_hop_ p =>
    obtain ⟨rfl, rfl⟩ := Prod.mk.inj (Option.some.inj hr)
    obtain ⟨h1, h2⟩ := lost_link_spec c (w.agent u).myaddr_ next_hop_ p now
      (M := w.advertised) htidy
    exact ⟨haddr, h1, fun d _ => h2 d, by simp⟩

theorem Step.inv (h : w.Inv) (hstep : Step c w w') : w'.Inv := by
  obtain ⟨n, u, now, ev, hp, ht, hs⟩ := hstep
  obtain ⟨⟨a', o⟩, hr, hw'⟩ := Option.map_eq_some_iff.mp hs
  obtain ⟨h1, h2, h3, h4⟩ := react_spec h hp ht hr
  have hself : w'.agent u = a' := by
    rw [← hw']
    exact Function.update_self _ _ _
  have hother : ∀ v, v ≠ u → w'.agent v = w.agent v := fun v hv => by
    rw [← hw']
    exact Function.update_of_ne hv _ _
  have hsent : ∀ src as, (src, as) ∈ w'.sent → (src, as) ∈ w.sent ∨ src = u ∧ o = some as := by
    intro src as hmem
    rw [← hw'] at hmem
    rcases List.mem_append.mp hmem with hmem | hmem
    · obtain ⟨as', has', heq⟩ := Option.map_eq_some_iff.mp (Option.mem_toList.mp hmem)
      obtain ⟨rfl, rfl⟩ := Prod.mk.inj heq
      exact Or.inr ⟨rfl, has'⟩
    · exact Or.inl hmem
  refine ⟨fun v => ?_, fun v => ?_, fun src as hmem b hb => ?_, fun d => ?_⟩
  · by_cases hv : v = u
    · rw [hv, hself, h1]
    · rw [hother v hv, h.addr]
  · by_cases hv : v = u
    · rw [hv, hself]
      exact h2
    · rw [hother v hv]
      exact h.tidy v
  · rcases hsent src as hmem with hmem | ⟨-, ho⟩
    · exact h.metric_le src as hmem b hb
    · exact (h4 as ho b hb).1
  · refine (h.sound d).step (u := u) (fun v hv => by rw [hother v hv]) (fun hu => ?_) ?_
    · rw [hself]
      exact h3 d (Ne.symm hu)
    · rintro v l ⟨as, hmem, b, hb, rfl, rfl⟩
      rcases hsent v as hmem with hmem | ⟨rfl, ho⟩
      · exact Or.inl ⟨as, hmem, b, hb, rfl, rfl⟩
      · refine Or.inr (Or.inr ⟨rfl, ?_⟩)
        obtain ⟨-, r, hroute, hlabel⟩ := h4 as ho b hb
        rw [hself]
        exact ⟨r, hroute, hlabel.le⟩

/-- **DSDV is loop-free**, in every state of every run in which no older route with a finite
metric is heard while packets wait for the destination. -/
theorem dsdv_loop_free {now : ℚ} (h : Relation.ReflTransGen (Step c) (World.init now) w) (d : ℤ) :
    LoopFree (w.hop d) d := by
  have hinv : w.Inv := by
    induction h with
    | refl => exact init_inv now
    | tail _ hstep ih => exact hstep.inv ih
  have hhop : w.hop d = fun u => nextHop (routeOf (w.agent u).table_ d) := by
    funext u
    rw [World.hop, nextHop, routeOf]
    cases (w.agent u).table_.GetEntry d <;> rfl
  rw [hhop]
  exact (hinv.sound d).loopFree

theorem run_reaches {l : List (ℤ × ℚ × Event)} (h : w.run c n l = some w') :
    Relation.ReflTransGen (AnyStep c) w w' := by
  induction l generalizing w with
  | nil =>
    obtain rfl := Option.some.inj h
    exact Relation.ReflTransGen.refl
  | cons x l ih =>
    obtain ⟨u, now, ev⟩ := x
    rw [World.run] at h
    by_cases hp : ev.Possible w u
    · rw [if_pos hp] at h
      obtain ⟨w₁, hs, hrest⟩ := Option.bind_eq_some_iff.mp h
      exact Relation.ReflTransGen.head ⟨n, u, now, ev, hp, hs⟩ (ih hrest)
    · rw [if_neg hp] at h
      exact absurd h (by simp)

end Runs

/-! ## Two runs -/

/-- The constants of the code, and one domain. -/
def oneDomain : Config := ⟨7 / 8, 6, fun _ => false, -1⟩

/-- Node 0 advertises itself. -/
def firstUpdate : List (ℤ × ℚ × Event) := [(0, 1, .send true)]

/-- Node 1 hears of its neighbor 0. -/
theorem loop_free_neighbors : ∃ w : World, w.hop 0 1 = some 0 ∧ LoopFree (w.hop 0) 0 := by
  have hrun : ((World.init 0).run oneDomain 5 firstUpdate).map
      (fun w => (w.sent, ((w.agent 1).table_.GetEntry 0).isNone)) =
      some ([(0, [⟨0, 0, 4⟩])], true) := by decide +kernel
  have hrun' : (((World.init 0).run oneDomain 5 firstUpdate).bind fun w =>
      w.step oneDomain 5 1 2 (.update 0 [⟨0, 0, 4⟩])).map (fun w => w.hop 0 1) =
      some (some 0) := by decide +kernel
  obtain ⟨w₁, h₁, hw₁⟩ := Option.map_eq_some_iff.mp hrun
  obtain ⟨w₂, h₂, hhop⟩ := Option.map_eq_some_iff.mp hrun'
  obtain ⟨hsent, hnone⟩ := Prod.mk.inj hw₁
  rw [h₁, Option.bind_some] at h₂
  have hpos : (Event.send true).Possible (World.init 0) 0 := trivial
  have hstep₁ : Step oneDomain (World.init 0) w₁ := by
    rw [firstUpdate, World.run, if_pos hpos] at h₁
    obtain ⟨w, hs, heq⟩ := Option.bind_eq_some_iff.mp h₁
    exact ⟨5, 0, 1, .send true, hpos, trivial, hs.trans heq⟩
  have hstep₂ : Step oneDomain w₁ w₂ := by
    refine ⟨5, 1, 2, .update 0 [⟨0, 0, 4⟩], ⟨by decide, ?_⟩, ⟨?_, fun _ _ => trivial⟩, h₂⟩
    · rw [hsent]
      exact List.mem_singleton.mpr rfl
    · intro e _ he
      rw [he] at hnone
      exact absurd hnone (by simp)
  exact ⟨w₂, hhop, dsdv_loop_free ((Relation.ReflTransGen.single hstep₁).tail hstep₂) 0⟩

/-- Node 1 has lost its neighbor 0, keeps a packet of node 2 for it, and then hears the old route
of node 2, which leads over node 1. -/
def oldRoute : List (ℤ × ℚ × Event) :=
  [(0, 1, .send true), (1, 2, .update 0 [⟨0, 0, 4⟩]), (1, 20, .send true),
    (2, 21, .update 1 [⟨0, 1, 4⟩, ⟨1, 0, 4⟩]), (2, 40, .send true), (1, 60, .timeout 0),
    (1, 61, .packet ⟨2, 0, 3, 1⟩), (1, 62, .update 2 [⟨0, 2, 4⟩, ⟨1, 1, 4⟩, ⟨2, 0, 4⟩])]

/-- **A loop.**  When the waiting packets have been given to `recv` again, the entry is written
with the old route that had been refused before. -/
theorem old_route_taken :
    ∃ w, Relation.ReflTransGen (AnyStep oneDomain) (World.init 0) w ∧ ¬ LoopFree (w.hop 0) 0 := by
  have hrun : ((World.init 0).run oneDomain 10 oldRoute).map (fun w => (w.hop 0 1, w.hop 0 2)) =
      some (some 2, some 1) := by decide +kernel
  obtain ⟨w, hw, hhops⟩ := Option.map_eq_some_iff.mp hrun
  obtain ⟨h1, h2⟩ := Prod.mk.inj hhops
  refine ⟨w, run_reaches hw, fun hfree => ?_⟩
  refine hfree (fun i => if i % 2 = 0 then 1 else 2) 2 (fun i hi => ?_) 0 2 (by decide) le_rfl rfl
  interval_cases i
  · exact ⟨by decide, h1⟩
  · exact ⟨by decide, h2⟩

end Ns2.Dsdv
