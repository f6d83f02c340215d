import Ns2.Dsdv.Agent

/-!
# The bytes of an update

`makeUpdate` of `dsdv/dsdv.cc` as it fills a packet, and the loop of `processUpdate` that reads
it.  The number of records is counted in one pass over the table, sent in one byte, and trusted
by the reader; a second pass writes the records.

* `UpdatePacket`, `writeLoop`, `makeUpdatePacket` — the buffer, the second pass, the packet.
* `readLoop`, `readUpdate` — the reader.
* `readUpdate_makeUpdatePacket` — the reader gets what `makeUpdate` of the agent sends.
* `carries_iff` — when an update carries all that is due.
-/

namespace Ns2.Dsdv

/-- An `unsigned char`. -/
abbrev Byte := Fin 256

/-- What an assignment to `*walk` keeps of a number. -/
def toByte (x : ℤ) : Byte := ⟨(x % 256).toNat, by omega⟩

/-- The four bytes of a word. -/
def word (x : ℤ) : List Byte :=
  [toByte (x >>> (24 : ℕ)), toByte (x >>> (16 : ℕ)), toByte (x >>> (8 : ℕ)), toByte x]

/-- The nine bytes of an entry. -/
def RtableEnt.record (e : RtableEnt) : List Byte := word e.dst ++ toByte e.metric :: word e.seqnum

/-! ## Writing -/

structure UpdatePacket where
  /-- The number of bytes allocated. -/
  size : ℕ
  /-- What is written, from the start of the buffer on. -/
  data : List Byte
  change_count : ℤ

/-- The second pass over the table. -/
def writeLoop (periodic : Bool) (now : ℚ) : List RtableEnt → UpdatePacket → UpdatePacket
  | [], p => p
  | e :: l, p =>
    if periodic ∧ e.advertise_ok_at > now then writeLoop periodic now l p
    else if periodic ∨ e.wanted now then
      writeLoop periodic now l
        { p with data := p.data ++ e.record, change_count := p.change_count - 1 }
    else writeLoop periodic now l p

/-- The packet for `change_count` entries. -/
def writePacket (t : RoutingTable) (periodic : Bool) (change_count : ℕ) (now : ℚ) :
    Option UpdatePacket :=
  if change_count = 0 then none
  else
    some (writeLoop periodic now t.entries
      { size := change_count * 9 + 1, data := [toByte change_count], change_count := change_count })

/-- The update is a full one: it was asked for, or much of the table has changed. -/
def Agent.full (a : Agent) (periodic : Bool) (now : ℚ) : Bool :=
  let change_count := a.table_.entries.countP fun e => e.wanted now
  periodic ∨ (change_count * 3 > a.table_.entries.length ∧ change_count > 3)

/-- The packet that `makeUpdate` returns; `none` is the null pointer. -/
def makeUpdatePacket (a : Agent) (periodic : Bool) (now : ℚ) : Option UpdatePacket :=
  let rtbl_sz := a.table_.entries.length
  let change_count := a.table_.entries.countP fun e => e.wanted now
  let unadvertiseable := a.table_.entries.countP fun e => decide (e.advertise_ok_at > now)
  if a.full periodic now then
    writePacket (a.table_.AddEntry (a.ownEntry now)) true (rtbl_sz - unadvertiseable) now
  else writePacket a.table_ false change_count now

/-! ## Reading -/

/-- `x = *(w++)`, and three times `x = x << 8 | *(w++)`. -/
def readWord : List Byte → Option (ℕ × List Byte)
  | b₀ :: b₁ :: b₂ :: b₃ :: w =>
    some (((((b₀ : ℕ) <<< 8 ||| b₁) <<< 8 ||| b₂) <<< 8 ||| b₃), w)
  | _ => none

/-- A word as an `nsaddr_t`. -/
def toInt32 (n : ℕ) : ℤ := if n < 2 ^ 31 then n else n - 2 ^ 32

/-- The metric is one more at the receiver, unless it is infinite. -/
def Advert.heard (a : Advert) : Advert :=
  { a with metric := if a.metric ≠ BIG then a.metric + 1 else a.metric }

/-- What the reader takes of one record. -/
def readRecord (w : List Byte) : Option (Advert × List Byte) :=
  (readWord w).bind fun
    | (_, []) => none
    | (dst, metric :: w) =>
      (readWord w).map fun (seqnum, w) => (Advert.heard ⟨toInt32 dst, metric, seqnum⟩, w)

/-- The loop of `processUpdate`; `none` when it reads behind the buffer. -/
def readLoop : ℕ → List Byte → Option (List Advert)
  | 0, _ => some []
  | i + 1, w => (readRecord w).bind fun (a, w) => (readLoop i w).map (a :: ·)

/-- What `processUpdate` reads. -/
def readUpdate : List Byte → Option (List Advert)
  | [] => none
  | d :: w => readLoop d w

/-! ## What is due -/

/-- What an entry advertises; sequence numbers have 32 bits. -/
def RtableEnt.advert (e : RtableEnt) : Advert := ⟨e.dst, e.metric, e.seqnum % 2 ^ 32⟩

/-- The table that is advertised. -/
def Agent.advertised (a : Agent) (periodic : Bool) (now : ℚ) : RoutingTable :=
  if a.full periodic now then a.table_.AddEntry (a.ownEntry now) else a.table_

/-- The entries that are due, in the order of the table. -/
def Agent.due (a : Agent) (periodic : Bool) (now : ℚ) : List RtableEnt :=
  (a.advertised periodic now).entries.filter fun e => e.included (a.full periodic now) now

/-- A packet that stays inside its buffer, passes the assertion and is read as `l`; no packet is
for no entry. -/
def Carried (l : List RtableEnt) : Option UpdatePacket → Prop
  | none => l = []
  | some p => p.data.length ≤ p.size ∧ p.change_count = 0 ∧
      readUpdate p.data = some (l.map fun e => e.advert.heard)

/-- The update carries everything that is due. -/
def Carries (a : Agent) (periodic : Bool) (now : ℚ) : Prop :=
  Carried (a.due periodic now) (makeUpdatePacket a periodic now)

/-- The entries are under their destinations, and these and the metrics fit into a record. -/
structure RoutingTable.Fits (t : RoutingTable) : Prop where
  key : ∀ d e, t.GetEntry d = some e → e.dst = d
  dst : ∀ d e, t.GetEntry d = some e → -2 ^ 31 ≤ e.dst ∧ e.dst < 2 ^ 31
  metric : ∀ d e, t.GetEntry d = some e → e.metric ≤ BIG

/-- The entry fits into a record. -/
def RtableEnt.Fits (e : RtableEnt) : Prop := (-2 ^ 31 ≤ e.dst ∧ e.dst < 2 ^ 31) ∧ e.metric ≤ BIG

/-! ## The second pass -/

variable {t : RoutingTable} {a : Agent} {e own : RtableEnt} {l : List RtableEnt} {w : List Byte}
  {periodic : Bool} {now : ℚ} {p : UpdatePacket} {n : ℕ}

/-- The second pass writes the entries that are included. -/
theorem writeLoop_eq :
    writeLoop periodic now l p =
      { p with
        data := p.data ++ (l.filter fun e => e.included periodic now).flatMap RtableEnt.record
        change_count := p.change_count - (l.filter fun e => e.included periodic now).length } := by
  induction l generalizing p with
  | nil => simp [writeLoop]
  | cons e l ih =>
    rw [writeLoop]
    by_cases hskip : periodic ∧ e.advertise_ok_at > now
    · have hinc : e.included periodic now = false := by
        simp [RtableEnt.included, hskip.1, hskip.2]
      rw [if_pos hskip, ih, List.filter_cons_of_neg (by simp [hinc])]
    · rw [if_neg hskip]
      have hiff : (periodic ∨ e.wanted now) ↔ e.included periodic now = true := by
        cases periodic with
        | false => simp [RtableEnt.included]
        | true =>
          have hok : e.advertise_ok_at ≤ now := not_lt.mp fun h => hskip ⟨rfl, h⟩
          simp [RtableEnt.included, hok]
      by_cases hinc : e.included periodic now = true
      · rw [if_pos (hiff.mpr hinc), ih, List.filter_cons_of_pos hinc]
        simp only [List.flatMap_cons, List.append_assoc, List.length_cons, Nat.cast_add,
          Nat.cast_one]
        congr 1
        ring
      · rw [if_neg (mt hiff.mp hinc), ih, List.filter_cons_of_neg hinc]

/-! ## The reader and the writer -/

theorem length_record (e : RtableEnt) : e.record.length = 9 := rfl

theorem length_records (l : List RtableEnt) :
    (l.flatMap RtableEnt.record).length = 9 * l.length := by
  induction l with
  | nil => rfl
  | cons e l ih =>
    rw [List.flatMap_cons, List.length_append, length_record, ih, List.length_cons]
    omega

theorem readWord_word (x : ℤ) : readWord (word x ++ w) = some ((x % 2 ^ 32).toNat, w) := by
  have hshift : ∀ m b : ℕ, b < 256 → (m <<< 8 ||| b) = m * 256 + b := fun m b hb => by
    rw [← Nat.shiftLeft_add_eq_or_of_lt (by simpa using hb), Nat.shiftLeft_eq]
  have hbyte : ∀ y : ℤ, ((toByte y : Byte) : ℕ) = (y % 256).toNat := fun _ => rfl
  simp only [word, List.cons_append, List.nil_append, readWord, Option.some.injEq, Prod.mk.injEq,
    and_true]
  rw [hshift _ _ (toByte x).isLt, hshift _ _ (toByte (x >>> (8 : ℕ))).isLt,
    hshift _ _ (toByte (x >>> (16 : ℕ))).isLt]
  simp only [hbyte, Int.shiftRight_eq_div_pow]
  have h1 : x / 2 ^ 16 = x / 2 ^ 8 / 2 ^ 8 := by omega
  have h2 : x / 2 ^ 24 = x / 2 ^ 16 / 2 ^ 8 := by omega
  have h3 : x / 2 ^ 32 = x / 2 ^ 24 / 2 ^ 8 := by omega
  -- each quotient is the remainder of the next one
  push_cast
  omega

theorem toInt32_eq {x : ℤ} (h : -2 ^ 31 ≤ x ∧ x < 2 ^ 31) : toInt32 (x % 2 ^ 32).toNat = x := by
  rw [toInt32]
  split
  · omega
  · omega

/-- A record is read as it was written. -/
theorem readRecord_record (h : e.Fits) :
    readRecord (e.record ++ w) = some (e.advert.heard, w) := by
  have hmetric : ((toByte e.metric : Byte) : ℕ) = e.metric := by
    have hle : e.metric ≤ 250 := h.2
    show ((e.metric : ℤ) % 256).toNat = e.metric
    omega
  have hseq : ((e.seqnum : ℤ) % 2 ^ 32).toNat = e.seqnum % 2 ^ 32 := by omega
  rw [RtableEnt.record, List.append_assoc, readRecord, readWord_word, Option.bind_some,
    List.cons_append]
  simp only [readWord_word, Option.map_some, hmetric, toInt32_eq h.1, hseq, RtableEnt.advert]

theorem readLoop_eq (h : ∀ e ∈ l, e.Fits) (hn : n ≤ l.length) :
    readLoop n (l.flatMap RtableEnt.record) = some ((l.take n).map fun e => e.advert.heard) := by
  induction l generalizing n with
  | nil =>
    rw [Nat.le_zero.mp hn]
    rfl
  | cons e l ih =>
    cases n with
    | zero => rfl
    | succ n =>
      have hl := ih (fun e he => h e (List.mem_cons_of_mem _ he)) (Nat.le_of_succ_le_succ hn)
      rw [List.flatMap_cons, readLoop, readRecord_record (h e List.mem_cons_self),
        Option.bind_some]
      show (readLoop n (l.flatMap RtableEnt.record)).map _ = _
      rw [hl]
      rfl

theorem length_readLoop {l : List Advert} (h : readLoop n w = some l) : l.length = n := by
  induction n generalizing w l with
  | zero =>
    rw [readLoop, Option.some.injEq] at h
    rw [← h, List.length_nil]
  | succ n ih =>
    rw [readLoop, Option.bind_eq_some_iff] at h
    obtain ⟨⟨a, w'⟩, -, hrest⟩ := h
    obtain ⟨l', hl', rfl⟩ := Option.map_eq_some_iff.mp hrest
    rw [List.length_cons, ih hl']

/-- No more records are read than a byte can count. -/
theorem length_readUpdate {l : List Advert} (h : readUpdate w = some l) : l.length < 256 := by
  cases w with
  | nil => exact absurd h (by simp [readUpdate])
  | cons d w =>
    rw [length_readLoop h]
    exact d.isLt

theorem coe_toByte (n : ℕ) : ((toByte n : Byte) : ℕ) = n % 256 := by
  show ((n : ℤ) % 256).toNat = n % 256
  omega

/-- What is read of a packet, if not more entries were counted than are included. -/
theorem readUpdate_writeLoop (h : ∀ e ∈ l.filter fun e => e.included periodic now, e.Fits)
    (hn : n ≤ (l.filter fun e => e.included periodic now).length) (hp : p.data = [toByte n]) :
    readUpdate (writeLoop periodic now l p).data =
      some (((l.filter fun e => e.included periodic now).take (n % 256)).map
        fun e => e.advert.heard) := by
  rw [writeLoop_eq, hp, List.singleton_append, readUpdate, coe_toByte]
  exact readLoop_eq h ((Nat.mod_le _ _).trans hn)

/-- A packet carries the entries that are included if they were counted right, and if their
number fits into a byte. -/
theorem carried_writePacket_iff
    (h : ∀ e ∈ t.entries.filter fun e => e.included periodic now, e.Fits) :
    Carried (t.entries.filter fun e => e.included periodic now) (writePacket t periodic n now) ↔
      n = (t.entries.filter fun e => e.included periodic now).length ∧ n ≤ 255 := by
  generalize hl : t.entries.filter (fun e => e.included periodic now) = l at *
  rw [writePacket]
  split
  · rename_i hn
    rw [hn, Carried, ← List.length_eq_zero_iff]
    omega
  · rename_i hn
    rw [writeLoop_eq, hl, Carried]
    have hlen := length_records l
    constructor
    · rintro ⟨-, hcount, hread⟩
      have hnl : n = l.length := by
        dsimp only at hcount
        omega
      refine ⟨hnl, ?_⟩
      rw [List.singleton_append, readUpdate, coe_toByte,
        readLoop_eq h ((Nat.mod_le _ _).trans hnl.le), Option.some.injEq] at hread
      have := congrArg List.length hread
      simp only [List.length_map, List.length_take] at this
      omega
    · rintro ⟨rfl, hle⟩
      refine ⟨?_, by simp, ?_⟩
      · simp only [List.length_append, List.length_singleton, hlen]
        omega
      · rw [List.singleton_append, readUpdate, coe_toByte, Nat.mod_eq_of_lt (by omega),
          readLoop_eq h le_rfl, List.take_length]

/-! ## The first pass -/

namespace RoutingTable

theorem mem_entries (t : RoutingTable) (e : RtableEnt) :
    e ∈ t.entries ↔ ∃ d, t.GetEntry d = some e := by
  rw [entries, List.mem_map]
  constructor
  · rintro ⟨⟨d, e'⟩, hmem, rfl⟩
    exact ⟨d, Std.TreeMap.mem_toList_iff_getElem?_eq_some.mp hmem⟩
  · rintro ⟨d, hd⟩
    exact ⟨(d, e), Std.TreeMap.mem_toList_iff_getElem?_eq_some.mpr hd, rfl⟩

theorem nodup_toList (t : RoutingTable) : t.toList.Nodup :=
  t.distinct_keys_toList.imp fun {a b} hab heq => hab (by rw [heq]; exact Std.ReflCmp.compare_self)

/-- An entry and the others. -/
theorem toList_perm {d : ℤ} (h : t.GetEntry d = some e) :
    t.toList.Perm ((d, e) :: t.toList.filter fun x => d ≠ x.1) := by
  have hmem : ∀ x : ℤ × RtableEnt, x ∈ t.toList ↔ t.GetEntry x.1 = some x.2 := fun x =>
    Std.TreeMap.mem_toList_iff_getElem?_eq_some
  refine (List.perm_ext_iff_of_nodup t.nodup_toList ?_).mpr fun x => ?_
  · refine List.nodup_cons.mpr ⟨?_, t.nodup_toList.filter _⟩
    simp
  · rw [List.mem_cons, List.mem_filter, hmem]
    by_cases hx : d = x.1
    · simp only [hx, ne_eq, not_true_eq_false, decide_false, Bool.false_eq_true, and_false, or_false]
      rw [← hx, h]
      constructor
      · intro he
        exact Prod.ext hx.symm (Option.some.inj he).symm
      · rintro rfl
        rfl
    · have hne : x ≠ (d, e) := fun heq => hx (by rw [heq])
      simp [hx, hne]

/-- A count over the entries, one taken apart. -/
theorem countP_entries {d : ℤ} (P : RtableEnt → Bool) (h : t.GetEntry d = some e) :
    t.entries.countP P =
      ((t.toList.filter fun x => d ≠ x.1).countP fun x => P x.2) + if P e then 1 else 0 := by
  rw [entries, List.countP_map, (toList_perm h).countP_eq, List.countP_cons]
  rfl

/-- A count over the entries after one has been replaced. -/
theorem countP_entries_AddEntry (P : RtableEnt → Bool) (e : RtableEnt) :
    (t.AddEntry e).entries.countP P =
      ((t.toList.filter fun x => e.dst ≠ x.1).countP fun x => P x.2) + if P e then 1 else 0 := by
  rw [entries, List.countP_map, AddEntry, Std.TreeMap.toList_insert_perm.countP_eq,
    List.countP_cons]
  congr 2
  refine List.filter_congr fun x _ => ?_
  simp

end RoutingTable

/-- The number of entries that may be advertised. -/
theorem length_sub_unadvertiseable (t : RoutingTable) (now : ℚ) :
    (t.entries.length - t.entries.countP fun e => decide (e.advertise_ok_at > now)) =
      t.entries.countP fun e => e.included true now := by
  have hnot : (t.entries.countP fun e => decide (e.advertise_ok_at > now)) =
      t.entries.countP fun e => decide ¬ e.included true now = true :=
    List.countP_congr fun e _ => by simp [RtableEnt.included]
  rw [hnot, List.length_eq_countP_add_countP fun e => RtableEnt.included true now e]
  exact Nat.add_sub_cancel _ _

/-- All entries of a full update were counted if the own entry was among them before. -/
theorem count_full (hown : a.table_.GetEntry a.myaddr_ = some own) (hnow : 0 ≤ now) :
    (a.table_.entries.length - a.table_.entries.countP fun e => decide (e.advertise_ok_at > now)) =
        ((a.table_.AddEntry (a.ownEntry now)).entries.filter fun e => e.included true now).length ↔
      own.advertise_ok_at ≤ now := by
  have hown' : (a.ownEntry now).included true now = true := by
    exact decide_eq_true hnow
  have hbefore := RoutingTable.countP_entries (fun e => e.included true now) hown
  have hafter := RoutingTable.countP_entries_AddEntry (t := a.table_)
    (fun e => e.included true now) (a.ownEntry now)
  rw [length_sub_unadvertiseable, ← List.countP_eq_length_filter, hafter, if_pos hown']
  by_cases hok : own.advertise_ok_at ≤ now
  · have hinc : own.included true now = true := by simpa [RtableEnt.included] using hok
    rw [if_pos hinc] at hbefore
    refine iff_of_true ?_ hok
    exact hbefore
  · have hinc : ¬ own.included true now = true := by simpa [RtableEnt.included] using hok
    rw [if_neg hinc] at hbefore
    refine iff_of_false ?_ hok
    rw [hbefore]
    exact Nat.ne_of_lt (Nat.lt_succ_self _)

/-! ## Updates that carry everything -/

theorem mem_AddEntry {x : RtableEnt} (h : x ∈ (t.AddEntry e).entries) : x = e ∨ x ∈ t.entries := by
  obtain ⟨d, hd⟩ := (RoutingTable.mem_entries _ _).mp h
  rw [RoutingTable.GetEntry, RoutingTable.AddEntry, Std.TreeMap.getElem?_insert] at hd
  split at hd
  · exact Or.inl (Option.some.inj hd).symm
  · exact Or.inr ((RoutingTable.mem_entries _ _).mpr ⟨d, hd⟩)

variable (periodic now) in
/-- The entries that are due fit into their records. -/
theorem fits_of_due (h : a.table_.Fits) (hown : a.table_.GetEntry a.myaddr_ = some own) :
    ∀ e ∈ a.due periodic now, e.Fits := by
  have hold : ∀ e ∈ a.table_.entries, e.Fits := fun e he => by
    obtain ⟨d, hd⟩ := (RoutingTable.mem_entries _ _).mp he
    exact ⟨h.dst d e hd, h.metric d e hd⟩
  intro e he
  have hmem := List.mem_of_mem_filter he
  rw [Agent.advertised] at hmem
  split at hmem
  · rcases mem_AddEntry hmem with rfl | hmem
    · have hdst := h.dst _ _ hown
      rw [h.key _ _ hown] at hdst
      exact ⟨hdst, Nat.zero_le _⟩
    · exact hold e hmem
  · exact hold e hmem

theorem RoutingTable.fits_empty : (∅ : RoutingTable).Fits := by
  have hnone : ∀ d : ℤ, (∅ : RoutingTable).GetEntry d = none := fun d =>
    Std.TreeMap.getElem?_emptyc
  exact ⟨fun d e h => absurd h (by simp [hnone]), fun d e h => absurd h (by simp [hnone]),
    fun d e h => absurd h (by simp [hnone])⟩

/-- An entry that fits may be added. -/
theorem RoutingTable.Fits.AddEntry (h : t.Fits) (he : e.Fits) : (t.AddEntry e).Fits := by
  have hcases : ∀ d x, (t.AddEntry e).GetEntry d = some x →
      (d = e.dst ∧ x = e) ∨ t.GetEntry d = some x := fun d x hd => by
    rw [GetEntry, RoutingTable.AddEntry, Std.TreeMap.getElem?_insert] at hd
    split at hd
    · rename_i heq
      exact Or.inl ⟨(Std.LawfulEqCmp.eq_of_compare heq).symm, (Option.some.inj hd).symm⟩
    · exact Or.inr hd
  refine ⟨fun d x hd => ?_, fun d x hd => ?_, fun d x hd => ?_⟩
  · rcases hcases d x hd with ⟨rfl, rfl⟩ | hd
    · rfl
    · exact h.key d x hd
  · rcases hcases d x hd with ⟨rfl, rfl⟩ | hd
    · exact he.1
    · exact h.dst d x hd
  · rcases hcases d x hd with ⟨rfl, rfl⟩ | hd
    · exact he.2
    · exact h.metric d x hd

/-- The number of entries that are due, in terms of the table as it was. -/
def Agent.dueCount (a : Agent) (periodic : Bool) (now : ℚ) : ℕ :=
  a.table_.entries.countP fun e => e.included (a.full periodic now) now

/-- No more entries are counted than are due. -/
theorem count_le (hown : a.table_.GetEntry a.myaddr_ = some own) (hnow : 0 ≤ now) :
    (a.table_.entries.length - a.table_.entries.countP fun e => decide (e.advertise_ok_at > now)) ≤
      ((a.table_.AddEntry (a.ownEntry now)).entries.filter fun e => e.included true now).length := by
  have hown' : (a.ownEntry now).included true now = true := decide_eq_true hnow
  have hafter := RoutingTable.countP_entries_AddEntry (t := a.table_)
    (fun e => e.included true now) (a.ownEntry now)
  rw [length_sub_unadvertiseable, ← List.countP_eq_length_filter, hafter, if_pos hown',
    RoutingTable.countP_entries (fun e => e.included true now) hown]
  refine Nat.add_le_add_left ?_ _
  split
  · exact le_rfl
  · exact Nat.zero_le _

/-- **The reader gets what the agent sends**, with the metrics and sequence numbers as they arrive. -/
theorem readUpdate_makeUpdatePacket (h : a.table_.Fits)
    (hown : a.table_.GetEntry a.myaddr_ = some own) (hnow : 0 ≤ now) :
    ((makeUpdatePacket a periodic now).bind fun p => readUpdate p.data) =
      (makeUpdate a periodic now).2.map fun as =>
        as.map fun x => Advert.heard { x with seqnum := x.seqnum % 2 ^ 32 } := by
  have hfits := fits_of_due periodic now h hown
  have hread : ∀ (b : Agent) (full : Bool) (n : ℕ),
      (∀ e ∈ b.table_.entries.filter fun e => e.included full now, e.Fits) →
      n ≤ (b.table_.entries.filter fun e => e.included full now).length →
      ((writePacket b.table_ full n now).bind fun p => readUpdate p.data) =
        (writeUpdate b full n now).2.map fun as =>
          as.map fun x => Advert.heard { x with seqnum := x.seqnum % 2 ^ 32 } := by
    intro b full n hb hn
    rw [writePacket, writeUpdate]
    split
    · rfl
    · rw [Option.bind_some, readUpdate_writeLoop hb hn rfl, Option.map_some, ← List.map_take,
        List.map_map]
      rfl
  rw [Agent.due, Agent.advertised] at hfits
  rw [makeUpdatePacket, makeUpdate]
  cases hfull : a.full periodic now with
  | false =>
    have hcond : ¬ (periodic = true ∨ _) := of_decide_eq_false hfull
    simp only [hfull, Bool.false_eq_true, if_false] at hfits ⊢
    rw [if_neg hcond]
    exact hread a false _ hfits (by rw [← List.countP_eq_length_filter]; rfl)
  | true =>
    have hcond : periodic = true ∨ _ := of_decide_eq_true hfull
    simp only [hfull, if_true] at hfits ⊢
    rw [if_pos hcond]
    exact hread { a with seqno_ := a.seqno_ + 2, table_ := a.table_.AddEntry (a.ownEntry now) } true
      _ hfits (count_le hown hnow)

/-- **An update carries everything that is due** if and only if at most 255 entries are due and,
in a full update, the own entry was among those that may be advertised. -/
theorem carries_iff (a : Agent) (own : RtableEnt) (periodic : Bool) (now : ℚ)
    (h : a.table_.Fits) (hown : a.table_.GetEntry a.myaddr_ = some own) (hnow : 0 ≤ now) :
    Carries a periodic now ↔
      (a.full periodic now = true → own.advertise_ok_at ≤ now) ∧ a.dueCount periodic now ≤ 255 := by
  have hfits := fits_of_due periodic now h hown
  rw [Carries, makeUpdatePacket, Agent.dueCount]
  rw [Agent.due, Agent.advertised] at hfits ⊢
  cases hfull : a.full periodic now with
  | false =>
    simp only [hfull, Bool.false_eq_true, if_false, false_implies, true_and] at hfits ⊢
    rw [carried_writePacket_iff hfits, ← List.countP_eq_length_filter]
    exact and_iff_right rfl
  | true =>
    simp only [hfull, if_true, true_implies] at hfits ⊢
    rw [carried_writePacket_iff hfits, count_full hown hnow, length_sub_unadvertiseable]

/-- The own entry of an agent that has just started is carried. -/
theorem carries_startUp : Carries (Agent.startUp 1 0) true 0 := by
  have hfits : (Agent.startUp 1 0).table_.Fits :=
    RoutingTable.fits_empty.AddEntry ⟨by decide, by decide⟩
  exact (carries_iff (Agent.startUp 1 0) _ true 0 hfits rfl le_rfl).mpr
    ⟨by decide +kernel, by decide +kernel⟩

/-- An agent with routes to 255 other destinations. -/
def crowded : Agent :=
  { Agent.startUp 0 0 with
    table_ := (List.range 256).foldl
      (fun t d => t.AddEntry { RtableEnt.zero with dst := d, hop := d, advert_seqnum := true }) ∅ }

theorem length_due_crowded : (crowded.due true 0).length = 256 := by decide +kernel

/-- The count of 256 entries does not fit into its byte. -/
theorem not_carries_crowded : ¬ Carries crowded true 0 := by
  have hdue := length_due_crowded
  rw [Carries]
  cases makeUpdatePacket crowded true 0 with
  | none =>
    intro hnil
    rw [hnil] at hdue
    exact absurd hdue (by decide)
  | some p =>
    rintro ⟨-, -, hread⟩
    have hlen := length_readUpdate hread
    rw [List.length_map, hdue] at hlen
    exact absurd hlen (by decide)

end Ns2.Dsdv
