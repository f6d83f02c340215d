import Ns2.Routing.Address

/-!
# Addresses and strings

An address that is read from a string is printed as the same numbers exactly when they are within
their fields and the string fits the buffer.

* `atoi_number`, `strtok_dotted` — what is read of a dotted string.
* `str2addr_dotted` — what is accepted, and its address.
* `hier_addr_build`, `print_build` — the fields of an address, and what is printed.
* `address_round_trip_iff` — reading and printing, in both orders.
-/

namespace Ns2.Routing

/-! ## Numbers -/

theorem digit_bounds {c : Char} (h : c.isDigit = true) : 48 ≤ c.toNat ∧ c.toNat ≤ 57 := by
  rw [Char.isDigit, Bool.and_eq_true, decide_eq_true_eq, decide_eq_true_eq] at h
  exact h

/-- A number is read up to its end. -/
theorem atoi_number {s : List Char} (h : IsNumber s) : atoi s = toInt32 (value s) := by
  obtain ⟨hne, hdigits⟩ := h
  cases s with
  | nil => exact absurd rfl hne
  | cons c cs =>
    obtain ⟨hlow, hhigh⟩ := digit_bounds (hdigits c List.mem_cons_self)
    have hspace : isspace c = false := by
      have hblank : c ≠ ' ' := by
        rintro rfl
        exact absurd hlow (by decide)
      simp [isspace, hblank]
      omega
    have htake : (c :: cs).takeWhile Char.isDigit = c :: cs := List.takeWhile_eq_self_iff.mpr hdigits
    rw [atoi, List.dropWhile_cons_of_neg (by simp [hspace])]
    split
    · rename_i heq
      obtain rfl : c = '-' := (List.cons.inj heq).1
      exact absurd hlow (by decide)
    · rename_i heq
      obtain rfl : c = '+' := (List.cons.inj heq).1
      exact absurd hlow (by decide)
    · rw [htake, value]

/-- A number that is an `int`. -/
theorem toNat_toInt32 {n : ℕ} (h : n < 2 ^ 31) : (toInt32 n).toNat = n := by
  have hmin : max (-2 ^ 63) (min (n : ℤ) (2 ^ 63 - 1)) = n := by omega
  rw [toInt32, hmin, BitVec.toNat_ofInt]
  omega

theorem isNumber_toDigits (n : ℕ) : IsNumber (Nat.toDigits 10 n) :=
  ⟨Nat.toDigits_ne_nil, fun _ hc => Nat.isDigit_of_mem_toDigits (by decide) le_rfl hc⟩

theorem value_toDigits (n : ℕ) : value (Nat.toDigits 10 n) = n := Nat.ofDigitChars_ten_toDigits

theorem decimal_of_lt {v : BitVec 32} (h : v.toNat < 2 ^ 31) : decimal v = Nat.toDigits 10 v.toNat := by
  have hint : v.toInt = v.toNat := BitVec.toInt_eq_toNat_of_lt (by omega)
  rw [decimal, hint, if_neg (by omega), Int.toNat_natCast]

/-! ## Words -/

theorem dot_notMem {s : List Char} (h : IsNumber s) : '.' ∉ s := fun hdot =>
  absurd (h.2 _ hdot) (by decide)

/-- Characters other than dots are kept until a word ends. -/
theorem strtok_append {s : List Char} (hs : '.' ∉ s) (word rest : List Char) :
    strtok word (s ++ rest) = strtok (word ++ s) rest := by
  induction s generalizing word with
  | nil => rw [List.nil_append, List.append_nil]
  | cons c s ih =>
    rw [List.mem_cons, not_or] at hs
    rw [List.cons_append, strtok, if_neg (Ne.symm hs.1), ih hs.2, List.append_assoc,
      List.singleton_append]

theorem dotted_cons_cons (s t : List Char) (l : List (List Char)) :
    dotted (s :: t :: l) = s ++ '.' :: dotted (t :: l) := by
  simp [dotted, List.intercalate]

theorem dotted_singleton (s : List Char) : dotted [s] = s := by simp [dotted, List.intercalate]

/-- The words of a dotted string are read one after the other. -/
theorem strtok_dotted {words : List (List Char)} (h : ∀ s ∈ words, IsNumber s) :
    strtok [] (dotted words) = words.map fun s => atoi s + 1 := by
  induction words with
  | nil => rfl
  | cons s l ih =>
    have hs := h s List.mem_cons_self
    cases l with
    | nil =>
      have hend := strtok_append (dot_notMem hs) [] []
      rw [List.append_nil, List.nil_append] at hend
      rw [dotted_singleton, hend, strtok, if_neg hs.1]
      rfl
    | cons t l =>
      rw [dotted_cons_cons, strtok_append (dot_notMem hs), List.nil_append, strtok, if_pos rfl,
        ih fun u hu => h u (List.mem_cons_of_mem _ hu)]
      rfl

/-- Every word with a dot. -/
theorem flatMap_dots {words : List (List Char)} (h : words ≠ []) :
    (words.flatMap fun s => s ++ ['.']) = dotted words ++ ['.'] := by
  induction words with
  | nil => exact absurd rfl h
  | cons s l ih =>
    cases l with
    | nil => simp [dotted_singleton]
    | cons t l =>
      rw [List.flatMap_cons, ih (List.cons_ne_nil _ _), dotted_cons_cons]
      simp

/-- Different numbers have different strings. -/
theorem numerals_injective {ms ns : List ℕ} (hm : ms ≠ []) (hn : ns ≠ [])
    (h : numerals ms = numerals ns) : ms = ns := by
  have hwords : ∀ l : List ℕ, l ≠ [] → (numerals l).splitOn '.' = l.map (Nat.toDigits 10) := by
    intro l hl
    refine List.splitOn_intercalate '.' (fun s hs => ?_) (by simpa using hl)
    obtain ⟨n, -, rfl⟩ := List.mem_map.mp hs
    exact dot_notMem (isNumber_toDigits n)
  have hmap : ms.map (Nat.toDigits 10) = ns.map (Nat.toDigits 10) := by
    rw [← hwords ms hm, h, hwords ns hn]
  refine List.map_injective_iff.mpr (fun a b hab => ?_) hmap
  rw [← value_toDigits a, hab, value_toDigits]

/-! ## Reading -/

/-- A loop that may stop does all its steps, or none count. -/
theorem foldlM_guard {α β : Type*} {g : β → α → Option β} {f : β → α → β} {ok : α → Prop}
    [DecidablePred ok] {l : List α}
    (h : ∀ b, ∀ x ∈ l, g b x = if ok x then some (f b x) else none) (b : β) :
    l.foldlM g b = if ∀ x ∈ l, ok x then some (l.foldl f b) else none := by
  induction l generalizing b with
  | nil => rw [if_pos (by simp)]; rfl
  | cons x l ih =>
    rw [List.foldlM_cons, h b x List.mem_cons_self]
    by_cases hx : ok x
    · rw [if_pos hx]
      simp only [List.forall_mem_cons, hx, true_and, List.foldl_cons]
      exact ih (fun b y hy => h b y (List.mem_cons_of_mem _ hy)) (f b x)
    · rw [if_neg hx, if_neg fun hall => hx (hall x List.mem_cons_self)]
      rfl

namespace Address

variable {A : Address}

/-- The checks of `str2addr` for the number of a level. -/
def Accepts (A : Address) (vs : List (BitVec 32)) (i : ℕ) : Prop :=
  0 ≤ (vs.getD i 0).toInt ∧ ((vs.getD i 0).signExtend 64).toNat ≤ fieldLength (A.bpl_ (i + 1))

instance (A : Address) (vs : List (BitVec 32)) : DecidablePred (A.Accepts vs) := fun _ =>
  inferInstanceAs (Decidable (_ ∧ _))

/-- **What is accepted**, and its address. -/
theorem str2addr_dotted {words : List (List Char)} (hlevels : 2 ≤ A.levels_)
    (hlen : words.length = A.levels_) (h : ∀ s ∈ words, IsNumber s) (a : BitVec 32) :
    A.str2addr (dotted words) = some a ↔
      (dotted words).length < SMALL_LEN ∧ (∀ i < A.levels_, A.Accepts (words.map atoi) i) ∧
        A.build (words.map atoi) = a := by
  have hstep : ∀ b, ∀ i ∈ List.range A.levels_,
      A.insertLevel (words.map fun s => atoi s + 1) b i =
        if A.Accepts (words.map atoi) i then
          some (set_word_field b ((words.map atoi).getD i 0) (A.NodeShift_ (i + 1))
            (A.NodeMask_ (i + 1)))
        else none := by
    intro b i hi
    have hi' : i < words.length := hlen ▸ List.mem_range.mp hi
    have hsub : (words.map fun s => atoi s + 1).getD i 0 - 1 = (words.map atoi).getD i 0 := by
      rw [List.getD_eq_getElem _ _ (by simpa using hi'), List.getD_eq_getElem _ _ (by simpa using hi'),
        List.getElem_map, List.getElem_map, BitVec.add_sub_cancel]
    unfold insertLevel
    dsimp only
    rw [hsub]
    by_cases hneg : ((words.map atoi).getD i 0).toInt < 0
    · rw [if_pos hneg, if_neg fun hok => absurd hneg (not_lt.mpr hok.1)]
    · rw [if_neg hneg]
      by_cases hbig : fieldLength (A.bpl_ (i + 1)) < (((words.map atoi).getD i 0).signExtend 64).toNat
      · rw [if_pos hbig, if_neg fun hok => absurd hbig (not_lt.mpr hok.2)]
      · rw [if_neg hbig, if_pos ⟨not_lt.mp hneg, not_lt.mp hbig⟩]
  rw [str2addr, if_neg (not_lt.mpr hlevels), ns_strtok]
  by_cases hfits : (dotted words).length < SMALL_LEN
  · rw [if_pos hfits, Option.bind_some, strtok_dotted h, if_pos (by rw [List.length_map, hlen]),
      foldlM_guard hstep]
    simp only [List.mem_range, hfits, true_and]
    by_cases hall : ∀ i < A.levels_, A.Accepts (words.map atoi) i
    · rw [if_pos hall, build, Option.some.injEq, and_iff_right hall]
    · rw [if_neg hall]
      exact iff_of_false (by simp) fun hc => hall hc.1
  · rw [if_neg hfits]
    exact iff_of_false (by simp) fun hc => hfits hc.1

/-- An `int` that is not negative. -/
theorem signExtend_toNat {v : BitVec 32} (h : v.toNat < 2 ^ 31) :
    v.toInt = v.toNat ∧ (v.signExtend 64).toNat = v.toNat := by
  refine ⟨BitVec.toInt_eq_toNat_of_lt (by omega), ?_⟩
  rw [BitVec.signExtend_eq_setWidth_of_msb_false, BitVec.toNat_setWidth]
  · omega
  · exact BitVec.msb_eq_false_iff_two_mul_lt.mpr (by omega)

theorem fieldLength_of_lt {b : ℕ} (h : b < 31) : fieldLength b = 2 ^ b := by
  have hall : ∀ b < 31, fieldLength b = 2 ^ b := by decide
  exact hall b h

/-- A number within its field is accepted. -/
theorem accepts_of_lt {vs : List (BitVec 32)} {i : ℕ} (hb : A.bpl_ (i + 1) < 32)
    (h : (vs.getD i 0).toNat < 2 ^ A.bpl_ (i + 1)) : A.Accepts vs i := by
  have hlt : (vs.getD i 0).toNat < 2 ^ 31 :=
    lt_of_lt_of_le h (Nat.pow_le_pow_right (by decide) (by omega))
  obtain ⟨hint, hext⟩ := signExtend_toNat hlt
  refine ⟨by omega, ?_⟩
  rw [hext]
  rcases Nat.lt_or_ge (A.bpl_ (i + 1)) 31 with hbpl | hbpl
  · rw [fieldLength_of_lt hbpl]
    omega
  · have h31 : A.bpl_ (i + 1) = 31 := by omega
    have hbig : 2 ^ 31 ≤ fieldLength 31 := by decide
    rw [h31]
    omega

/-! ## Printing -/

variable {vs : List (BitVec 32)}

/-- A field of an address that is built is read as it was given, up to its mask. -/
theorem hier_addr_build (h : A.Hierarchy) {i : ℕ} (hi : i < A.levels_) :
    A.hier_addr (A.build vs) (i + 1) = vs.getD i 0 &&& A.NodeMask_ (i + 1) := by
  have hpart : ∀ k ≤ A.levels_, i < k →
      A.hier_addr ((List.range k).foldl (fun addr i =>
        set_word_field addr (vs.getD i 0) (A.NodeShift_ (i + 1)) (A.NodeMask_ (i + 1))) 0) (i + 1) =
          vs.getD i 0 &&& A.NodeMask_ (i + 1) := by
    intro k
    induction k with
    | zero => exact fun _ hk => absurd hk (Nat.not_lt_zero _)
    | succ k ih =>
      intro hk hik
      rw [List.range_succ, List.foldl_append, List.foldl_cons, List.foldl_nil]
      have hfit := h.fits (i + 1) (by omega) (by omega)
      have hfit' := h.fits (k + 1) (by omega) (by omega)
      have hmask := h.mask (i + 1) (by omega) (by omega)
      rcases Nat.lt_or_ge i k with hlt | hge
      · rw [← ih (by omega) hlt, hier_addr, hier_addr, hmask, h.mask (k + 1) (by omega) (by omega)]
        exact BitField.extract_insert_of_disjoint hfit hfit'
          (h.disjoint _ _ (by omega) (by omega) (by omega) (by omega) (by omega))
      · obtain rfl : k = i := by omega
        rw [hier_addr, hmask]
        exact BitField.extract_insert_self hfit
  exact hpart A.levels_ le_rfl hi

/-- The numbers that are left of these after the masks. -/
def masked (A : Address) (vs : List (BitVec 32)) : List ℕ :=
  (List.range A.levels_).map fun i => (vs.getD i 0).toNat % 2 ^ A.bpl_ (i + 1)

/-- **What is printed** of an address that is built. -/
theorem print_build (h : A.Hierarchy) (n : List Char) :
    A.print_nodeaddr (A.build vs) = some n ↔
      PrintFits (A.masked vs) ∧ n = numerals (A.masked vs) := by
  have hlevels := h.levels
  have hfield : ∀ i ∈ List.range A.levels_, decimal (A.printed (A.build vs) (1 + i)) =
      Nat.toDigits 10 ((vs.getD i 0).toNat % 2 ^ A.bpl_ (i + 1)) := by
    intro i hi
    have hi := List.mem_range.mp hi
    have hb := h.bpl_lt (i + 1) (by omega) (by omega)
    have hnat : (A.printed (A.build vs) (1 + i)).toNat =
        (vs.getD i 0).toNat % 2 ^ A.bpl_ (i + 1) := by
      rw [printed, if_pos (by omega), Nat.add_comm 1 i, hier_addr_build h hi,
        h.mask _ (by omega) (by omega), BitField.toNat_and_mask _ (by omega)]
    have hlt : (vs.getD i 0).toNat % 2 ^ A.bpl_ (i + 1) < 2 ^ 31 :=
      lt_of_lt_of_le (Nat.mod_lt _ (by positivity)) (Nat.pow_le_pow_right (by decide) (by omega))
    rw [decimal_of_lt (by omega), hnat]
  have hstr : ((List.range' 1 A.levels_).flatMap fun i =>
      decimal (A.printed (A.build vs) i) ++ ['.']) = numerals (A.masked vs) ++ ['.'] := by
    rw [numerals, ← flatMap_dots (by simp [masked]; omega), masked, List.map_map, List.flatMap_map,
      List.range'_eq_map_range, List.flatMap_map]
    exact List.flatMap_congr fun i hi => by rw [hfield i hi]; rfl
  rw [print_nodeaddr, hstr, List.dropLast_concat, List.length_append, List.length_singleton]
  by_cases hfits : PrintFits (A.masked vs)
  · rw [if_pos ⟨by omega, hfits⟩, Option.some.injEq, and_iff_right hfits, eq_comm]
  · rw [if_neg fun hc => hfits hc.2]
    exact iff_of_false (by simp) fun hc => hfits hc.1

/-! ## Round trips -/

/-- Numbers within their fields are not changed by the masks, and only these. -/
theorem masked_eq_iff {ns : List ℕ} (hlen : ns.length = A.levels_)
    (hvs : ∀ i < A.levels_, ns.getD i 0 < 2 ^ A.bpl_ (i + 1) → (vs.getD i 0).toNat = ns.getD i 0) :
    A.masked vs = ns ↔ A.InRange ns := by
  have hget : ∀ (i : ℕ) (hi : i < ns.length), ns.getD i 0 = ns[i] := fun i hi =>
    List.getD_eq_getElem _ _ hi
  constructor
  · rintro rfl
    refine ⟨hlen, fun i hi => ?_⟩
    rw [hget i (by omega)]
    simp only [masked, List.getElem_map, List.getElem_range]
    exact Nat.mod_lt _ (by positivity)
  · rintro ⟨-, hin⟩
    refine List.ext_getElem (by simp [masked, hlen]) fun i hi hi' => ?_
    have hlt := hin i (by omega)
    rw [← hget i hi']
    simp only [masked, List.getElem_map, List.getElem_range]
    rw [hvs i (by omega) hlt, Nat.mod_eq_of_lt hlt]

/-- The numbers of a string are not changed by the masks if they are within their fields. -/
theorem masked_atoi (h : A.Hierarchy) {words : List (List Char)} (hlen : words.length = A.levels_)
    (hwords : ∀ s ∈ words, IsNumber s) :
    A.masked (words.map atoi) = words.map value ↔ A.InRange (words.map value) := by
  have hlen' : (words.map value).length = A.levels_ := by rw [List.length_map, hlen]
  refine masked_eq_iff hlen' fun i hi hlt => ?_
  have hb := h.bpl_lt (i + 1) (by omega) (by omega)
  have hi' : i < words.length := by omega
  rw [List.getD_eq_getElem _ _ (by simpa using hi'), List.getElem_map] at hlt ⊢
  rw [List.getD_eq_getElem _ _ (by simpa using hi'), List.getElem_map,
    atoi_number (hwords _ (List.getElem_mem hi'))]
  exact toNat_toInt32 (lt_of_lt_of_le hlt (Nat.pow_le_pow_right (by decide) (by omega)))

/-- A string that is accepted, and the string printed of its address. -/
theorem print_str2addr_iff (h : A.Hierarchy) {words : List (List Char)} {a : BitVec 32}
    (hlen : words.length = A.levels_) (hwords : ∀ s ∈ words, IsNumber s)
    (ha : A.str2addr (dotted words) = some a) :
    A.print_nodeaddr a = some (numerals (words.map value)) ↔
      A.InRange (words.map value) ∧ PrintFits (words.map value) := by
  have hlevels := h.levels
  obtain ⟨-, -, rfl⟩ := (str2addr_dotted hlevels hlen hwords a).mp ha
  rw [print_build h, ← masked_atoi h hlen hwords]
  constructor
  · rintro ⟨hfits, heq⟩
    have hsame := numerals_injective (by simp [← List.length_pos_iff, hlen]; omega)
      (by simp [masked]; omega) heq
    exact ⟨hsame.symm, hsame ▸ hfits⟩
  · rintro ⟨hsame, hfits⟩
    rw [hsame]
    exact ⟨hfits, rfl⟩

/-- Numbers within their fields are `int`s. -/
theorem InRange.lt (h : A.Hierarchy) {ns : List ℕ} (hin : A.InRange ns) : ∀ n ∈ ns, n < 2 ^ 31 := by
  intro n hn
  obtain ⟨i, hi, rfl⟩ := List.getElem_of_mem hn
  have hlen := hin.1
  have hb := h.bpl_lt (i + 1) (by omega) (by omega)
  have hrange := hin.2 i (by omega)
  rw [List.getD_eq_getElem _ _ hi] at hrange
  exact lt_of_lt_of_le hrange (Nat.pow_le_pow_right (by decide) (by omega))

/-- The numbers that are printed are read as they were. -/
theorem atoi_toDigits {ns : List ℕ} (hlt : ∀ n ∈ ns, n < 2 ^ 31) :
    (ns.map (Nat.toDigits 10)).map atoi = ns.map (BitVec.ofNat 32) := by
  rw [List.map_map]
  refine List.map_congr_left fun n hn => BitVec.eq_of_toNat_eq ?_
  have hn' := hlt n hn
  rw [Function.comp_apply, atoi_number (isNumber_toDigits n), value_toDigits, toNat_toInt32 hn',
    BitVec.toNat_ofNat, Nat.mod_eq_of_lt (by omega)]

/-- An address with fields within their ranges, and the string printed of it. -/
theorem str2addr_print_iff (h : A.Hierarchy) {ns : List ℕ} (hin : A.InRange ns) :
    (A.print_nodeaddr (A.build (ns.map (BitVec.ofNat 32)))).bind A.str2addr =
      some (A.build (ns.map (BitVec.ofNat 32))) ↔ PrintFits ns := by
  have hlevels := h.levels
  have hlt := hin.lt h
  have hvs : ∀ i < A.levels_, ((ns.map (BitVec.ofNat 32)).getD i 0).toNat = ns.getD i 0 := by
    intro i hi
    have hi' : i < ns.length := hin.1 ▸ hi
    have hn' := hlt _ (List.getElem_mem hi')
    rw [List.getD_eq_getElem _ _ (by simpa using hi'), List.getElem_map, BitVec.toNat_ofNat,
      Nat.mod_eq_of_lt (by omega), List.getD_eq_getElem _ _ hi']
  have hmasked : A.masked (ns.map (BitVec.ofNat 32)) = ns :=
    (masked_eq_iff hin.1 fun i hi _ => hvs i hi).mpr hin
  constructor
  · intro hback
    obtain ⟨n, hn, -⟩ := Option.bind_eq_some_iff.mp hback
    exact hmasked ▸ ((print_build h n).mp hn).1
  · intro hfits
    have hprint : A.print_nodeaddr (A.build (ns.map (BitVec.ofNat 32))) = some (numerals ns) :=
      (print_build h (numerals ns)).mpr (by rw [hmasked]; exact ⟨hfits, rfl⟩)
    have hwords : ∀ s ∈ ns.map (Nat.toDigits 10), IsNumber s := by
      intro s hs
      obtain ⟨n, -, rfl⟩ := List.mem_map.mp hs
      exact isNumber_toDigits n
    rw [hprint, Option.bind_some, numerals,
      str2addr_dotted hlevels (by rw [List.length_map, hin.1]) hwords, atoi_toDigits hlt]
    refine ⟨?_, fun i hi => accepts_of_lt (h.bpl_lt (i + 1) (by omega) (by omega)) ?_, rfl⟩
    · exact lt_of_le_of_lt (Nat.le_succ _) hfits
    · rw [hvs i hi]
      exact hin.2 i hi

end Address

/-- **What the check lets through**: among numbers that are an `int`, those up to the number of values
of a field, so that this number is the only one out of range. -/
theorem inRange_iff_ne {A : Address} (h : A.Hierarchy) {words : List (List Char)} {a : BitVec 32}
    (hlen : words.length = A.levels_) (hwords : ∀ s ∈ words, IsNumber s)
    (hint : ∀ s ∈ words, value s < 2 ^ 31) (ha : A.str2addr (dotted words) = some a) :
    A.InRange (words.map value) ↔
      ∀ i < A.levels_, (words.map value).getD i 0 ≠ 2 ^ A.bpl_ (i + 1) := by
  obtain ⟨-, haccepts, -⟩ := (Address.str2addr_dotted h.levels hlen hwords a).mp ha
  refine ⟨fun hin i hi => (hin.2 i hi).ne, fun hne => ⟨by rw [List.length_map, hlen], fun i hi => ?_⟩⟩
  have hb := h.bpl_lt (i + 1) (by omega) (by omega)
  have hi' : i < words.length := hlen ▸ hi
  have hne := hne i hi
  obtain ⟨-, hle⟩ := haccepts i hi
  have hv := hint _ (List.getElem_mem hi')
  rw [List.getD_eq_getElem _ _ (by simpa using hi'), List.getElem_map,
    atoi_number (hwords _ (List.getElem_mem hi'))] at hle
  rw [List.getD_eq_getElem _ _ (by simpa using hi'), List.getElem_map] at hne ⊢
  have hnat := toNat_toInt32 hv
  rw [(Address.signExtend_toNat (by omega)).2, hnat] at hle
  rcases Nat.lt_or_ge (A.bpl_ (i + 1)) 31 with hbpl | hbpl
  · rw [Address.fieldLength_of_lt hbpl] at hle
    omega
  · have h31 : A.bpl_ (i + 1) = 31 := by omega
    rw [h31]
    exact hv

/-- **Address conversion.**  The numbers of a string that is accepted are given back exactly when they
are within their fields and the string printed fits its buffer; an address with fields within their
ranges is given back exactly when the string fits. -/
theorem address_round_trip_iff (A : Address) (h : A.Hierarchy) :
    (∀ (words : List (List Char)) (a : BitVec 32), words.length = A.levels_ →
      (∀ s ∈ words, IsNumber s) → A.str2addr (dotted words) = some a →
      (A.print_nodeaddr a = some (numerals (words.map value)) ↔
        A.InRange (words.map value) ∧ PrintFits (words.map value))) ∧
    ∀ ns : List ℕ, A.InRange ns →
      ((A.print_nodeaddr (A.build (ns.map (BitVec.ofNat 32)))).bind A.str2addr =
          some (A.build (ns.map (BitVec.ofNat 32))) ↔ PrintFits ns) := by
  exact ⟨fun _ _ hlen hwords ha => Address.print_str2addr_iff h hlen hwords ha,
    fun _ hin => Address.str2addr_print_iff h hin⟩

/-! ## A hierarchy -/

/-- Three levels of 9, 11 and 11 bits. -/
def threeLevels : Address where
  bpl_ i := if i = 1 then 9 else 11
  NodeShift_ i := if i = 1 then 22 else if i = 2 then 11 else 0
  NodeMask_ i := if i = 1 then BitField.mask 32 9 else BitField.mask 32 11
  levels_ := 3

theorem hierarchy_threeLevels : threeLevels.Hierarchy where
  levels := by decide
  shift_lt i h1 h3 := by
    have : i ≤ 3 := h3
    interval_cases i <;> decide
  bpl_lt i h1 h3 := by
    have : i ≤ 3 := h3
    interval_cases i <;> decide
  fits i h1 h3 := by
    have : i ≤ 3 := h3
    interval_cases i <;> decide
  mask i h1 h3 := by
    have : i ≤ 3 := h3
    interval_cases i <;> rfl
  disjoint i j h1 h3 h1' h3' hne := by
    have : i ≤ 3 := h3
    have : j ≤ 3 := h3'
    interval_cases i <;> interval_cases j <;> first | decide | exact absurd rfl hne

/-- Numbers that are within their fields are given back. -/
theorem address_round_trip_iff_threeLevels :
    threeLevels.print_nodeaddr (threeLevels.build [1, 2047, 3]) = some (numerals [1, 2047, 3]) ∧
      (threeLevels.print_nodeaddr (threeLevels.build [1, 2047, 3])).bind threeLevels.str2addr =
        some (threeLevels.build [1, 2047, 3]) := by
  obtain ⟨hread, hbuild⟩ := address_round_trip_iff _ hierarchy_threeLevels
  have hin : threeLevels.InRange [1, 2047, 3] := ⟨rfl, by decide +kernel⟩
  have hfits : PrintFits [1, 2047, 3] := (by decide +kernel : _ < 32)
  have hvalues : ([1, 2047, 3].map (Nat.toDigits 10)).map value = [1, 2047, 3] := by decide +kernel
  have hwords : ∀ s ∈ [1, 2047, 3].map (Nat.toDigits 10), IsNumber s := by
    intro s hs
    obtain ⟨n, -, rfl⟩ := List.mem_map.mp hs
    exact isNumber_toDigits n
  have haddr : threeLevels.str2addr (dotted ([1, 2047, 3].map (Nat.toDigits 10))) =
      some (threeLevels.build [1, 2047, 3]) := by decide +kernel
  constructor
  · rw [← hvalues]
    exact (hread _ _ rfl hwords haddr).mpr (hvalues ▸ ⟨hin, hfits⟩)
  · exact (hbuild [1, 2047, 3] hin).mpr hfits

/-- **The number of values of a field is accepted** as a number, and becomes zero. -/
theorem length_accepted :
    threeLevels.Hierarchy ∧
      threeLevels.str2addr (dotted [['1'], ['2', '0', '4', '8'], ['3']]) =
        some (threeLevels.build [1, 0, 3]) ∧
      threeLevels.print_nodeaddr (threeLevels.build [1, 0, 3]) ≠ some (numerals [1, 2048, 3]) := by
  exact ⟨hierarchy_threeLevels, by decide +kernel, by decide +kernel⟩

end Ns2.Routing
