import KiteSQL.Types.DecimalDigits

/-! Serialized decimals compare as the numbers they denote and are read back as those numbers. -/
namespace KiteSQL

open LexCode ByteReader Scientific List Decimal Result Int8

variable {m : Nat} {a b : Decimal} {e : Int} {q s p n : Nat} {x y : Bytes} {d : Decimal}
  {op : String} {neg : Bool} {c : UInt8}

/-- The first bytes of a positive number with base-100 exponent `exponent`. -/
def positiveHead (exponent : Int8) : Bytes :=
  if 11 ≤ exponent then [0x22, exponent.toUInt8]
  else if 0 ≤ exponent then [0x17 + exponent.toUInt8]
  else [0x16, (~~~(-exponent)).toUInt8]

def negativeHead (exponent : Int8) : Bytes :=
  if 11 ≤ exponent then [0x8, (~~~exponent).toUInt8]
  else if 0 ≤ exponent then [0x13 - exponent.toUInt8]
  else [0x14, (-exponent).toUInt8]

theorem serializeDecimal_spec (d : Decimal) (h : d.isZero = false) :
    ∃ e q, Significand d e q ∧ serializeDecimal d = .ok (
      if d.isSignPositive then
        positiveHead (ofInt e) ++ mark (Nat.digits 100 q).reverse
      else
        negativeHead (ofInt e) ++ (mark (Nat.digits 100 q).reverse).map (~~~·)) := by
  obtain ⟨e, q, hs, he⟩ := decimalEM_spec d h
  refine ⟨e, q, hs, ?_⟩
  rw [serializeDecimal, if_neg (by simp [h]), he]
  by_cases hp : d.isSignPositive
  · simp only [hp, if_true]
    rfl
  · simp only [hp]
    rfl

/-- The exponents that a decimal can have, shifted to natural numbers. -/
theorem exponent_shift (h : -13 ≤ e) (h' : e ≤ 15) : ∃ i < 29, e = (i : Nat) - 13 :=
  ⟨(e + 13).toNat, by omega, by omega⟩

theorem verdict_positiveHead : ∀ i < 29, ∀ j < 29,
    verdict (positiveHead (ofInt ((i : Nat) - 13)))
      (positiveHead (ofInt ((j : Nat) - 13))) = some (compare i j) := by
  decide +kernel

theorem verdict_negativeHead : ∀ i < 29, ∀ j < 29,
    verdict (negativeHead (ofInt ((i : Nat) - 13)))
      (negativeHead (ofInt ((j : Nat) - 13))) = some (compare j i) := by
  decide +kernel

/-- Negative numbers, zero and positive numbers start with bytes of three separate ranges. -/
theorem head_ranges : ∀ i < 29,
    (∃ c r, positiveHead (ofInt ((i : Nat) - 13)) = c :: r ∧ 0x15 < c) ∧
    (∃ c r, negativeHead (ofInt ((i : Nat) - 13)) = c :: r ∧ c < 0x15) := by
  have hp : ∀ i < 29, 0x15 < (positiveHead (ofInt ((i : Nat) - 13))).headD 0 := by
    decide +kernel
  have hn : ∀ i < 29, (negativeHead (ofInt ((i : Nat) - 13))).headD 0xFF < 0x15 := by
    decide +kernel
  intro i hi
  have h := hp i hi
  have h' := hn i hi
  constructor
  · cases hc : positiveHead (ofInt ((i : Nat) - 13)) with
    | nil =>
      rw [hc] at h
      exact absurd h (by decide)
    | cons c r =>
      rw [hc] at h
      exact ⟨c, r, rfl, h⟩
  · cases hc : negativeHead (ofInt ((i : Nat) - 13)) with
    | nil =>
      rw [hc] at h'
      exact absurd h' (by decide)
    | cons c r =>
      rw [hc] at h'
      exact ⟨c, r, rfl, h'⟩

/-- How an encoding begins tells the sign of the number. -/
inductive Encodes : Decimal → Bytes → Prop
  | zero {d : Decimal} : d.toRat = 0 → Encodes d [0x15]
  | positive {d : Decimal} {e : Int} {q : Nat} : Significand d e q →
      d.toRat = value 100 e (Nat.digits 100 q).reverse →
      Encodes d (positiveHead (Int8.ofInt e) ++ mark (Nat.digits 100 q).reverse)
  | negative {d : Decimal} {e : Int} {q : Nat} : Significand d e q →
      d.toRat = -value 100 e (Nat.digits 100 q).reverse →
      Encodes d (negativeHead (Int8.ofInt e) ++ (mark (Nat.digits 100 q).reverse).map (~~~·))

theorem serializeDecimal_encodes (d : Decimal) :
    ∃ bytes, serializeDecimal d = .ok bytes ∧ Encodes d bytes := by
  cases h : d.isZero with
  | true =>
    have hm : d.magnitude = 0 := by simpa [isZero] using h
    refine ⟨[0x15], by simp [serializeDecimal, h], .zero ?_⟩
    simp [toRat, mantissa, hm]
  | false =>
    obtain ⟨e, q, hs, he⟩ := serializeDecimal_spec d h
    refine ⟨_, he, ?_⟩
    cases hn : d.negative with
    | false =>
      simp only [isSignPositive, hn, Bool.not_false, if_true]
      refine .positive hs ?_
      rw [← hs.eq_value]
      simp [toRat, mantissa, hn]
    | true =>
      simp only [isSignPositive, hn, Bool.not_true, Bool.false_eq_true, if_false]
      refine .negative hs ?_
      rw [← hs.eq_value]
      simp [toRat, mantissa, hn, neg_div]

/-- The sign of an encoded number by the first byte of its encoding. -/
theorem Encodes.sign (h : Encodes a x) :
    ∃ c r, x = c :: r ∧ (c < 0x15 ∧ a.toRat < 0 ∨ c = 0x15 ∧ a.toRat = 0 ∨
      0x15 < c ∧ 0 < a.toRat) := by
  cases h with
  | zero h => exact ⟨0x15, [], rfl, Or.inr (Or.inl ⟨rfl, h⟩)⟩
  | positive hs h =>
    obtain ⟨i, hi, rfl⟩ := exponent_shift hs.le_exponent hs.exponent_le
    obtain ⟨c, r, hc, hlt⟩ := (head_ranges i hi).1
    rw [hc]
    refine ⟨c, _, rfl, Or.inr (Or.inr ⟨hlt, ?_⟩)⟩
    rw [h]
    exact (normal_digits hs.mod_ne).value_pos _
  | negative hs h =>
    obtain ⟨i, hi, rfl⟩ := exponent_shift hs.le_exponent hs.exponent_le
    obtain ⟨c, r, hc, hlt⟩ := (head_ranges i hi).2
    rw [hc]
    refine ⟨c, _, rfl, Or.inl ⟨hlt, ?_⟩⟩
    rw [h, neg_lt_zero]
    exact (normal_digits hs.mod_ne).value_pos _

theorem compare_ofInt_shift (i j : Nat) : compare ((i : Int) - 13) ((j : Int) - 13) = compare i j :=
  compare_eq_compare (by omega) (by omega)

theorem compare_neg_neg (x y : ℚ) : compare (-x) (-y) = compare y x :=
  compare_eq_compare neg_lt_neg_iff (by rw [neg_inj, eq_comm])

theorem compare_not (x y : UInt8) : compare (~~~x) (~~~y) = (compare x y).swap := by
  have hx : x.toNat < 256 := x.toNat_lt
  have hy : y.toNat < 256 := y.toNat_lt
  rw [← Std.OrientedOrd.eq_swap]
  simp only [compare, compareOfLessAndEq, UInt8.lt_iff_toNat_lt, ← UInt8.toNat_inj, UInt8.toNat_not,
    UInt8.size]
  split_ifs <;> first | rfl | omega

/-- Numbers on different sides of zero differ in the first byte. -/
theorem Encodes.decides_lt (h : Encodes a x) (h' : Encodes b y) (ha : a.toRat ≤ 0)
    (hb : 0 ≤ b.toRat) (hab : a.toRat < b.toRat) : Decides x y .lt := by
  obtain ⟨c, r, rfl, hc⟩ := h.sign
  obtain ⟨c', r', rfl, hc'⟩ := h'.sign
  have hlt : c < c' := by
    rcases hc with ⟨hc, -⟩ | ⟨rfl, h0⟩ | ⟨-, h0⟩
    · rcases hc' with ⟨-, h1⟩ | ⟨rfl, -⟩ | ⟨hc', -⟩
      · exact absurd hb (not_le.mpr h1)
      · exact hc
      · exact UInt8.lt_trans hc hc'
    · rcases hc' with ⟨-, h1⟩ | ⟨rfl, h1⟩ | ⟨hc', -⟩
      · exact absurd hb (not_le.mpr h1)
      · rw [h0, h1] at hab
        exact absurd hab (lt_irrefl 0)
      · exact hc'
    · exact absurd ha (not_le.mpr h0)
  have hcmp : compare c c' = .lt := by
    simp only [compare, compareOfLessAndEq, if_pos hlt]
  exact (decides_cons_of_ne (by simp [hcmp])).of_eq hcmp

theorem decides_positive {d : Int} (h : Significand a d p) (h' : Significand b e q) :
    Decides (positiveHead (ofInt d) ++ mark (Nat.digits 100 p).reverse)
      (positiveHead (ofInt e) ++ mark (Nat.digits 100 q).reverse)
      (compare (value 100 d (Nat.digits 100 p).reverse)
        (value 100 e (Nat.digits 100 q).reverse)) := by
  have hp := normal_digits h.mod_ne
  have hq := normal_digits h'.mod_ne
  rw [hp.compare_value hq]
  obtain ⟨i, hi, rfl⟩ := exponent_shift h.le_exponent h.exponent_le
  obtain ⟨j, hj, rfl⟩ := exponent_shift h'.le_exponent h'.exponent_le
  rw [compare_ofInt_shift]
  exact (decides_of_verdict (verdict_positiveHead i hi j hj)).append
    (decides_of_verdict (verdict_mark (by decide) hp.digits hq.digits))

theorem decides_negative {d : Int} (h : Significand a d p) (h' : Significand b e q) :
    Decides (negativeHead (ofInt d) ++ (mark (Nat.digits 100 p).reverse).map (~~~·))
      (negativeHead (ofInt e) ++ (mark (Nat.digits 100 q).reverse).map (~~~·))
      (compare (value 100 e (Nat.digits 100 q).reverse)
        (value 100 d (Nat.digits 100 p).reverse)) := by
  have hp := normal_digits h.mod_ne
  have hq := normal_digits h'.mod_ne
  have hm := verdict_map compare_not (mark (Nat.digits 100 p).reverse)
    (mark (Nat.digits 100 q).reverse)
  rw [verdict_mark (by decide) hp.digits hq.digits, Option.map_some,
    ← Std.OrientedOrd.eq_swap] at hm
  rw [hq.compare_value hp]
  obtain ⟨i, hi, rfl⟩ := exponent_shift h.le_exponent h.exponent_le
  obtain ⟨j, hj, rfl⟩ := exponent_shift h'.le_exponent h'.exponent_le
  rw [compare_ofInt_shift]
  exact (decides_of_verdict (verdict_negativeHead i hi j hj)).append (decides_of_verdict hm)

/-- Encodings compare as the numbers, whatever follows them. -/
theorem Encodes.decides (h : Encodes a x) (h' : Encodes b y) :
    Decides x y (compare a.toRat b.toRat) := by
  by_cases hlt : a.toRat ≤ 0 ∧ 0 ≤ b.toRat ∧ a.toRat < b.toRat
  · rw [compare_lt_iff_lt.mpr hlt.2.2]
    exact h.decides_lt h' hlt.1 hlt.2.1 hlt.2.2
  by_cases hgt : b.toRat ≤ 0 ∧ 0 ≤ a.toRat ∧ b.toRat < a.toRat
  · rw [compare_gt_iff_gt.mpr hgt.2.2]
    exact (h'.decides_lt h hgt.1 hgt.2.1 hgt.2.2).symm
  cases h with
  | zero hz =>
    cases h' with
    | zero hz' =>
      rw [hz, hz']
      exact decides_singleton 0x15 0x15
    | @positive e _ hs hv =>
      have := (normal_digits hs.mod_ne).value_pos e
      exact absurd ⟨by linarith, by linarith, by linarith⟩ hlt
    | @negative e _ hs hv =>
      have := (normal_digits hs.mod_ne).value_pos e
      exact absurd ⟨by linarith, by linarith, by linarith⟩ hgt
  | @positive e _ hs hv =>
    have hpos := (normal_digits hs.mod_ne).value_pos e
    cases h' with
    | zero hz' => exact absurd ⟨by linarith, by linarith, by linarith⟩ hgt
    | positive hs' hv' =>
      rw [hv, hv']
      exact decides_positive hs hs'
    | @negative e' _ hs' hv' =>
      have := (normal_digits hs'.mod_ne).value_pos e'
      exact absurd ⟨by linarith, by linarith, by linarith⟩ hgt
  | @negative e _ hs hv =>
    have hpos := (normal_digits hs.mod_ne).value_pos e
    cases h' with
    | zero hz' => exact absurd ⟨by linarith, by linarith, by linarith⟩ hlt
    | @positive e' _ hs' hv' =>
      have := (normal_digits hs'.mod_ne).value_pos e'
      exact absurd ⟨by linarith, by linarith, by linarith⟩ hlt
    | negative hs' hv' =>
      rw [hv, hv', compare_neg_neg]
      exact decides_negative hs hs'

theorem checked_128 {x : Int} (h : -2 ^ 127 ≤ x) (h' : x < 2 ^ 127) :
    checked 128 op x = .ok x := if_pos ⟨h, h'⟩

theorem checked_8 {x : Int} (h : -128 ≤ x) (h' : x < 128) :
    checked 8 op x = .ok x := if_pos ⟨h, h'⟩

/-- The number that the mantissa loop has accumulated after the given digits. -/
def accumulate (m : Nat) (ds : List Nat) : Nat := ds.foldl (fun m d => m * 100 + d) m

theorem le_accumulate (m : Nat) (ds : List Nat) : m ≤ accumulate m ds := by
  induction ds generalizing m with
  | nil => exact le_rfl
  | cons d ds ih =>
    have := ih (m * 100 + d)
    rw [accumulate] at this ⊢
    rw [foldl_cons]
    omega

theorem accumulate_reverse (ds : List Nat) : accumulate 0 ds.reverse = Nat.ofDigits 100 ds := by
  rw [accumulate, foldl_reverse, Nat.ofDigits_eq_foldr]
  congr 1
  funext d m
  simp only [Nat.cast_id]
  ring

/-- Bytes are complemented in negative numbers. -/
def complement (neg : Bool) (c : UInt8) : UInt8 := if neg then ~~~c else c

theorem complement_complement (neg : Bool) (c : UInt8) :
    (if neg then ~~~(complement neg c) else complement neg c) = c := by
  cases neg <;> simp [complement]

theorem readMantissa_cons {d : Nat} (hd : (c / 2).toNat = d) {l : Nat} (hm : m * 100 + d < 2 ^ 127)
    (hl : l + 1 ≤ 127) (s : Bytes) :
    readMantissa neg m l (complement neg c :: s) =
      if c &&& 1 = 0 then .ok (((m * 100 + d : Nat), (l + 1 : Nat)), s)
      else readMantissa neg (m * 100 + d : Nat) (l + 1 : Nat) s := by
  have hm' : (m : Int) * 100 + d < 2 ^ 127 := by exact_mod_cast hm
  have h1 : checked 128 "multiply" ((m : Int) * 100) = .ok ((m : Int) * 100) :=
    checked_128 (by omega) (by omega)
  have h2 : checked 128 "add" ((m : Int) * 100 + d) = .ok ((m : Int) * 100 + d) :=
    checked_128 (by omega) (by omega)
  have h3 : checked 8 "add" ((l : Int) + 1) = .ok ((l : Int) + 1) :=
    checked_8 (by omega) (by omega)
  rw [readMantissa, complement_complement, hd, h1, ok_bind, h2, ok_bind, h3]
  push_cast
  rfl

theorem readMantissa_mark {ds : List Nat} (neg : Bool) (h : Digits 100 ds) (l : Nat)
    (hm : accumulate m ds < 2 ^ 127) (hl : l + ds.length ≤ 127) (s : Bytes) :
    readMantissa neg m l ((mark ds).map (complement neg) ++ s) =
      .ok (((accumulate m ds : Nat), (l + ds.length : Nat)), s) := by
  induction h generalizing m l with
  | @last d _ hd =>
    have hb : ∀ d < 100, (UInt8.ofNat (2 * d) / 2).toNat = d ∧ UInt8.ofNat (2 * d) &&& 1 = 0 := by
      decide
    rw [mark, map_singleton, singleton_append,
      readMantissa_cons (hb d hd).1 (by simpa [accumulate] using hm) (by simpa using hl),
      if_pos (hb d hd).2]
    rfl
  | @cons d ds hd hds ih =>
    have hb : ∀ d < 100,
        (UInt8.ofNat (2 * d + 1) / 2).toNat = d ∧ UInt8.ofNat (2 * d + 1) &&& 1 ≠ 0 := by
      decide
    have hle : m * 100 + d ≤ accumulate m (d :: ds) := le_accumulate _ ds
    have hl' : l + 1 + ds.length ≤ 127 := by
      rw [length_cons] at hl
      omega
    rw [mark_cons hds.ne_nil, map_cons, cons_append,
      readMantissa_cons (hb d hd).1 (by omega) (by omega), if_neg (hb d hd).2,
      ih (l + 1) hm hl', length_cons, Nat.add_assoc l, Nat.add_comm 1]
    rfl

theorem scaleUp_eq {x : Int} (k : Nat) (h : 0 ≤ x) (h' : x * 10 ^ k < 2 ^ 127) :
    scaleUp k x = .ok (x * 10 ^ k) := by
  induction k generalizing x with
  | zero => simp [scaleUp]
  | succ k ih =>
    have hp : x * 10 ^ (k + 1) = x * 10 * 10 ^ k := by ring
    rw [hp] at h' ⊢
    have hx : x * 10 ≤ x * 10 * 10 ^ k := le_mul_of_one_le_right (by omega) (by
      have : (0 : Int) < 10 ^ k := by positivity
      omega)
    rw [scaleUp, checked_128 (by omega) (by omega), ok_bind]
    exact ih (by omega) h'

/-- The exponent is read back from the head of a positive or a negative number. -/
theorem readExponent_head : ∀ i < 29,
    (∃ c r, positiveHead (ofInt ((i : Nat) - 13)) = c :: r ∧ c ≠ 0x15 ∧
      ¬ (0x07 ≤ c ∧ c < 0x15) ∧ Reads (readExponent c) r ((i : Nat) - 13)) ∧
    (∃ c r, negativeHead (ofInt ((i : Nat) - 13)) = c :: r ∧ c ≠ 0x15 ∧
      (0x07 ≤ c ∧ c < 0x15) ∧ Reads (readExponent c) r ((i : Nat) - 13)) := by
  intro i hi
  interval_cases i
  all_goals
    exact ⟨⟨_, _, rfl, by decide, by decide, fun _ => rfl⟩,
      ⟨_, _, rfl, by decide, by decide, fun _ => rfl⟩⟩

theorem Significand.length_le (h : Significand a e q) : (Nat.digits 100 q).length ≤ 15 := by
  refine (Nat.digits_length_le_iff (by decide) q).mpr ?_
  have := h.le_mantissa
  have := a.magnitude_lt
  omega

/-- A number that does not end in a zero has the smallest scale and mantissa. -/
theorem minimal_scale (hm : m % 10 ≠ 0) (h : m * 10 ^ d.scale = d.magnitude * 10 ^ s) :
    m < 2 ^ 96 ∧ s ≤ 28 := by
  have hs : s ≤ d.scale := by
    by_contra hc
    obtain ⟨j, rfl⟩ : ∃ j, s = d.scale + (j + 1) := ⟨s - d.scale - 1, by omega⟩
    have hp : 0 < 10 ^ d.scale := by positivity
    have he : m = d.magnitude * 10 ^ (j + 1) := by
      refine Nat.eq_of_mul_eq_mul_right hp ?_
      rw [h, pow_add]
      ring
    rw [he, pow_succ, ← mul_assoc, Nat.mul_mod_left] at hm
    exact hm rfl
  have hle : m ≤ d.magnitude := by
    obtain ⟨j, hj⟩ : ∃ j, d.scale = s + j := ⟨d.scale - s, by omega⟩
    have hp : 0 < 10 ^ s := by positivity
    have he : m * 10 ^ j = d.magnitude := by
      refine Nat.eq_of_mul_eq_mul_right hp ?_
      rw [← h, hj, pow_add]
      ring
    rw [← he]
    exact Nat.le_mul_of_pos_right m (by positivity)
  exact ⟨hle.trans_lt d.magnitude_lt, hs.trans d.scale_le⟩

/-- The value of a significand as a fraction of two integers. -/
theorem Significand.eq_zpow (h : Significand a e q) :
    (a.magnitude : ℚ) / 10 ^ a.scale = q * (10 : ℚ) ^ (2 * (e - (Nat.digits 100 q).length)) := by
  rw [h.eq_value, value, frac_reverse (by decide), Nat.ofDigits_digits, zpow_mul,
    zpow_sub₀ (by norm_num), zpow_natCast]
  norm_num
  ring

theorem div_pow_eq_div_pow (h : m * 10 ^ d.scale = d.magnitude * 10 ^ s) :
    (m : ℚ) / 10 ^ s = d.magnitude / 10 ^ d.scale := by
  rw [div_eq_div_iff (by positivity) (by positivity)]
  exact_mod_cast h

/-- A significand with few digits is an integer, which gets the zeros its exponent stands for. -/
theorem Significand.integral (h : Significand a e q) (hn : 2 * (e - (Nat.digits 100 q).length) = n)
    : q * 10 ^ n * 10 ^ a.scale = a.magnitude := by
  have hv := h.eq_zpow
  rw [hn, zpow_natCast, div_eq_iff (by positivity)] at hv
  exact_mod_cast hv.symm

theorem Significand.fractional (h : Significand a e q)
    (hn : 2 * (e - (Nat.digits 100 q).length) = -n) : q * 10 ^ a.scale = a.magnitude * 10 ^ n := by
  have hv := h.eq_zpow
  rw [hn, zpow_neg, zpow_natCast, ← div_eq_mul_inv, div_eq_div_iff (by positivity)
    (by positivity)] at hv
  exact_mod_cast hv.symm

theorem normalizeScale_spec (h : Significand a e q) :
    ∃ (m s : Nat), normalizeScale q (Nat.digits 100 q).length e = .ok ((m : Int), s) ∧
      m < 2 ^ 96 ∧ s ≤ 28 ∧ (m : ℚ) / 10 ^ s = a.magnitude / 10 ^ a.scale := by
  have hk := h.length_le
  have hle := h.le_exponent
  have hge := h.exponent_le
  have hmod := h.mod_ne
  have hmag := a.magnitude_lt
  rw [normalizeScale, checked_8 (by omega) (by omega), ok_bind,
    checked_8 (by omega) (by omega), ok_bind]
  by_cases hsc : ((Nat.digits 100 q).length - e) * 2 ≤ 0
  · obtain ⟨n, hn⟩ : ∃ n : Nat, 2 * (e - (Nat.digits 100 q).length) = n :=
      ⟨(2 * (e - (Nat.digits 100 q).length)).toNat, by omega⟩
    have hi := h.integral hn
    have hlt : q * 10 ^ n ≤ a.magnitude := by
      rw [← hi]
      exact Nat.le_mul_of_pos_right _ (by positivity)
    have hneg : -(((Nat.digits 100 q).length - e) * 2) = n := by omega
    refine ⟨q * 10 ^ n, 0, ?_, by omega, by omega, div_pow_eq_div_pow (by simpa using hi)⟩
    rw [if_pos hsc, hneg, checked_8 (by omega) (by omega), ok_bind, Int.toNat_natCast,
      scaleUp_eq n (by omega) (by exact_mod_cast (by omega : q * 10 ^ n < 2 ^ 127))]
    push_cast
    rfl
  · obtain ⟨n, hn⟩ : ∃ n : Nat, ((Nat.digits 100 q).length - e) * 2 = n + 2 :=
      ⟨(((Nat.digits 100 q).length - e) * 2).toNat - 2, by omega⟩
    have hf := h.fractional (n := n + 2) (by push_cast; omega)
    rw [if_neg hsc, hn]
    by_cases hz : (q : Int) % 10 = 0
    · have hq : q / 10 * 10 ^ a.scale = a.magnitude * 10 ^ (n + 1) := by
        refine Nat.eq_of_mul_eq_mul_right (by decide : 0 < 10) ?_
        rw [mul_right_comm, Nat.div_mul_cancel (by omega), hf]
        ring
      obtain ⟨hlt, hs⟩ := minimal_scale (by omega) hq
      refine ⟨q / 10, n + 1, ?_, hlt, hs, div_pow_eq_div_pow hq⟩
      rw [if_pos hz]
      rfl
    · obtain ⟨hlt, hs⟩ := minimal_scale (by omega) hf
      refine ⟨q, n + 2, ?_, hlt, hs, div_pow_eq_div_pow hf⟩
      rw [if_neg hz]
      rfl

theorem reads_deserializeDecimal {r : Bytes} {n k p p' : Int} (hc : c ≠ 0x15)
    (hneg : decide (0x07 ≤ c ∧ c < 0x15) = neg) (he : Reads (readExponent c) r e)
    (hx : Reads (readMantissa neg 0 0) x (n, k)) (hn : normalizeScale n k e = .ok (p, s))
    (hp : signedMantissa neg p = .ok p') (hd : fromI128WithScale p' s = .ok d) :
    Reads deserializeDecimal (c :: (r ++ x)) d := by
  refine (reads_readByte unexpectedEof c).bind ?_
  rw [if_neg hc, hneg]
  refine he.bind ?_
  rw [← append_nil x]
  refine hx.bind ?_
  refine Reads.bind (a := []) (reads_lift hn) ?_
  refine Reads.bind (a := []) (reads_lift hp) ?_
  exact reads_lift hd

theorem fromI128WithScale_ok {n : Int} (h : n.natAbs < 2 ^ 96) (hs : s ≤ 28) :
    ∃ d, fromI128WithScale n s = .ok d ∧ d.toRat = n / 10 ^ s := by
  obtain ⟨d, hd, hv⟩ := tryFromI128WithScale_of_lt h hs
  exact ⟨d, by rw [fromI128WithScale, hd], hv⟩

theorem Significand.reads_mantissa (h : Significand a e q) (neg : Bool) :
    Reads (readMantissa neg 0 0) ((mark (Nat.digits 100 q).reverse).map (complement neg))
      ((q : Int), ((Nat.digits 100 q).length : Int)) := by
  intro s
  have hle := h.le_mantissa
  have hmag := a.magnitude_lt
  have hlen := h.length_le
  have hacc : accumulate 0 (Nat.digits 100 q).reverse = q := by
    rw [accumulate_reverse, Nat.ofDigits_digits]
  have hr := readMantissa_mark (m := 0) neg (normal_digits h.mod_ne).digits 0
    (by rw [hacc]; omega) (by rw [length_reverse]; omega) s
  rw [hacc, length_reverse, Nat.zero_add] at hr
  exact hr

/-- Decoding consumes exactly the encoding and returns the number it denotes. -/
theorem Encodes.reads (h : Encodes a x) :
    ∃ d, Reads deserializeDecimal x d ∧ d.toRat = a.toRat := by
  cases h with
  | zero hz =>
    refine ⟨Decimal.zero, fun s => rfl, ?_⟩
    rw [hz]
    simp [Decimal.toRat, Decimal.mantissa, Decimal.zero]
  | @positive e q hs hv =>
    obtain ⟨m, s, hn, hm, hs28, hval⟩ := normalizeScale_spec hs
    obtain ⟨d, hd, hdv⟩ := fromI128WithScale_ok (n := m) (by simpa using hm) hs28
    refine ⟨d, ?_, by rw [hdv, hv, ← hs.eq_value, ← hval]; simp⟩
    have hr := hs.reads_mantissa false
    rw [show complement false = id from rfl, map_id] at hr
    obtain ⟨i, hi, rfl⟩ := exponent_shift hs.le_exponent hs.exponent_le
    obtain ⟨c, r, hc, hne, hneg, he⟩ := (readExponent_head i hi).1
    rw [hc]
    exact reads_deserializeDecimal hne (decide_eq_false hneg) he hr hn rfl hd
  | @negative e q hs hv =>
    obtain ⟨m, s, hn, hm, hs28, hval⟩ := normalizeScale_spec hs
    obtain ⟨d, hd, hdv⟩ := fromI128WithScale_ok (n := -m) (by simpa using hm) hs28
    refine ⟨d, ?_, by rw [hdv, hv, ← hs.eq_value, ← hval]; simp [neg_div]⟩
    have hr := hs.reads_mantissa true
    obtain ⟨i, hi, rfl⟩ := exponent_shift hs.le_exponent hs.exponent_le
    obtain ⟨c, r, hc, hne, hneg, he⟩ := (readExponent_head i hi).2
    rw [hc]
    exact reads_deserializeDecimal hne (decide_eq_true hneg) he hr hn
      (checked_128 (by omega) (by omega)) hd

/-- Serialized decimals compare as rational numbers, no encoding is a strict prefix of another
number's, and decoding consumes exactly the encoding and returns an equal number. -/
theorem serializeDecimal_order_and_readBack (a b : Decimal) :
    ∃ x y, serializeDecimal a = .ok x ∧ serializeDecimal b = .ok y ∧
      compare x y = compare a.toRat b.toRat ∧ (x = y ↔ a.toRat = b.toRat) ∧
      (x <+: y → a.toRat = b.toRat) ∧
      ∃ d, d.toRat = a.toRat ∧ ∀ s, deserializeDecimal (x ++ s) = .ok (d, s) := by
  obtain ⟨x, hx, hax⟩ := serializeDecimal_encodes a
  obtain ⟨y, hy, hby⟩ := serializeDecimal_encodes b
  have hd := hax.decides hby
  obtain ⟨d, hr, hv⟩ := hax.reads
  have heq : x = y ↔ a.toRat = b.toRat := hd.eq_iff.trans compare_eq_iff_eq
  exact ⟨x, y, hx, hy, hd.compare_eq, heq, fun hp => heq.mp (hd.eq_of_isPrefix hp), d, hv, hr⟩

end KiteSQL
