import KiteSQL.Lib.Scientific
import KiteSQL.Types.MemComparable

/-! The digits and the exponent that the decimal encoder computes are those of its number. -/
namespace KiteSQL

open Scientific List

variable {m n k : Nat}

theorem precision_bounds (hm : m ≠ 0) (h : m < 2 ^ 96) :
    10 ^ (precision m - 1) ≤ m ∧ m < 10 ^ precision m ∧ 1 ≤ precision m ∧ precision m ≤ 29 := by
  have hlen : pow10.length = 30 := rfl
  have hget : ∀ i (hi : i < pow10.length), pow10[i] = 10 ^ i := by
    intro i hi
    simp [pow10]
  have hle : precision m ≤ 29 := by
    by_contra hc
    have := @List.not_of_lt_findIdx _ (m < ·) pow10 29 (by
      rw [precision] at hc
      omega)
    rw [hget] at this
    simp at this
    omega
  have hi : precision m < pow10.length := by omega
  have hlt : m < 10 ^ precision m := by
    have hf := @List.findIdx_getElem _ (m < ·) pow10 hi
    change decide (m < pow10[precision m]) = true at hf
    rw [hget] at hf
    simpa using hf
  have hpos : 1 ≤ precision m := by
    by_contra hc
    rw [show precision m = 0 by omega] at hlt
    omega
  refine ⟨?_, hlt, hpos, hle⟩
  have := @List.not_of_lt_findIdx _ (m < ·) pow10 (precision m - 1) (by
    rw [precision] at hpos ⊢
    omega)
  rw [hget] at this
  simpa using this

theorem removeTrailingZeros_spec (hm : m ≠ 0) (dn : Nat) :
    ∃ z q, removeTrailingZeros m dn = (q, dn - z) ∧ m = q * 10 ^ z ∧ q % 10 ≠ 0 := by
  fun_induction removeTrailingZeros m dn with
  | case1 m dn h ih =>
    obtain ⟨z, q, he, hq, hz⟩ := ih (by omega)
    refine ⟨z + 1, q, by rw [he, Nat.sub_sub, Nat.add_comm], ?_, hz⟩
    have : m = m / 10 * 10 := by omega
    rw [this, hq, pow_succ, mul_assoc]
  | case2 m dn h => exact ⟨0, m, by simp, by simp, by omega⟩

/-- The byte of a digit that others follow. -/
def markedDigit (d : Nat) : UInt8 := UInt8.ofNat (2 * d + 1)

theorem digitByte_eq (m : Nat) : digitByte m = markedDigit (m % 100) := by
  have hd : ∀ d < 100, UInt8.ofNat d * 2 + 1 = UInt8.ofNat (2 * d + 1) := by decide
  exact hd (m % 100) (Nat.mod_lt m (by decide))

theorem pushDigits_eq (m : Nat) (byteArray : Bytes) :
    pushDigits m byteArray = byteArray ++ (Nat.digits 100 m).map markedDigit := by
  fun_induction pushDigits m byteArray with
  | case1 m byteArray h ih =>
    rw [ih, Nat.digits_def' (by decide) (Nat.pos_of_ne_zero h), digitByte_eq]
    simp
  | case2 m byteArray h =>
    rw [not_not] at h
    simp [h]

theorem pushWideDigits_eq (m : Nat) (byteArray : Bytes) :
    pushDigits (pushWideDigits m byteArray).1 (pushWideDigits m byteArray).2 =
      byteArray ++ (Nat.digits 100 m).map markedDigit := by
  fun_induction pushWideDigits m byteArray with
  | case1 m byteArray h ih =>
    have hm : 0 < m := by
      refine Nat.pos_of_ne_zero ?_
      rintro rfl
      simp at h
    rw [ih, Nat.digits_def' (by decide) hm, digitByte_eq]
    simp
  | case2 m byteArray h => exact pushDigits_eq m byteArray

/-- The base-100 exponent rounds half of the base-10 exponent up. -/
theorem e100_cases (e : Int) :
    let e100 := if 0 ≤ e then (e + 1).tdiv 2 else e.tdiv 2
    e = 2 * e100 ∨ e + 1 = 2 * e100 := by
  intro e100
  simp only [e100]
  split_ifs with h
  · rw [Int.tdiv_eq_ediv_of_nonneg (by omega)]
    omega
  · rw [← Int.neg_neg e, Int.neg_tdiv, Int.tdiv_eq_ediv_of_nonneg (by omega)]
    omega

/-- A mantissa that does not end in `00` has its base-100 digits in normal form. -/
theorem normal_digits (hm : m % 100 ≠ 0) : Normal 100 (Nat.digits 100 m).reverse := by
  have hm0 : 0 < m := by omega
  rw [Nat.digits_def' (by decide) hm0, reverse_cons]
  refine ⟨digits_concat ?_ (by omega) (Nat.mod_lt m (by decide)), ?_⟩
  · intro x hx
    exact Nat.digits_lt_base (by decide) (mem_reverse.mp hx)
  · intro d hd
    rw [← reverse_cons, ← Nat.digits_def' (by decide) hm0, head?_reverse] at hd
    have hne : Nat.digits 100 m ≠ [] := 
      Nat.digits_ne_nil_iff_ne_zero.mpr hm0.ne'
    rw [getLast?_eq_some_getLast hne, Option.some.injEq] at hd
    rw [← hd]
    exact Nat.pos_of_ne_zero (Nat.getLast_digit_ne_zero 100 hm0.ne')

theorem finishDigits_digits (hm : m % 100 ≠ 0) :
    finishDigits ((Nat.digits 100 m).map markedDigit) =
      .ok (mark (Nat.digits 100 m).reverse) := by
  have hd : ∀ d < 100, markedDigit d - 1 = UInt8.ofNat (2 * d) := by decide
  rw [Nat.digits_def' (by decide) (by omega), reverse_cons, mark_concat, map_cons,
    finishDigits, reverse_cons, hd _ (Nat.mod_lt m (by decide)), ← map_reverse]
  rfl

/-- The mantissa as the digit loops receive it: without trailing zeros, of even length. -/
def evenMantissa (mantissa digitNum : Nat) : Nat :=
  let r := removeTrailingZeros mantissa digitNum
  if r.2 % 2 = 1 then r.1 * 10 else r.1

theorem length_digits_eq (hk : n * 100 ≥ 100 ^ k) (hk' : n < 100 ^ k) :
    (Nat.digits 100 n).length = k := by
  have hle : (Nat.digits 100 n).length ≤ k := (Nat.digits_length_le_iff (by decide) n).mpr hk'
  refine hle.antisymm ?_
  by_contra hc
  have hlt : n < 100 ^ (Nat.digits 100 n).length := Nat.lt_base_pow_length_digits (by decide)
  have hpow : 100 ^ ((Nat.digits 100 n).length + 1) ≤ 100 ^ k :=
    Nat.pow_le_pow_right (by decide) (by omega)
  rw [pow_succ] at hpow
  omega

theorem evenMantissa_spec (hm : m ≠ 0) (h : m < 2 ^ 96) {dn : Nat}
    (hdn : dn = precision m ∨ dn = precision m + 1) :
    ∃ k, (Nat.digits 100 (evenMantissa m dn)).length = k ∧
      evenMantissa m dn * 10 ^ dn = m * 100 ^ k ∧ evenMantissa m dn % 100 ≠ 0 ∧
      evenMantissa m dn ≤ m * 10 := by
  obtain ⟨hlo, hhi, hp, -⟩ := precision_bounds hm h
  obtain ⟨z, q, hr, hq, hz⟩ := removeTrailingZeros_spec hm dn
  have hzp : z < precision m := by
    have hq1 : 10 ^ z ≤ m := by
      rw [hq]
      exact Nat.le_mul_of_pos_left _ (by omega)
    exact (Nat.pow_lt_pow_iff_right (by decide)).mp (hq1.trans_lt hhi)
  obtain ⟨k, hk⟩ : ∃ k, (dn - z) % 2 = 1 ∧ dn - z + 1 = 2 * k ∨
      (dn - z) % 2 ≠ 1 ∧ dn - z = 2 * k := by
    rcases Nat.even_or_odd' (dn - z) with ⟨c, hc | hc⟩
    · exact ⟨c, Or.inr ⟨by omega, hc⟩⟩
    · exact ⟨c + 1, Or.inl ⟨by omega, by omega⟩⟩
  have hev : evenMantissa m dn * 10 ^ dn = m * 100 ^ k ∧ evenMantissa m dn % 100 ≠ 0 ∧
      evenMantissa m dn ≤ m * 10 := by
    have hqm : q ≤ m := by
      rw [hq]
      exact Nat.le_mul_of_pos_right q (by positivity)
    have hpow : (10 : Nat) ^ dn = 10 ^ z * 10 ^ (dn - z) := by
      rw [← pow_add]
      congr 1
      omega
    have h100 : (100 : Nat) ^ k = 10 ^ (2 * k) := by
      rw [pow_mul]
      norm_num
    rw [evenMantissa, hr, hpow, h100]
    obtain ⟨ho, hk⟩ | ⟨ho, hk⟩ := hk
    · simp only [ho, if_true, ← hk]
      refine ⟨?_, by omega, by omega⟩
      rw [hq, pow_succ]
      ring
    · simp only [ho, if_false, ← hk]
      refine ⟨?_, by omega, by omega⟩
      rw [← mul_assoc, ← hq]
  obtain ⟨heq, hmod, hle⟩ := hev
  have hdn' : (10 : Nat) ^ precision m ≤ 10 ^ dn := Nat.pow_le_pow_right (by decide) (by omega)
  have hdn'' : (10 : Nat) ^ dn ≤ 10 ^ (precision m - 1) * 100 := by
    rw [show (100 : Nat) = 10 ^ 2 by rfl, ← pow_add]
    exact Nat.pow_le_pow_right (by decide) (by omega)
  have hpos : 0 < (10 : Nat) ^ dn := by positivity
  refine ⟨k, length_digits_eq ?_ ?_, heq, hmod, hle⟩
  · refine Nat.le_of_mul_le_mul_right ?_ hpos
    calc 100 ^ k * 10 ^ dn ≤ 100 ^ k * (m * 100) := by
          exact Nat.mul_le_mul_left _ (hdn''.trans (Nat.mul_le_mul_right 100 hlo))
      _ = evenMantissa m dn * 100 * 10 ^ dn := by
          rw [mul_right_comm, heq]
          ring
  · refine Nat.lt_of_mul_lt_mul_right (a := 10 ^ dn) ?_
    calc evenMantissa m dn * 10 ^ dn = m * 100 ^ k := heq
      _ < 10 ^ dn * 100 ^ k := Nat.mul_lt_mul_of_pos_right (hhi.trans_le hdn') (by positivity)
      _ = 100 ^ k * 10 ^ dn := Nat.mul_comm _ _

/-- What the digits of `q` and the exponent `e` have to do with a decimal. -/
structure Significand (d : Decimal) (e : Int) (q : Nat) : Prop where
  mod_ne : q % 100 ≠ 0
  le_exponent : -13 ≤ e
  exponent_le : e ≤ 15
  le_mantissa : q ≤ d.magnitude * 10
  eq_value : (d.magnitude : ℚ) / 10 ^ d.scale = value 100 e (Nat.digits 100 q).reverse

theorem decimal_value_eq {d : Decimal} {e : Int} {q dn : Nat} (hdn : (dn : Int) = 2 * e + d.scale)
    (hq : q * 10 ^ dn = d.magnitude * 100 ^ (Nat.digits 100 q).length) :
    (d.magnitude : ℚ) / 10 ^ d.scale = value 100 e (Nat.digits 100 q).reverse := by
  have h10 : (10 : ℚ) ≠ 0 := by norm_num
  have hq' : (q : ℚ) * 10 ^ dn = d.magnitude * 100 ^ (Nat.digits 100 q).length := by
    exact_mod_cast hq
  have hp : (10 : ℚ) ^ dn = (100 : ℚ) ^ e * 10 ^ d.scale := by
    rw [← zpow_natCast, hdn, zpow_add₀ h10, zpow_mul, zpow_natCast]
    norm_num
  rw [value, frac_reverse (by decide), Nat.ofDigits_digits]
  rw [hp] at hq'
  push_cast
  field_simp
  linarith

theorem decimalEM_spec (d : Decimal) (h : d.isZero = false) :
    ∃ e q, Significand d e q ∧
      decimalEM d = .ok (Int8.ofInt e, mark (Nat.digits 100 q).reverse) := by
  have hm : d.magnitude ≠ 0 := by simpa [Decimal.isZero] using h
  have habs : d.mantissa.natAbs = d.magnitude := by
    unfold Decimal.mantissa
    split <;> simp
  obtain ⟨-, -, hp, hp'⟩ := precision_bounds hm d.magnitude_lt
  have hs := d.scale_le
  set e10 : Int := precision d.magnitude - d.scale with he10
  set e : Int := if 0 ≤ e10 then (e10 + 1).tdiv 2 else e10.tdiv 2 with he
  have hc : e10 = 2 * e ∨ e10 + 1 = 2 * e := e100_cases e10
  set dn : Nat := if e10 = 2 * e then precision d.magnitude else precision d.magnitude + 1 with hdn
  have hdn' : dn = precision d.magnitude ∨ dn = precision d.magnitude + 1 := by
    rw [hdn]
    split <;> simp
  have hdn'' : (dn : Int) = 2 * e + d.scale := by
    rw [hdn]
    split <;> push_cast <;> omega
  obtain ⟨k, hk, hq, hmod, hle⟩ := evenMantissa_spec hm d.magnitude_lt hdn'
  refine ⟨e, evenMantissa d.magnitude dn, ⟨hmod, by omega, by omega, hle,
    decimal_value_eq hdn'' (by rw [hk, hq])⟩, ?_⟩
  rw [decimalEM, if_neg (by simp [h])]
  simp only [habs, ← he10, ← he, ← hdn]
  change (finishDigits (pushDigits (pushWideDigits (evenMantissa d.magnitude dn) []).1
    (pushWideDigits (evenMantissa d.magnitude dn) []).2)).bind
      (fun r => .ok (Int8.ofInt e, r)) = _
  rw [pushWideDigits_eq, nil_append, finishDigits_digits hmod]
  rfl

end KiteSQL
