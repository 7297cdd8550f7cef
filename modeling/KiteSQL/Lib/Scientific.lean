import KiteSQL.Lib.LexCode

/-! Positive numbers in scientific notation to a base `B`, and a byte code of their digits that
keeps their order. -/
namespace Scientific

open LexCode List Ordering

variable {B d e : Nat} {ds es : List Nat}

/-- A digit list ends in a digit other than zero. -/
inductive Digits (B : Nat) : List Nat → Prop
  | last {d : Nat} : 0 < d → d < B → Digits B [d]
  | cons {d : Nat} {ds : List Nat} : d < B → Digits B ds → Digits B (d :: ds)

/-- The number `0.d₁d₂…` to base `B`. -/
def frac (B : Nat) : List Nat → ℚ
  | [] => 0
  | d :: ds => (d + frac B ds) / B

theorem frac_cons : frac B (d :: ds) = (d + frac B ds) / B := rfl

theorem Digits.pos (h : Digits B ds) : 0 < B := by
  cases h <;> omega

theorem Digits.frac_pos (h : Digits B ds) : 0 < frac B ds := by
  have hB : (0 : ℚ) < B := by exact_mod_cast h.pos
  induction h with
  | @last d hd _ =>
    have : (0 : ℚ) < d := by exact_mod_cast hd
    simp only [frac]
    positivity
  | cons _ _ ih =>
    simp only [frac]
    positivity

theorem Digits.frac_lt_one (h : Digits B ds) : frac B ds < 1 := by
  have hB : (0 : ℚ) < B := by exact_mod_cast h.pos
  induction h with
  | @last d _ hd =>
    have : (d : ℚ) < B := by exact_mod_cast hd
    simpa [frac, div_lt_one hB] using this
  | @cons d ds hd _ ih =>
    have : (d : ℚ) + 1 ≤ B := by exact_mod_cast hd
    rw [frac, div_lt_one hB]
    linarith

/-- A leading digit other than zero bounds the fraction from below. -/
theorem Digits.le_frac (h : Digits B (d :: ds)) (hd : 0 < d) : (1 : ℚ) / B ≤ frac B (d :: ds) := by
  have hB : (0 : ℚ) < B := by exact_mod_cast h.pos
  have hd' : (1 : ℚ) ≤ d := by exact_mod_cast hd
  have hf : 0 ≤ frac B ds := by
    cases h with
    | last => simp [frac]
    | cons _ h => exact h.frac_pos.le
  rw [frac]
  gcongr
  linarith

/-- Every digit but the last is marked by an odd byte. -/
def mark : List Nat → List UInt8
  | [] => []
  | [d] => [UInt8.ofNat (2 * d)]
  | d :: ds => UInt8.ofNat (2 * d + 1) :: mark ds

theorem Digits.ne_nil (h : Digits B ds) : ds ≠ [] := by
  cases h <;> simp

theorem mark_cons (h : ds ≠ []) : mark (d :: ds) = UInt8.ofNat (2 * d + 1) :: mark ds := by
  cases ds with
  | nil => exact absurd rfl h
  | cons => rfl

/-- Leading digits decide the order of fractions, the rest of the digits breaks ties. -/
theorem compare_leading (hB : 0 < B) {x y : ℚ} (hx : 0 ≤ x) (hx' : x < 1) (hy : 0 ≤ y)
    (hy' : y < 1) : compare ((d + x) / B) ((e + y) / B) = (compare d e).then (compare x y) := by
  have hB' : (0 : ℚ) < B := by exact_mod_cast hB
  rcases lt_trichotomy d e with h | rfl | h
  · have hq : (d : ℚ) + 1 ≤ e := by exact_mod_cast h
    have hl : (d + x) / B < (e + y) / B := by
      rw [div_lt_div_iff_of_pos_right hB']
      linarith
    rw [compare_lt_iff_lt.mpr hl, compare_lt_iff_lt.mpr h]
    rfl
  · rw [compare_eq_iff_eq.mpr rfl, eq_then]
    refine compare_eq_compare ?_ ?_
    · rw [div_lt_div_iff_of_pos_right hB', add_lt_add_iff_left]
    · rw [div_left_inj' hB'.ne', add_right_inj]
  · have hq : (e : ℚ) + 1 ≤ d := by exact_mod_cast h
    have hl : (e + y) / B < (d + x) / B := by
      rw [div_lt_div_iff_of_pos_right hB']
      linarith
    rw [compare_gt_iff_gt.mpr hl, compare_gt_iff_gt.mpr h]
    rfl

theorem compare_ofNat {m n : Nat} (hm : m < 256) (hn : n < 256) :
    compare (UInt8.ofNat m) (UInt8.ofNat n) = compare m n := by
  simp only [compare, compareOfLessAndEq, UInt8.lt_iff_toNat_lt, UInt8.toNat_ofNat',
    ← UInt8.toNat_inj, Nat.reducePow, Nat.mod_eq_of_lt hm, Nat.mod_eq_of_lt hn]

/-- The digit decides first, then the mark, then what follows two equal bytes. -/
theorem verdict_marked {i j : Nat} {a b : List UInt8} {o : Ordering} (hd : 2 * d + i < 256)
    (he : 2 * e + j < 256) (hi : i ≤ 1) (hj : j ≤ 1) (hab : i = j → verdict a b = some o)
    (hne : i ≠ j → compare i j = o) :
    verdict (UInt8.ofNat (2 * d + i) :: a) (UInt8.ofNat (2 * e + j) :: b) =
      some ((compare d e).then o) := by
  rw [verdict, compare_ofNat hd he]
  rcases lt_trichotomy d e with h | rfl | h
  · rw [Nat.compare_eq_lt.mpr h, Nat.compare_eq_lt.mpr (by omega)]
    rfl
  · rw [Nat.compare_eq_eq.mpr rfl, eq_then]
    rcases lt_trichotomy i j with h | rfl | h
    · rw [← hne h.ne, Nat.compare_eq_lt.mpr h, Nat.compare_eq_lt.mpr (by omega)]
    · rw [Nat.compare_eq_eq.mpr rfl]
      exact hab rfl
    · rw [← hne h.ne', Nat.compare_eq_gt.mpr h, Nat.compare_eq_gt.mpr (by omega)]
  · rw [Nat.compare_eq_gt.mpr h, Nat.compare_eq_gt.mpr (by omega)]
    rfl

/-- Marked digit lists compare as the fractions they denote. -/
theorem verdict_mark (hB : 2 * B ≤ 256) (h : Digits B ds) (h' : Digits B es) :
    verdict (mark ds) (mark es) = some (compare (frac B ds) (frac B es)) := by
  have h0 : (0 : ℚ) ≤ frac B [] ∧ frac B [] < 1 := by simp [frac]
  induction h generalizing es with
  | @last d hd hdB =>
    cases h' with
    | @last e he heB =>
      rw [frac_cons, frac_cons, compare_leading (by omega) h0.1 h0.2 h0.1 h0.2]
      exact verdict_marked (i := 0) (j := 0) (by omega) (by omega) (by simp) (by simp)
        (by simp [verdict]) (by simp)
    | @cons e es heB hes =>
      rw [frac_cons, frac_cons, mark_cons hes.ne_nil,
        compare_leading hes.pos h0.1 h0.2 hes.frac_pos.le hes.frac_lt_one]
      exact verdict_marked (i := 0) (by omega) (by omega) (by simp) (by simp) (by simp)
        (fun _ => (compare_lt_iff_lt.mpr hes.frac_pos).symm)
  | @cons d ds hdB hds ih =>
    cases h' with
    | @last e he heB =>
      rw [frac_cons, frac_cons, mark_cons hds.ne_nil,
        compare_leading hds.pos hds.frac_pos.le hds.frac_lt_one h0.1 h0.2]
      exact verdict_marked (j := 0) (by omega) (by omega) (by simp) (by simp) (by simp)
        (fun _ => (compare_gt_iff_gt.mpr hds.frac_pos).symm)
    | @cons e es heB hes =>
      rw [frac_cons, frac_cons, mark_cons hds.ne_nil, mark_cons hes.ne_nil,
        compare_leading hds.pos hds.frac_pos.le hds.frac_lt_one hes.frac_pos.le hes.frac_lt_one]
      exact verdict_marked (by omega) (by omega) (by simp) (by simp) (fun _ => ih hes) (by simp)

theorem digits_concat (hs : ∀ x ∈ ds, x < B) (hd : 0 < d) (hB : d < B) : Digits B (ds ++ [d]) := by
  induction ds with
  | nil => exact .last hd hB
  | cons e ds ih => exact .cons (hs e (by simp)) (ih fun x hx => hs x (by simp [hx]))

theorem mark_concat (ds : List Nat) (d : Nat) :
    mark (ds ++ [d]) = ds.map (fun x => UInt8.ofNat (2 * x + 1)) ++ [UInt8.ofNat (2 * d)] := by
  induction ds with
  | nil => rfl
  | cons e ds ih =>
    rw [cons_append, mark_cons (by simp), ih]
    rfl

theorem frac_concat (ds : List Nat) (d : Nat) :
    frac B (ds ++ [d]) = frac B ds + d / (B : ℚ) ^ (ds.length + 1) := by
  induction ds with
  | nil => simp [frac]
  | cons e ds ih =>
    rw [cons_append, frac_cons, frac_cons, ih, length_cons, pow_succ _ (ds.length + 1),
      ← add_assoc, add_div, div_div]

/-- Digits listed from the lowest on denote their number divided by a power of the base. -/
theorem frac_reverse (hB : 0 < B) (ds : List Nat) :
    frac B ds.reverse = Nat.ofDigits B ds / (B : ℚ) ^ ds.length := by
  have hq : (B : ℚ) ≠ 0 := by exact_mod_cast hB.ne'
  induction ds with
  | nil => simp [frac]
  | cons d ds ih =>
    rw [reverse_cons, frac_concat, ih, Nat.ofDigits_cons, length_reverse, length_cons]
    push_cast
    field_simp
    ring

/-- The number with exponent `n` and the given digits. -/
def value (B : Nat) (n : ℤ) (ds : List Nat) : ℚ := (B : ℚ) ^ n * frac B ds

/-- Normal form: the leading digit is not zero either. -/
structure Normal (B : Nat) (ds : List Nat) : Prop where
  digits : Digits B ds
  leading : ∀ d, ds.head? = some d → 0 < d

theorem Normal.le_frac (h : Normal B ds) : (1 : ℚ) / B ≤ frac B ds := by
  cases ds with
  | nil => exact absurd rfl h.digits.ne_nil
  | cons d ds => exact h.digits.le_frac (h.leading d rfl)

theorem Normal.value_pos (h : Normal B ds) (n : ℤ) : 0 < value B n ds := by
  have hB : (0 : ℚ) < B := by exact_mod_cast h.digits.pos
  exact mul_pos (zpow_pos hB n) h.digits.frac_pos

theorem Normal.value_lt (h : Normal B ds) (h' : Normal B es) {m n : ℤ} (hmn : m < n) :
    value B m ds < value B n es := by
  have hB : (0 : ℚ) < B := by exact_mod_cast h.digits.pos
  have hB1 : (1 : ℚ) ≤ B := by exact_mod_cast h.digits.pos
  calc value B m ds < (B : ℚ) ^ m * 1 := by
        exact mul_lt_mul_of_pos_left h.digits.frac_lt_one (zpow_pos hB m)
    _ ≤ (B : ℚ) ^ (n - 1) * 1 := by
        gcongr
        omega
    _ = (B : ℚ) ^ n * (1 / B) := by
        rw [zpow_sub_one₀ hB.ne', mul_one, one_div]
    _ ≤ value B n es := by
        exact mul_le_mul_of_nonneg_left h'.le_frac (zpow_pos hB n).le

/-- Exponents decide the order of normal forms, digits break ties. -/
theorem Normal.compare_value (h : Normal B ds) (h' : Normal B es) (m n : ℤ) :
    compare (value B m ds) (value B n es) =
      (compare m n).then (compare (frac B ds) (frac B es)) := by
  rcases lt_trichotomy m n with hmn | rfl | hmn
  · rw [compare_lt_iff_lt.mpr (h.value_lt h' hmn), compare_lt_iff_lt.mpr hmn]
    rfl
  · have hB : (0 : ℚ) < (B : ℚ) ^ m := zpow_pos (by exact_mod_cast h.digits.pos) m
    rw [compare_eq_iff_eq.mpr rfl, eq_then]
    refine compare_eq_compare ?_ ?_
    · rw [value, value, mul_lt_mul_iff_right₀ hB]
    · rw [value, value, mul_right_inj' hB.ne']
  · rw [compare_gt_iff_gt.mpr (h'.value_lt h hmn), compare_gt_iff_gt.mpr hmn]
    rfl

end Scientific
