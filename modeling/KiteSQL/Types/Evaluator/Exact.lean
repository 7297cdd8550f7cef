import KiteSQL.Types.CommonType
import KiteSQL.Types.Evaluator.Defined
import KiteSQL.Types.Evaluator.Unary

/-! Arithmetic on integers and decimals against arithmetic on numbers. -/
namespace KiteSQL

open DataValue MachineInt Option List

/-- The number a value stands for. -/
def DataValue.number : DataValue → Option ℚ
  | .int8 v => some (toInt v)
  | .int16 v => some (toInt v)
  | .int32 v => some (toInt v)
  | .int64 v => some (toInt v)
  | .uInt8 v => some (toInt v)
  | .uInt16 v => some (toInt v)
  | .uInt32 v => some (toInt v)
  | .uInt64 v => some (toInt v)
  | .decimal v => some v.toRat
  | _ => none

/-- The quotient without its fraction. -/
def truncatedQuotient (x y : ℚ) : Int := Int.tdiv (x.num * y.den) (y.num * x.den)

/-- There is none for a divisor of zero. -/
def exactResult (op : BinaryOperator) (x y : ℚ) : Option ℚ :=
  match op with
  | .plus => some (x + y)
  | .minus => some (x - y)
  | .multiply => some (x * y)
  | .divide => if y = 0 then none else some (x / y)
  | .modulo => if y = 0 then none else some (x - y * truncatedQuotient x y)
  | _ => none

/-- Numbers of the type. -/
def Representable (ty : LogicalType) (q : ℚ) : Prop := ∃ v, Fits v ty ∧ v.number = some q

/-- NULL where no number is expected, else the number or, if it is none of the type, an error. -/
def Exactly (ty : LogicalType) (expected : Option ℚ) (r : Result DataValue) : Prop :=
  match expected with
  | none => r = .ok .null
  | some q =>
    (∃ v, Fits v ty ∧ v.number = some q ∧ r = .ok v) ∨
      ¬ Representable ty q ∧ r = .error (.error .overFlow)

def exactOperators : LogicalType → List BinaryOperator
  | .tinyint | .smallint | .integer | .bigint | .uTinyint | .uSmallint | .uInteger | .uBigint =>
    [.plus, .minus, .multiply, .modulo]
  | .decimal _ _ => [.plus, .minus, .multiply, .divide, .modulo]
  | _ => []

def lowest : LogicalType → ℚ
  | .tinyint => -2 ^ 7
  | .smallint => -2 ^ 15
  | .integer => -2 ^ 31
  | .bigint => -2 ^ 63
  | _ => 0

/-- Decimals need a result that is a decimal; integers must not be the lowest one modulo -1. -/
def Regular (ty : LogicalType) (op : BinaryOperator) (left right : DataValue) : Prop :=
  match ty with
  | .decimal _ _ => ∀ x y, left.number = some x → right.number = some y →
      ∃ q, exactResult op x y = some q ∧ Representable ty q
  | ty => ¬ (op = .modulo ∧ left.number = some (lowest ty) ∧ right.number = some (-1))

/-- Where the result is a decimal the decimal library finds it. -/
structure ExactDecimals [Arithmetic] : Prop where
  add : ∀ a b d : Decimal, exactResult .plus a.toRat b.toRat = some d.toRat →
    ∃ d', Arithmetic.decimalAdd a b = .ok d' ∧ d'.toRat = d.toRat
  sub : ∀ a b d : Decimal, exactResult .minus a.toRat b.toRat = some d.toRat →
    ∃ d', Arithmetic.decimalSub a b = .ok d' ∧ d'.toRat = d.toRat
  mul : ∀ a b d : Decimal, exactResult .multiply a.toRat b.toRat = some d.toRat →
    ∃ d', Arithmetic.decimalMul a b = .ok d' ∧ d'.toRat = d.toRat
  div : ∀ a b d : Decimal, exactResult .divide a.toRat b.toRat = some d.toRat →
    ∃ d', Arithmetic.decimalDiv a b = .ok d' ∧ d'.toRat = d.toRat
  rem : ∀ a b d : Decimal, exactResult .modulo a.toRat b.toRat = some d.toRat →
    ∃ d', Arithmetic.decimalRem a b = .ok d' ∧ d'.toRat = d.toRat

section
variable {α : Type} {ty : LogicalType} {get : DataValue → Option α} {mk : α → DataValue}
  {num : α → ℚ} {left right : DataValue} {a : α} {q : ℚ}

/-- The values of the type are NULL and those of `α`, which are numbers. -/
structure Holds (get : DataValue → Option α) (mk : α → DataValue) (num : α → ℚ)
    (ty : LogicalType) : Prop extends Carries get mk ty where
  number_mk : ∀ a, (mk a).number = some (num a)

theorem Holds.representable_iff (h : Holds get mk num ty) :
    Representable ty q ↔ ∃ a, num a = q := by
  constructor
  · rintro ⟨v, hv, hn⟩
    obtain rfl | ⟨a, rfl⟩ := h.cases v hv
    · cases hn
    · rw [h.number_mk a] at hn
      exact ⟨a, some.inj hn⟩
  · rintro ⟨a, rfl⟩
    exact ⟨mk a, h.fits a, h.number_mk a⟩

theorem Holds.exactly_mk (h : Holds get mk num ty) : Exactly ty (some (num a)) (.ok (mk a)) :=
  .inl ⟨mk a, h.fits a, h.number_mk a, rfl⟩

def exactBinary (op : BinaryOperator) (left right : DataValue) : Option ℚ :=
  left.number.bind fun x => right.number.bind (exactResult op x)

/-- With a NULL operand NULL is expected, so only two values matter. -/
theorem Holds.exactly_iff (h : Holds get mk num ty) {op : BinaryOperator}
    {body : α → α → Result DataValue} {P : Prop} (hl : Fits left ty) (hr : Fits right ty)
    (hnull : left.number = none ∨ right.number = none → P)
    (hbody : ∀ a b, left = mk a → right = mk b →
      (Exactly ty (exactResult op (num a) (num b)) (body a b) ↔ P)) :
    Exactly ty (exactBinary op left right) (nullableBinary get body left right) ↔ P := by
  have hread := h.unwraps
  by_cases hn : left.isNull = true ∨ right.isNull = true
  · have hnum : left.number = none ∨ right.number = none := by
      rcases hn with hn | hn
      · exact .inl (by rw [isNull_iff.mp hn]; rfl)
      · exact .inr (by rw [isNull_iff.mp hn]; rfl)
    refine iff_of_true ?_ (hnull hnum)
    have hnone : exactBinary op left right = none := by
      rcases hnum with hnum | hnum <;> simp [exactBinary, hnum]
    rw [nullableBinary_null (hread.value left hl) (hread.value right hr) h.get_null hn, hnone]
    rfl
  · obtain rfl | ⟨a, rfl⟩ := h.cases left hl
    · exact absurd (.inl rfl) hn
    obtain rfl | ⟨b, rfl⟩ := h.cases right hr
    · exact absurd (.inr rfl) hn
    rw [nullableBinary_some (h.get_mk a) (h.get_mk b), exactBinary, h.number_mk a, h.number_mk b]
    exact hbody a b rfl rfl

theorem not_exactly_panic (message : String) : ¬ Exactly ty (some q) (.error (.panic message)) := by
  rintro (⟨v, -, -, h⟩ | ⟨-, h⟩) <;> cases h

end

section
variable {α : Type} [MachineInt α] {ty : LogicalType} {get : DataValue → Option α}
  {mk : α → DataValue} {left right : DataValue} {a b : α} {n : Int}

theorem truncatedQuotient_intCast (x y : Int) : truncatedQuotient x y = Int.tdiv x y := by
  simp [truncatedQuotient]

theorem exactResult_modulo {x y : Int} (h : y ≠ 0) :
    exactResult .modulo x y = some (Int.tmod x y : ℚ) := by
  have hy : (y : ℚ) ≠ 0 := by exact_mod_cast h
  rw [exactResult, if_neg hy, truncatedQuotient_intCast, Int.tmod_def]
  push_cast
  rfl

variable (h : Holds get mk (fun a => (toInt a : ℚ)) ty)
include h

theorem exactly_checked : Exactly ty (some (n : ℚ)) (okOrOverFlow mk (MachineInt.checked n)) := by
  by_cases hn : minValue α ≤ n ∧ n ≤ maxValue α
  · obtain ⟨c, hc, rfl⟩ := checked_of_le hn.1 hn.2
    rw [hc]
    exact h.exactly_mk
  · have hnone : ¬ ∃ c : α, toInt c = n := by
      rintro ⟨c, rfl⟩
      exact hn ⟨le_toInt c, toInt_le c⟩
    rw [checked_eq_none hnone]
    refine .inr ⟨?_, rfl⟩
    rw [h.representable_iff]
    exact_mod_cast hnone

theorem exactly_remainder_iff :
    Exactly ty (exactResult .modulo (toInt a : ℚ) (toInt b : ℚ))
        (if toInt b = 0 then .ok .null else remainder mk a b) ↔
      ¬ (toInt a = minValue α ∧ toInt b = -1) := by
  by_cases hb : toInt b = 0
  · have hb' : (toInt b : ℚ) = 0 := by exact_mod_cast hb
    rw [if_pos hb, exactResult, if_pos hb']
    refine iff_of_true rfl ?_
    omega
  · rw [if_neg hb, exactResult_modulo hb, remainder]
    by_cases hmin : toInt a = minValue α ∧ toInt b = -1
    · rw [checkedRem, if_pos (.inr hmin)]
      exact iff_of_false (not_exactly_panic _) (fun hn => hn hmin)
    · obtain ⟨c, hc, hcn⟩ := checkedRem_of_ne hb hmin
      rw [hc, ← hcn]
      exact iff_of_true h.exactly_mk hmin

theorem number_eq_lowest (hlow : lowest ty = (minValue α : ℚ)) :
    (mk a).number = some (lowest ty) ↔ toInt a = minValue α := by
  rw [h.number_mk, hlow, some_inj]
  exact Int.cast_inj

theorem number_eq_neg_one : (mk a).number = some (-1) ↔ toInt a = -1 := by
  rw [h.number_mk, some_inj]
  exact_mod_cast Iff.rfl

/-- The evaluators of an integer type are exact but for the lowest integer modulo -1. -/
theorem numericBinary_exactly_iff [Arithmetic] [Ord α] (hlow : lowest ty = (minValue α : ℚ))
    {op : BinaryOperator} {evaluator : BinaryEvaluator}
    (hop : op ∈ [BinaryOperator.plus, .minus, .multiply, .modulo])
    (he : (numericBinaryEvaluatorDefinition get mk).ofOperator op = some evaluator)
    (hl : Fits left ty) (hr : Fits right ty) :
    Exactly ty (exactBinary op left right) (evaluator left right) ↔
      ¬ (op = .modulo ∧ left.number = some (lowest ty) ∧ right.number = some (-1)) := by
  have hnull : left.number = none ∨ right.number = none →
      ¬ (op = .modulo ∧ left.number = some (lowest ty) ∧ right.number = some (-1)) := by
    rintro (hn | hn) ⟨-, h1, h2⟩
    · rw [hn] at h1
      cases h1
    · rw [hn] at h2
      cases h2
  have hexact : ∀ n : Int, op ≠ .modulo → ∀ q : ℚ, q = n →
      (Exactly ty (some q) (okOrOverFlow mk (MachineInt.checked n)) ↔
      ¬ (op = .modulo ∧ left.number = some (lowest ty) ∧ right.number = some (-1))) := by
    rintro n hne q rfl
    exact iff_of_true (exactly_checked h) fun hn => hne hn.1
  simp only [mem_cons, not_mem_nil, or_false] at hop
  rcases hop with rfl | rfl | rfl | rfl <;> cases he <;> refine h.exactly_iff hl hr hnull ?_ <;>
    intro a b hla hrb
  · exact hexact _ (by simp) _ (by push_cast; rfl)
  · exact hexact _ (by simp) _ (by push_cast; rfl)
  · exact hexact _ (by simp) _ (by push_cast; rfl)
  · rw [exactly_remainder_iff h, hla, hrb, number_eq_lowest h hlow, number_eq_neg_one h]
    simp

theorem exactly_negate_iff (hmax : maxValue α = -minValue α - 1) (overflowChecks : Bool) :
    Exactly ty (some (-(toInt a : ℚ))) (negate overflowChecks mk a) ↔ toInt a ≠ minValue α := by
  have hle := le_toInt a
  by_cases hmin : toInt a = minValue α
  · have hnone : ¬ ∃ c : α, toInt c = -toInt a := by
      rintro ⟨c, hc⟩
      have := toInt_le c
      omega
    refine iff_of_false ?_ (not_not_intro hmin)
    rw [negate, checkedNeg, checked_eq_none hnone]
    rintro (⟨v, hv, hn, -⟩ | ⟨-, hr⟩)
    · obtain ⟨c, hc⟩ := h.representable_iff.mp ⟨v, hv, hn⟩
      exact hnone ⟨c, by exact_mod_cast hc⟩
    · cases overflowChecks <;> cases hr
  · obtain ⟨c, hc, hcn⟩ : ∃ c : α, checkedNeg a = some c ∧ toInt c = -toInt a :=
      checked_of_le (by have := toInt_le a; omega) (by omega)
    have hcast : (-(toInt a : ℚ)) = toInt c := by
      rw [hcn]
      push_cast
      rfl
    rw [negate, hc, hcast]
    exact iff_of_true h.exactly_mk hmin

theorem minus_exactly_iff (hlow : lowest ty = (minValue α : ℚ))
    (hmax : maxValue α = -minValue α - 1) (overflowChecks : Bool) {value : DataValue}
    (hv : Fits value ty) :
    Exactly ty (value.number.map Neg.neg) (minusUnaryEval get (negate overflowChecks mk) value) ↔
      value.number ≠ some (lowest ty) := by
  obtain rfl | ⟨a, rfl⟩ := h.cases value hv
  · refine iff_of_true ?_ (by simp [number])
    simp [Exactly, number, minusUnaryEval, h.get_null, isNull]
  · rw [Ne, number_eq_lowest h hlow, h.number_mk, minusUnaryEval, h.get_mk]
    exact exactly_negate_iff h hmax overflowChecks

end

section
variable {p s : Option UInt8}

theorem holds_decimal : Holds decimal? .decimal Decimal.toRat (.decimal p s) :=
  ⟨carries_decimal p s, fun _ => rfl⟩

/-- A decimal operation that finds its result wherever there is one is exact there only. -/
theorem exactly_decimal_iff {expected : Option ℚ} {r : Except CalculationFailure Decimal}
    (overflowed : String)
    (h : ∀ d : Decimal, expected = some d.toRat → ∃ d', r = .ok d' ∧ d'.toRat = d.toRat) :
    Exactly (.decimal p s) expected (decimalOperator overflowed r) ↔
      ∃ q, expected = some q ∧ Representable (.decimal p s) q := by
  constructor
  · intro hr
    cases expected with
    | none =>
      have hr : decimalOperator overflowed r = .ok .null := hr
      unfold decimalOperator at hr
      split at hr <;> cases hr
    | some q =>
      rcases hr with ⟨v, hv, hn, -⟩ | ⟨-, hr⟩
      · exact ⟨q, rfl, v, hv, hn⟩
      · unfold decimalOperator at hr
        split at hr <;> cases hr
  · rintro ⟨q, rfl, hq⟩
    obtain ⟨d, rfl⟩ := holds_decimal.representable_iff.mp hq
    obtain ⟨d', rfl, hd⟩ := h d rfl
    rw [← hd]
    exact holds_decimal.exactly_mk

theorem decimal_exactly_iff [Arithmetic] (hdec : ExactDecimals) {op : BinaryOperator}
    {evaluator : BinaryEvaluator} {left right : DataValue}
    (hop : op ∈ exactOperators (.decimal p s))
    (he : decimalEvaluators.ofOperator op = some evaluator)
    (hl : Fits left (.decimal p s)) (hr : Fits right (.decimal p s)) :
    Exactly (.decimal p s) (exactBinary op left right) (evaluator left right) ↔
      Regular (.decimal p s) op left right := by
  have hnull : left.number = none ∨ right.number = none → Regular (.decimal p s) op left right := by
    rintro (hn | hn) x y h1 h2
    · rw [hn] at h1
      cases h1
    · rw [hn] at h2
      cases h2
  have hvalues : ∀ a b, left = .decimal a → right = .decimal b →
      (Regular (.decimal p s) op left right ↔
        ∃ q, exactResult op a.toRat b.toRat = some q ∧ Representable (.decimal p s) q) := by
    rintro a b rfl rfl
    constructor
    · intro h
      exact h _ _ rfl rfl
    · rintro h x y ⟨⟩ ⟨⟩
      exact h
  simp only [exactOperators, mem_cons, not_mem_nil, or_false] at hop
  rcases hop with rfl | rfl | rfl | rfl | rfl <;> cases he <;>
    refine holds_decimal.exactly_iff hl hr hnull fun a b hla hrb => ?_ <;> rw [hvalues a b hla hrb]
  · exact exactly_decimal_iff _ (hdec.add a b)
  · exact exactly_decimal_iff _ (hdec.sub a b)
  · exact exactly_decimal_iff _ (hdec.mul a b)
  · exact exactly_decimal_iff _ (hdec.div a b)
  · exact exactly_decimal_iff _ (hdec.rem a b)

end

theorem holds_tinyint : Holds int8? .int8 (fun a => (toInt a : ℚ)) .tinyint :=
  ⟨carries_int8, fun _ => rfl⟩

theorem holds_smallint : Holds int16? .int16 (fun a => (toInt a : ℚ)) .smallint :=
  ⟨carries_int16, fun _ => rfl⟩

theorem holds_integer : Holds int32? .int32 (fun a => (toInt a : ℚ)) .integer :=
  ⟨carries_int32, fun _ => rfl⟩

theorem holds_bigint : Holds int64? .int64 (fun a => (toInt a : ℚ)) .bigint :=
  ⟨carries_int64, fun _ => rfl⟩

theorem holds_uTinyint : Holds uInt8? .uInt8 (fun a => (toInt a : ℚ)) .uTinyint :=
  ⟨carries_uInt8, fun _ => rfl⟩

theorem holds_uSmallint : Holds uInt16? .uInt16 (fun a => (toInt a : ℚ)) .uSmallint :=
  ⟨carries_uInt16, fun _ => rfl⟩

theorem holds_uInteger : Holds uInt32? .uInt32 (fun a => (toInt a : ℚ)) .uInteger :=
  ⟨carries_uInt32, fun _ => rfl⟩

theorem holds_uBigint : Holds uInt64? .uInt64 (fun a => (toInt a : ℚ)) .uBigint :=
  ⟨carries_uInt64, fun _ => rfl⟩

section
variable {ty : LogicalType} {op : BinaryOperator} {left right value : DataValue}

theorem evaluatorOf_exactly_iff [Arithmetic] (hdec : ExactDecimals) {evaluator : BinaryEvaluator}
    (hop : op ∈ exactOperators ty) (he : evaluatorOf ty op = some evaluator) (hl : Fits left ty)
    (hr : Fits right ty) :
    Exactly ty (exactBinary op left right) (evaluator left right) ↔ Regular ty op left right := by
  cases ty with
  | decimal p s => exact decimal_exactly_iff hdec hop he hl hr
  | tinyint => exact numericBinary_exactly_iff holds_tinyint (by norm_num [lowest, minValue]) hop he hl hr
  | smallint => exact numericBinary_exactly_iff holds_smallint (by norm_num [lowest, minValue]) hop he hl hr
  | integer => exact numericBinary_exactly_iff holds_integer (by norm_num [lowest, minValue]) hop he hl hr
  | bigint => exact numericBinary_exactly_iff holds_bigint (by norm_num [lowest, minValue]) hop he hl hr
  | uTinyint => exact numericBinary_exactly_iff holds_uTinyint (by norm_num [lowest, minValue]) hop he hl hr
  | uSmallint => exact numericBinary_exactly_iff holds_uSmallint (by norm_num [lowest, minValue]) hop he hl hr
  | uInteger => exact numericBinary_exactly_iff holds_uInteger (by norm_num [lowest, minValue]) hop he hl hr
  | uBigint => exact numericBinary_exactly_iff holds_uBigint (by norm_num [lowest, minValue]) hop he hl hr
  | _ => simp [exactOperators] at hop

theorem minusEvaluatorOf_exactly_iff {overflowChecks : Bool} {evaluator : UnaryEvaluator}
    (hty : ty.isSignedNumeric = true)
    (he : minusEvaluatorOf overflowChecks ty = some evaluator) (hv : Fits value ty) :
    Exactly ty (value.number.map Neg.neg) (evaluator value) ↔ value.number ≠ some (lowest ty) := by
  cases ty with
  | tinyint =>
    cases he
    exact minus_exactly_iff holds_tinyint (by norm_num [lowest, minValue]) rfl _ hv
  | smallint =>
    cases he
    exact minus_exactly_iff holds_smallint (by norm_num [lowest, minValue]) rfl _ hv
  | integer =>
    cases he
    exact minus_exactly_iff holds_integer (by norm_num [lowest, minValue]) rfl _ hv
  | bigint =>
    cases he
    exact minus_exactly_iff holds_bigint (by norm_num [lowest, minValue]) rfl _ hv
  | _ => simp [LogicalType.isSignedNumeric] at hty

/-- Evaluation gives the number, NULL or the error for overflow, except for the lowest integer modulo
-1 or negated, and for decimals whose result is no decimal. -/
theorem arithmetic_exactly_iff [Arithmetic] (hdec : ExactDecimals) (overflowChecks : Bool) :
    (∀ ty op ref left right, op ∈ exactOperators ty → binaryCreate ty op = .ok ref →
      Fits left ty → Fits right ty →
      (Exactly ty (exactBinary op left right) (ref.binaryEval left right) ↔
        Regular ty op left right)) ∧
    (∀ ty ref value, ty.isSignedNumeric = true → unaryCreate ty .minus = .ok ref → Fits value ty →
      (Exactly ty (value.number.map Neg.neg) (ref.unaryEval overflowChecks value) ↔
        value.number ≠ some (lowest ty))) := by
  refine ⟨?_, ?_⟩
  · intro ty op ref left right hop hc hl hr
    exact evaluatorOf_exactly_iff hdec hop (evaluatorOf_of_binaryCreate hc) hl hr
  · intro ty ref value hty hc hv
    exact minusEvaluatorOf_exactly_iff hty (minusEvaluatorOf_of_unaryCreate hc) hv

end

open Classical in
/-- A result that is found by looking at all decimals. -/
noncomputable def searchDecimal (expected : Option ℚ) : Except CalculationFailure Decimal :=
  if h : ∃ d : Decimal, expected = some d.toRat then .ok h.choose else .error .overflow

theorem searchDecimal_exact {expected : Option ℚ} (d : Decimal) (h : expected = some d.toRat) :
    ∃ d', searchDecimal expected = .ok d' ∧ d'.toRat = d.toRat := by
  have hd : ∃ d : Decimal, expected = some d.toRat := ⟨d, h⟩
  refine ⟨hd.choose, dif_pos hd, ?_⟩
  exact some.inj (hd.choose_spec.symm.trans h)

@[reducible] noncomputable def Arithmetic.searching : Arithmetic :=
  { Arithmetic.refusing with
    decimalAdd := fun a b => searchDecimal (exactResult .plus a.toRat b.toRat)
    decimalSub := fun a b => searchDecimal (exactResult .minus a.toRat b.toRat)
    decimalMul := fun a b => searchDecimal (exactResult .multiply a.toRat b.toRat)
    decimalDiv := fun a b => searchDecimal (exactResult .divide a.toRat b.toRat)
    decimalRem := fun a b => searchDecimal (exactResult .modulo a.toRat b.toRat) }

theorem exactDecimals_searching : @ExactDecimals Arithmetic.searching :=
  @ExactDecimals.mk Arithmetic.searching (fun _ _ => searchDecimal_exact)
    (fun _ _ => searchDecimal_exact) (fun _ _ => searchDecimal_exact)
    (fun _ _ => searchDecimal_exact) (fun _ _ => searchDecimal_exact)

theorem arithmetic_exactly_tinyint :
    let _ := Arithmetic.searching
    ∃ ref, binaryCreate .tinyint .multiply = .ok ref ∧
      Exactly .tinyint (exactBinary .multiply (.int8 100) (.int8 2))
        (ref.binaryEval (.int8 100) (.int8 2)) :=
  ⟨_, rfl, ((@arithmetic_exactly_iff Arithmetic.searching exactDecimals_searching true).1 .tinyint
    .multiply _ (.int8 100) (.int8 2) (by simp [exactOperators]) rfl (.int8 100) (.int8 2)).mpr
      (by simp [Regular])⟩

/-- -128 modulo -1, and -128 negated. -/
theorem tinyint_lowest_panics :
    let _ := Arithmetic.refusing
    (∃ ref, binaryCreate .tinyint .modulo = .ok ref ∧
      ref.binaryEval (.int8 (-128)) (.int8 (-1)) =
        .error (.panic "attempt to calculate the remainder with overflow")) ∧
    (∃ ref, unaryCreate .tinyint .minus = .ok ref ∧
      ref.unaryEval true (.int8 (-128)) = .error (.panic "attempt to negate with overflow") ∧
      ref.unaryEval false (.int8 (-128)) = .ok (.int8 (-128))) :=
  ⟨⟨_, rfl, rfl⟩, _, rfl, rfl, rfl⟩

end KiteSQL
