import KiteSQL.Types.Evaluator.Defined
import KiteSQL.Types.Evaluator.Rows

/-! The comparison operators against the order of values. -/
namespace KiteSQL

open DataValue

/-- The order of two values, unknown if one is NULL. -/
def sqlCmp (x y : DataValue) : Option Ordering :=
  if x.isNull || y.isNull then none else partialCmp x y

def orderTest : BinaryOperator → Option (Ordering → Bool)
  | .gt => some Ordering.isGT
  | .gtEq => some Ordering.isGE
  | .lt => some Ordering.isLT
  | .ltEq => some Ordering.isLE
  | .eq => some Ordering.isEq
  | .notEq => some Ordering.isNe
  | _ => none

/-- Types whose comparison operators follow the order of values. -/
def LogicalType.followsOrder : LogicalType → Bool
  | .boolean | .time _ | .timeStamp _ _ | .tuple _ => false
  | _ => true

variable {α : Type} {get : DataValue → Option α} {mk : α → DataValue} {cmp : α → α → Ordering}
  {ty : LogicalType} {x y : DataValue} {isOrder : Ordering → Bool} {op : BinaryOperator}
  {evaluator : BinaryEvaluator}

theorem orderBinary_eq (hget : Unwraps get ty)
    (hcmp : ∀ a b, get x = some a → get y = some b → partialCmp x y = some (cmp a b))
    (hx : Fits x ty) (hy : Fits y ty) :
    orderBinary get cmp isOrder x y = .ok (ofTruth ((sqlCmp x y).map isOrder)) := by
  by_cases hn : x.isNull = true ∨ y.isNull = true
  · rw [orderBinary, nullableBinary_null (hget.value x hx) (hget.value y hy) hget.null hn, sqlCmp,
      if_pos (by simpa using hn)]
    rfl
  · obtain ⟨hx', hy'⟩ := not_or.mp hn
    obtain ⟨a, ha⟩ := Option.isSome_iff_exists.mp ((hget.value x hx).resolve_left hx')
    obtain ⟨b, hb⟩ := Option.isSome_iff_exists.mp ((hget.value y hy).resolve_left hy')
    rw [orderBinary, nullableBinary_some ha hb, sqlCmp, if_neg (by simpa using hn), hcmp a b ha hb]
    rfl

theorem Carries.eq_mk (h : Carries get mk ty) (hx : Fits x ty) {a : α} (ha : get x = some a) :
    x = mk a := by
  obtain rfl | ⟨b, rfl⟩ := h.cases x hx
  · rw [h.get_null] at ha
    cases ha
  · rw [h.get_mk] at ha
    cases ha
    rfl

theorem Carries.orderBinary_eq (h : Carries get mk ty)
    (hcmp : ∀ a b, partialCmp (mk a) (mk b) = some (cmp a b)) (hx : Fits x ty) (hy : Fits y ty) :
    orderBinary get cmp isOrder x y = .ok (ofTruth ((sqlCmp x y).map isOrder)) := by
  refine KiteSQL.orderBinary_eq h.unwraps (fun a b ha hb => ?_) hx hy
  rw [h.eq_mk hx ha, h.eq_mk hy hb]
  exact hcmp a b

section
variable [Arithmetic]

theorem Carries.numericOrder_eq [MachineInt α] [Ord α] (h : Carries get mk ty)
    (hcmp : ∀ a b, partialCmp (mk a) (mk b) = some (compare a b))
    (hop : orderTest op = some isOrder)
    (he : (numericBinaryEvaluatorDefinition get mk).ofOperator op = some evaluator) (hx : Fits x ty)
    (hy : Fits y ty) : evaluator x y = .ok (ofTruth ((sqlCmp x y).map isOrder)) := by
  have heq : evaluator = orderBinary get compare isOrder := by
    cases op <;> cases hop <;> cases he <;> rfl
  rw [heq]
  exact h.orderBinary_eq hcmp hx hy

theorem Carries.floatOrder_eq {bits : α → Nat} {format : FloatBits} {mk' : α → DataValue}
    {add sub mul rem : α → α → α} {widen : α → UInt64} (h : Carries get mk ty)
    (hcmp : ∀ a b, partialCmp (mk a) (mk b) = some (format.orderedCmp (bits a) (bits b)))
    (hop : orderTest op = some isOrder)
    (he : (floatEvaluators get bits format mk' add sub mul rem widen).ofOperator op =
      some evaluator) (hx : Fits x ty) (hy : Fits y ty) :
    evaluator x y = .ok (ofTruth ((sqlCmp x y).map isOrder)) := by
  have heq : evaluator =
      orderBinary get (fun a b => format.orderedCmp (bits a) (bits b)) isOrder := by
    cases op <;> cases hop <;> cases he <;> rfl
  rw [heq]
  exact h.orderBinary_eq hcmp hx hy

theorem decimalOrder_eq {p s : Option UInt8} (hop : orderTest op = some isOrder)
    (he : decimalEvaluators.ofOperator op = some evaluator) (hx : Fits x (.decimal p s))
    (hy : Fits y (.decimal p s)) : evaluator x y = .ok (ofTruth ((sqlCmp x y).map isOrder)) := by
  have heq : evaluator = orderBinary decimal? Decimal.cmp isOrder := by
    cases op <;> cases hop <;> cases he <;> rfl
  rw [heq]
  exact (carries_decimal p s).orderBinary_eq (fun _ _ => rfl) hx hy

end

theorem utf8Order_eq (hget : Unwraps utf8? ty) (hop : orderTest op = some isOrder)
    (he : utf8Evaluator op = some evaluator) (hx : Fits x ty) (hy : Fits y ty) :
    evaluator x y = .ok (ofTruth ((sqlCmp x y).map isOrder)) := by
  have heq : evaluator = utf8OrderBinary isOrder := by
    cases op <;> cases hop <;> cases he <;> rfl
  rw [heq]
  refine orderBinary_eq hget (fun a b ha hb => ?_) hx hy
  cases x <;> cases ha
  cases y <;> cases hb
  rfl

/-- The evaluators of the comparisons follow the order of values. -/
theorem evaluatorOf_order [Arithmetic] (hty : ty.followsOrder = true)
    (hop : orderTest op = some isOrder) (he : evaluatorOf ty op = some evaluator) (hx : Fits x ty)
    (hy : Fits y ty) : evaluator x y = .ok (ofTruth ((sqlCmp x y).map isOrder)) := by
  cases ty with
  | sqlNull =>
    cases hx
    cases he
    rfl
  | tinyint => exact carries_int8.numericOrder_eq (fun _ _ => rfl) hop he hx hy
  | uTinyint => exact carries_uInt8.numericOrder_eq (fun _ _ => rfl) hop he hx hy
  | smallint => exact carries_int16.numericOrder_eq (fun _ _ => rfl) hop he hx hy
  | uSmallint => exact carries_uInt16.numericOrder_eq (fun _ _ => rfl) hop he hx hy
  | integer => exact carries_int32.numericOrder_eq (fun _ _ => rfl) hop he hx hy
  | uInteger => exact carries_uInt32.numericOrder_eq (fun _ _ => rfl) hop he hx hy
  | bigint => exact carries_int64.numericOrder_eq (fun _ _ => rfl) hop he hx hy
  | uBigint => exact carries_uInt64.numericOrder_eq (fun _ _ => rfl) hop he hx hy
  | date => exact carries_date32.numericOrder_eq (fun _ _ => rfl) hop he hx hy
  | dateTime => exact carries_date64.numericOrder_eq (fun _ _ => rfl) hop he hx hy
  | float => exact carries_float32.floatOrder_eq (fun _ _ => rfl) hop he hx hy
  | double => exact carries_float64.floatOrder_eq (fun _ _ => rfl) hop he hx hy
  | char len unit => exact utf8Order_eq (unwraps_utf8_char len unit) hop he hx hy
  | varchar len unit => exact utf8Order_eq (unwraps_utf8_varchar len unit) hop he hx hy
  | decimal p s => exact decimalOrder_eq hop he hx hy
  | _ => simp [LogicalType.followsOrder] at hty

end KiteSQL
