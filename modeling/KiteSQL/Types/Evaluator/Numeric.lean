import KiteSQL.Errors
import KiteSQL.Lib.MachineInt

/-! The evaluators of binary operators on integers, dates, floats and decimals. -/
namespace KiteSQL

open MachineInt

abbrev BinaryEvaluator := DataValue → DataValue → Result DataValue

/-- Why an operation on decimals has no result. -/
inductive CalculationFailure where
  | overflow
  | divByZero

/-- What the evaluators leave to the processor and to other libraries: arithmetic on floats and on
decimals, and the seconds since 1970 that a calendar reaches. -/
class Arithmetic where
  add32 : UInt32 → UInt32 → UInt32
  sub32 : UInt32 → UInt32 → UInt32
  mul32 : UInt32 → UInt32 → UInt32
  rem32 : UInt32 → UInt32 → UInt32
  add64 : UInt64 → UInt64 → UInt64
  sub64 : UInt64 → UInt64 → UInt64
  mul64 : UInt64 → UInt64 → UInt64
  rem64 : UInt64 → UInt64 → UInt64
  div64 : UInt64 → UInt64 → UInt64
  widen : UInt32 → UInt64
  float64OfInt : Int → UInt64
  decimalAdd : Decimal → Decimal → Except CalculationFailure Decimal
  decimalSub : Decimal → Decimal → Except CalculationFailure Decimal
  decimalMul : Decimal → Decimal → Except CalculationFailure Decimal
  decimalDiv : Decimal → Decimal → Except CalculationFailure Decimal
  decimalRem : Decimal → Decimal → Except CalculationFailure Decimal
  inCalendar : Int → Bool

variable {α : Type}

/-- The evaluators of one type: NULL with a value of the type or with NULL gives NULL, and nothing
else is expected. -/
def nullableBinary (get : DataValue → Option α) (body : α → α → Result DataValue) :
    BinaryEvaluator := fun left right =>
  match get left, get right with
  | some v1, some v2 => body v1 v2
  | some _, none => if right.isNull then .ok .null else .error .undefinedBehavior
  | none, some _ => if left.isNull then .ok .null else .error .undefinedBehavior
  | none, none =>
    if left.isNull && right.isNull then .ok .null else .error .undefinedBehavior

def orderBinary (get : DataValue → Option α) (cmp : α → α → Ordering)
    (isOrder : Ordering → Bool) : BinaryEvaluator :=
  nullableBinary get fun v1 v2 => .ok (.boolean (isOrder (cmp v1 v2)))

/-- One evaluator for each operator that all numeric types have. -/
structure NumericEvaluators where
  plus : BinaryEvaluator
  minus : BinaryEvaluator
  multiply : BinaryEvaluator
  divide : BinaryEvaluator
  gt : BinaryEvaluator
  gtEq : BinaryEvaluator
  lt : BinaryEvaluator
  ltEq : BinaryEvaluator
  eq : BinaryEvaluator
  notEq : BinaryEvaluator
  mod : BinaryEvaluator

/-- `ok_or(DatabaseError::OverFlow)`. -/
def okOrOverFlow (mk : α → DataValue) : Option α → Result DataValue
  | some v => .ok (mk v)
  | none => .error (.error .overFlow)

/-- `*v1 % *v2`. -/
def remainder [MachineInt α] (mk : α → DataValue) (v1 v2 : α) : Result DataValue :=
  match checkedRem v1 v2 with
  | some v => .ok (mk v)
  | none => .error (.panic "attempt to calculate the remainder with overflow")

section
variable [Arithmetic]

def numericBinaryEvaluatorDefinition [MachineInt α] [Ord α] (get : DataValue → Option α)
    (mk : α → DataValue) : NumericEvaluators where
  plus := nullableBinary get fun v1 v2 => okOrOverFlow mk (checkedAdd v1 v2)
  minus := nullableBinary get fun v1 v2 => okOrOverFlow mk (checkedSub v1 v2)
  multiply := nullableBinary get fun v1 v2 => okOrOverFlow mk (checkedMul v1 v2)
  divide := nullableBinary get fun v1 v2 => .ok (.float64 (Arithmetic.div64
    (Arithmetic.float64OfInt (toInt v1)) (Arithmetic.float64OfInt (toInt v2))))
  gt := orderBinary get compare Ordering.isGT
  gtEq := orderBinary get compare Ordering.isGE
  lt := orderBinary get compare Ordering.isLT
  ltEq := orderBinary get compare Ordering.isLE
  eq := orderBinary get compare Ordering.isEq
  notEq := orderBinary get compare Ordering.isNe
  mod := nullableBinary get fun v1 v2 =>
    if toInt v2 = 0 then .ok .null else remainder mk v1 v2

/-- The arithmetic of a float type, whose comparisons put NaN last. -/
def floatEvaluators (get : DataValue → Option α) (bits : α → Nat) (format : FloatBits)
    (mk : α → DataValue) (add sub mul rem : α → α → α) (widen : α → UInt64) :
    NumericEvaluators where
  plus := nullableBinary get fun v1 v2 => .ok (mk (add v1 v2))
  minus := nullableBinary get fun v1 v2 => .ok (mk (sub v1 v2))
  multiply := nullableBinary get fun v1 v2 => .ok (mk (mul v1 v2))
  divide := nullableBinary get fun v1 v2 =>
    .ok (.float64 (Arithmetic.div64 (widen v1) (widen v2)))
  gt := orderBinary get (fun v1 v2 => format.orderedCmp (bits v1) (bits v2)) Ordering.isGT
  gtEq := orderBinary get (fun v1 v2 => format.orderedCmp (bits v1) (bits v2)) Ordering.isGE
  lt := orderBinary get (fun v1 v2 => format.orderedCmp (bits v1) (bits v2)) Ordering.isLT
  ltEq := orderBinary get (fun v1 v2 => format.orderedCmp (bits v1) (bits v2)) Ordering.isLE
  eq := orderBinary get (fun v1 v2 => format.orderedCmp (bits v1) (bits v2)) Ordering.isEq
  notEq := orderBinary get (fun v1 v2 => format.orderedCmp (bits v1) (bits v2)) Ordering.isNe
  mod := nullableBinary get fun v1 v2 => .ok (mk (rem v1 v2))

/-- The operators of the decimal library panic where the operation has no result. -/
def decimalOperator (overflowed : String) : Except CalculationFailure Decimal → Result DataValue
  | .ok v => .ok (.decimal v)
  | .error .overflow => .error (.panic overflowed)
  | .error .divByZero => .error (.panic "Division by zero")

namespace DataValue

def int8? : DataValue → Option Int8
  | .int8 v => some v
  | _ => none

def int16? : DataValue → Option Int16
  | .int16 v => some v
  | _ => none

def int32? : DataValue → Option Int32
  | .int32 v => some v
  | _ => none

def int64? : DataValue → Option Int64
  | .int64 v => some v
  | _ => none

def uInt8? : DataValue → Option UInt8
  | .uInt8 v => some v
  | _ => none

def uInt16? : DataValue → Option UInt16
  | .uInt16 v => some v
  | _ => none

def uInt32? : DataValue → Option UInt32
  | .uInt32 v => some v
  | _ => none

def uInt64? : DataValue → Option UInt64
  | .uInt64 v => some v
  | _ => none

def float32? : DataValue → Option UInt32
  | .float32 v => some v
  | _ => none

def float64? : DataValue → Option UInt64
  | .float64 v => some v
  | _ => none

def date32? : DataValue → Option Int32
  | .date32 v => some v
  | _ => none

def date64? : DataValue → Option Int64
  | .date64 v => some v
  | _ => none

def decimal? : DataValue → Option Decimal
  | .decimal v => some v
  | _ => none

def utf8? : DataValue → Option String
  | .utf8 value _ _ => some value
  | _ => none

end DataValue

def int8Evaluators : NumericEvaluators := numericBinaryEvaluatorDefinition DataValue.int8? .int8

def int16Evaluators : NumericEvaluators := numericBinaryEvaluatorDefinition DataValue.int16? .int16

def int32Evaluators : NumericEvaluators := numericBinaryEvaluatorDefinition DataValue.int32? .int32

def int64Evaluators : NumericEvaluators := numericBinaryEvaluatorDefinition DataValue.int64? .int64

def uint8Evaluators : NumericEvaluators := numericBinaryEvaluatorDefinition DataValue.uInt8? .uInt8

def uint16Evaluators : NumericEvaluators :=
  numericBinaryEvaluatorDefinition DataValue.uInt16? .uInt16

def uint32Evaluators : NumericEvaluators :=
  numericBinaryEvaluatorDefinition DataValue.uInt32? .uInt32

def uint64Evaluators : NumericEvaluators :=
  numericBinaryEvaluatorDefinition DataValue.uInt64? .uInt64

def dateEvaluators : NumericEvaluators :=
  numericBinaryEvaluatorDefinition DataValue.date32? .date32

def dateTimeEvaluators : NumericEvaluators :=
  numericBinaryEvaluatorDefinition DataValue.date64? .date64

def float32Evaluators : NumericEvaluators :=
  floatEvaluators DataValue.float32? UInt32.toNat .binary32 .float32 Arithmetic.add32
    Arithmetic.sub32 Arithmetic.mul32 Arithmetic.rem32 Arithmetic.widen

def float64Evaluators : NumericEvaluators :=
  floatEvaluators DataValue.float64? UInt64.toNat .binary64 .float64 Arithmetic.add64
    Arithmetic.sub64 Arithmetic.mul64 Arithmetic.rem64 id

def decimalEvaluators : NumericEvaluators where
  plus := nullableBinary DataValue.decimal? fun v1 v2 =>
    decimalOperator "Addition overflowed" (Arithmetic.decimalAdd v1 v2)
  minus := nullableBinary DataValue.decimal? fun v1 v2 =>
    decimalOperator "Subtraction overflowed" (Arithmetic.decimalSub v1 v2)
  multiply := nullableBinary DataValue.decimal? fun v1 v2 =>
    decimalOperator "Multiplication overflowed" (Arithmetic.decimalMul v1 v2)
  divide := nullableBinary DataValue.decimal? fun v1 v2 =>
    decimalOperator "Division overflowed" (Arithmetic.decimalDiv v1 v2)
  gt := orderBinary DataValue.decimal? Decimal.cmp Ordering.isGT
  gtEq := orderBinary DataValue.decimal? Decimal.cmp Ordering.isGE
  lt := orderBinary DataValue.decimal? Decimal.cmp Ordering.isLT
  ltEq := orderBinary DataValue.decimal? Decimal.cmp Ordering.isLE
  eq := orderBinary DataValue.decimal? Decimal.cmp Ordering.isEq
  notEq := orderBinary DataValue.decimal? Decimal.cmp Ordering.isNe
  mod := nullableBinary DataValue.decimal? fun v1 v2 =>
    decimalOperator "Division overflowed" (Arithmetic.decimalRem v1 v2)

end

variable {get : DataValue → Option α} {body : α → α → Result DataValue} {left right : DataValue}
  {v1 v2 : α}

theorem nullableBinary_some (h1 : get left = some v1) (h2 : get right = some v2) :
    nullableBinary get body left right = body v1 v2 := by
  simp only [nullableBinary, h1, h2]

/-- With a NULL operand the result is NULL if the other operand is NULL or of the type. -/
theorem nullableBinary_null (h1 : left.isNull = true ∨ (get left).isSome)
    (h2 : right.isNull = true ∨ (get right).isSome) (hnull : get .null = none)
    (h : left.isNull = true ∨ right.isNull = true) :
    nullableBinary get body left right = .ok .null := by
  have hget : ∀ {v : DataValue}, v.isNull = true → get v = none := by
    intro v hv
    rw [DataValue.isNull_iff.mp hv, hnull]
  rcases h with h | h
  · cases h2' : get right with
    | none => simp_all [nullableBinary]
    | some v => simp_all [nullableBinary]
  · cases h1' : get left with
    | none => simp_all [nullableBinary]
    | some v => simp_all [nullableBinary]

end KiteSQL
