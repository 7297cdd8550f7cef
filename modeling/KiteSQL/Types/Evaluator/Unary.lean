import KiteSQL.Types.Evaluator.Numeric

/-! The evaluators of unary operators and their positions. -/
namespace KiteSQL

open MachineInt

abbrev UnaryEvaluator := DataValue → Result DataValue

structure UnaryEvaluatorRef where
  pos : Nat
deriving DecidableEq

def unaryInt8Plus : Nat := 0
def unaryInt8Minus : Nat := 1
def unaryInt16Plus : Nat := 2
def unaryInt16Minus : Nat := 3
def unaryInt32Plus : Nat := 4
def unaryInt32Minus : Nat := 5
def unaryInt64Plus : Nat := 6
def unaryInt64Minus : Nat := 7
def unaryBooleanNot : Nat := 8
def unaryFloat32Plus : Nat := 9
def unaryFloat32Minus : Nat := 10
def unaryFloat64Plus : Nat := 11
def unaryFloat64Minus : Nat := 12

def numericUnaryRef (plus minus : Nat) (ty : LogicalType) : UnaryOperator → Result UnaryEvaluatorRef
  | .plus => .ok ⟨plus⟩
  | .minus => .ok ⟨minus⟩
  | op => .error (.error (.unsupportedUnaryOperator ty op))

def unaryCreate (ty : LogicalType) (op : UnaryOperator) : Result UnaryEvaluatorRef :=
  match ty with
  | .tinyint => numericUnaryRef unaryInt8Plus unaryInt8Minus ty op
  | .smallint => numericUnaryRef unaryInt16Plus unaryInt16Minus ty op
  | .integer => numericUnaryRef unaryInt32Plus unaryInt32Minus ty op
  | .bigint => numericUnaryRef unaryInt64Plus unaryInt64Minus ty op
  | .boolean =>
    match op with
    | .not => .ok ⟨unaryBooleanNot⟩
    | _ => .error (.error (.unsupportedUnaryOperator ty op))
  | .float => numericUnaryRef unaryFloat32Plus unaryFloat32Minus ty op
  | .double => numericUnaryRef unaryFloat64Plus unaryFloat64Minus ty op
  | _ => .error (.error (.unsupportedUnaryOperator ty op))

section
variable {α : Type}

/-- `-value`. What it does where the result does not fit depends on how the program is built. -/
def negate [MachineInt α] (overflowChecks : Bool) (mk : α → DataValue) (value : α) :
    Result DataValue :=
  match checkedNeg value with
  | some v => .ok (mk v)
  | none =>
    if overflowChecks then .error (.panic "attempt to negate with overflow")
    else .ok (mk (ofInt (-toInt value)))

def plusUnaryEval : UnaryEvaluator := .ok

def minusUnaryEval (get : DataValue → Option α) (neg : α → Result DataValue) : UnaryEvaluator :=
  fun value =>
    match get value with
    | some v => neg v
    | none => if value.isNull then .ok .null else .error .undefinedBehavior

end

def booleanNotUnaryEval : UnaryEvaluator
  | .boolean value => .ok (.boolean !value)
  | .null => .ok .null
  | _ => .error .undefinedBehavior

def int8MinusUnaryEval (overflowChecks : Bool) : UnaryEvaluator :=
  minusUnaryEval DataValue.int8? (negate overflowChecks .int8)

def int16MinusUnaryEval (overflowChecks : Bool) : UnaryEvaluator :=
  minusUnaryEval DataValue.int16? (negate overflowChecks .int16)

def int32MinusUnaryEval (overflowChecks : Bool) : UnaryEvaluator :=
  minusUnaryEval DataValue.int32? (negate overflowChecks .int32)

def int64MinusUnaryEval (overflowChecks : Bool) : UnaryEvaluator :=
  minusUnaryEval DataValue.int64? (negate overflowChecks .int64)

def float32MinusUnaryEval : UnaryEvaluator :=
  minusUnaryEval DataValue.float32? fun v => .ok (.float32 (v ^^^ 0x80000000))

def float64MinusUnaryEval : UnaryEvaluator :=
  minusUnaryEval DataValue.float64? fun v => .ok (.float64 (v ^^^ 0x8000000000000000))

def evalUnary (overflowChecks : Bool) (pos : Nat) : UnaryEvaluator :=
  if pos = unaryInt8Plus then plusUnaryEval
  else if pos = unaryInt8Minus then int8MinusUnaryEval overflowChecks
  else if pos = unaryInt16Plus then plusUnaryEval
  else if pos = unaryInt16Minus then int16MinusUnaryEval overflowChecks
  else if pos = unaryInt32Plus then plusUnaryEval
  else if pos = unaryInt32Minus then int32MinusUnaryEval overflowChecks
  else if pos = unaryInt64Plus then plusUnaryEval
  else if pos = unaryInt64Minus then int64MinusUnaryEval overflowChecks
  else if pos = unaryBooleanNot then booleanNotUnaryEval
  else if pos = unaryFloat32Plus then plusUnaryEval
  else if pos = unaryFloat32Minus then float32MinusUnaryEval
  else if pos = unaryFloat64Plus then plusUnaryEval
  else if pos = unaryFloat64Minus then float64MinusUnaryEval
  else fun _ => .error (.panic s!"unknown unary evaluator position {pos}")

def UnaryEvaluatorRef.unaryEval (overflowChecks : Bool) (self : UnaryEvaluatorRef) :
    UnaryEvaluator :=
  evalUnary overflowChecks self.pos

/-- The evaluator of unary minus, without the detour over positions. -/
def minusEvaluatorOf (overflowChecks : Bool) : LogicalType → Option UnaryEvaluator
  | .tinyint => some (int8MinusUnaryEval overflowChecks)
  | .smallint => some (int16MinusUnaryEval overflowChecks)
  | .integer => some (int32MinusUnaryEval overflowChecks)
  | .bigint => some (int64MinusUnaryEval overflowChecks)
  | .float => some float32MinusUnaryEval
  | .double => some float64MinusUnaryEval
  | _ => none

theorem minusEvaluatorOf_of_unaryCreate {overflowChecks : Bool} {ty : LogicalType}
    {ref : UnaryEvaluatorRef} (h : unaryCreate ty .minus = .ok ref) :
    minusEvaluatorOf overflowChecks ty = some (ref.unaryEval overflowChecks) := by
  cases ty <;> cases h <;> rfl

end KiteSQL
