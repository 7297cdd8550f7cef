import KiteSQL.Types.Evaluator.Typed

/-! Evaluators of binary operators as positions in one table. -/
namespace KiteSQL

open DataValue

inductive BinaryEvaluatorParams where
  | unit
  | like (escapeChar : Option Char)
deriving DecidableEq

structure BinaryEvaluatorRef where
  pos : Nat
  params : BinaryEvaluatorParams
deriving DecidableEq

def numericPlusOffset : Nat := 0
def numericMinusOffset : Nat := 1
def numericMultiplyOffset : Nat := 2
def numericDivideOffset : Nat := 3
def numericGtOffset : Nat := 4
def numericGtEqOffset : Nat := 5
def numericLtOffset : Nat := 6
def numericLtEqOffset : Nat := 7
def numericEqOffset : Nat := 8
def numericNotEqOffset : Nat := 9
def numericModuloOffset : Nat := 10
def numericOpsLen : Nat := numericModuloOffset + 1

def timePlusOffset : Nat := 0
def timeMinusOffset : Nat := 1
def timeGtOffset : Nat := 2
def timeGtEqOffset : Nat := 3
def timeLtOffset : Nat := 4
def timeLtEqOffset : Nat := 5
def timeEqOffset : Nat := 6
def timeNotEqOffset : Nat := 7
def timeOpsLen : Nat := 8

def timestampGtOffset : Nat := 0
def timestampGtEqOffset : Nat := 1
def timestampLtOffset : Nat := 2
def timestampLtEqOffset : Nat := 3
def timestampEqOffset : Nat := 4
def timestampNotEqOffset : Nat := 5
def timestampOpsLen : Nat := 6

def booleanAndOffset : Nat := 0
def booleanOrOffset : Nat := 1
def booleanEqOffset : Nat := 2
def booleanNotEqOffset : Nat := 3
def booleanOpsLen : Nat := booleanNotEqOffset + 1

def utf8GtOffset : Nat := 0
def utf8LtOffset : Nat := 1
def utf8GtEqOffset : Nat := 2
def utf8LtEqOffset : Nat := 3
def utf8EqOffset : Nat := 4
def utf8NotEqOffset : Nat := 5
def utf8StringConcatOffset : Nat := 6
def utf8LikeOffset : Nat := 7
def utf8NotLikeOffset : Nat := 8
def utf8OpsLen : Nat := utf8NotLikeOffset + 1

def sqlNullOpsLen : Nat := 1

def tupleEqOffset : Nat := 0
def tupleNotEqOffset : Nat := 1
def tupleGtOffset : Nat := 2
def tupleGtEqOffset : Nat := 3
def tupleLtOffset : Nat := 4
def tupleLtEqOffset : Nat := 5

def binaryInt8Base : Nat := 0
def binaryInt16Base : Nat := binaryInt8Base + numericOpsLen
def binaryInt32Base : Nat := binaryInt16Base + numericOpsLen
def binaryInt64Base : Nat := binaryInt32Base + numericOpsLen
def binaryUint8Base : Nat := binaryInt64Base + numericOpsLen
def binaryUint16Base : Nat := binaryUint8Base + numericOpsLen
def binaryUint32Base : Nat := binaryUint16Base + numericOpsLen
def binaryUint64Base : Nat := binaryUint32Base + numericOpsLen
def binaryFloat32Base : Nat := binaryUint64Base + numericOpsLen
def binaryFloat64Base : Nat := binaryFloat32Base + numericOpsLen
def binaryDateBase : Nat := binaryFloat64Base + numericOpsLen
def binaryDateTimeBase : Nat := binaryDateBase + numericOpsLen
def binaryDecimalBase : Nat := binaryDateTimeBase + numericOpsLen
def binaryTimeBase : Nat := binaryDecimalBase + numericOpsLen
def binaryTime64Base : Nat := binaryTimeBase + timeOpsLen
def binaryBooleanBase : Nat := binaryTime64Base + timestampOpsLen
def binaryUtf8Base : Nat := binaryBooleanBase + booleanOpsLen
def binarySqlNull : Nat := binaryUtf8Base + utf8OpsLen
def binaryTupleBase : Nat := binarySqlNull + sqlNullOpsLen

def unitBinaryRef (pos : Nat) : Result BinaryEvaluatorRef := .ok ⟨pos, .unit⟩

def numericBinaryPos (base : Nat) (ty : LogicalType) (op : BinaryOperator) : Result Nat :=
  match op with
  | .plus => .ok (base + numericPlusOffset)
  | .minus => .ok (base + numericMinusOffset)
  | .multiply => .ok (base + numericMultiplyOffset)
  | .divide => .ok (base + numericDivideOffset)
  | .gt => .ok (base + numericGtOffset)
  | .gtEq => .ok (base + numericGtEqOffset)
  | .lt => .ok (base + numericLtOffset)
  | .ltEq => .ok (base + numericLtEqOffset)
  | .eq => .ok (base + numericEqOffset)
  | .notEq => .ok (base + numericNotEqOffset)
  | .modulo => .ok (base + numericModuloOffset)
  | _ => .error (.error (.unsupportedBinaryOperator ty op))

def numericBinaryRef (base : Nat) (ty : LogicalType) (op : BinaryOperator) :
    Result BinaryEvaluatorRef := do
  unitBinaryRef (← numericBinaryPos base ty op)

def binaryCreate (ty : LogicalType) (op : BinaryOperator) : Result BinaryEvaluatorRef :=
  match ty with
  | .tinyint => numericBinaryRef binaryInt8Base ty op
  | .smallint => numericBinaryRef binaryInt16Base ty op
  | .integer => numericBinaryRef binaryInt32Base ty op
  | .bigint => numericBinaryRef binaryInt64Base ty op
  | .uTinyint => numericBinaryRef binaryUint8Base ty op
  | .uSmallint => numericBinaryRef binaryUint16Base ty op
  | .uInteger => numericBinaryRef binaryUint32Base ty op
  | .uBigint => numericBinaryRef binaryUint64Base ty op
  | .float => numericBinaryRef binaryFloat32Base ty op
  | .double => numericBinaryRef binaryFloat64Base ty op
  | .date => numericBinaryRef binaryDateBase ty op
  | .dateTime => numericBinaryRef binaryDateTimeBase ty op
  | .time _ =>
    match op with
    | .plus => unitBinaryRef (binaryTimeBase + timePlusOffset)
    | .minus => unitBinaryRef (binaryTimeBase + timeMinusOffset)
    | .gt => unitBinaryRef (binaryTimeBase + timeGtOffset)
    | .gtEq => unitBinaryRef (binaryTimeBase + timeGtEqOffset)
    | .lt => unitBinaryRef (binaryTimeBase + timeLtOffset)
    | .ltEq => unitBinaryRef (binaryTimeBase + timeLtEqOffset)
    | .eq => unitBinaryRef (binaryTimeBase + timeEqOffset)
    | .notEq => unitBinaryRef (binaryTimeBase + timeNotEqOffset)
    | _ => .error (.error (.unsupportedBinaryOperator ty op))
  | .timeStamp _ _ =>
    match op with
    | .gt => unitBinaryRef (binaryTime64Base + timestampGtOffset)
    | .gtEq => unitBinaryRef (binaryTime64Base + timestampGtEqOffset)
    | .lt => unitBinaryRef (binaryTime64Base + timestampLtOffset)
    | .ltEq => unitBinaryRef (binaryTime64Base + timestampLtEqOffset)
    | .eq => unitBinaryRef (binaryTime64Base + timestampEqOffset)
    | .notEq => unitBinaryRef (binaryTime64Base + timestampNotEqOffset)
    | _ => .error (.error (.unsupportedBinaryOperator ty op))
  | .decimal _ _ => numericBinaryRef binaryDecimalBase ty op
  | .boolean =>
    match op with
    | .and => unitBinaryRef (binaryBooleanBase + booleanAndOffset)
    | .or => unitBinaryRef (binaryBooleanBase + booleanOrOffset)
    | .eq => unitBinaryRef (binaryBooleanBase + booleanEqOffset)
    | .notEq => unitBinaryRef (binaryBooleanBase + booleanNotEqOffset)
    | _ => .error (.error (.unsupportedBinaryOperator .boolean op))
  | .varchar _ _ | .char _ _ =>
    match op with
    | .gt => unitBinaryRef (binaryUtf8Base + utf8GtOffset)
    | .lt => unitBinaryRef (binaryUtf8Base + utf8LtOffset)
    | .gtEq => unitBinaryRef (binaryUtf8Base + utf8GtEqOffset)
    | .ltEq => unitBinaryRef (binaryUtf8Base + utf8LtEqOffset)
    | .eq => unitBinaryRef (binaryUtf8Base + utf8EqOffset)
    | .notEq => unitBinaryRef (binaryUtf8Base + utf8NotEqOffset)
    | .stringConcat => unitBinaryRef (binaryUtf8Base + utf8StringConcatOffset)
    | .like escapeChar => .ok ⟨binaryUtf8Base + utf8LikeOffset, .like escapeChar⟩
    | .notLike escapeChar => .ok ⟨binaryUtf8Base + utf8NotLikeOffset, .like escapeChar⟩
    | _ => .error (.error (.unsupportedBinaryOperator ty op))
  | .sqlNull => unitBinaryRef binarySqlNull
  | .tuple _ =>
    match op with
    | .eq => unitBinaryRef (binaryTupleBase + tupleEqOffset)
    | .notEq => unitBinaryRef (binaryTupleBase + tupleNotEqOffset)
    | .gt => unitBinaryRef (binaryTupleBase + tupleGtOffset)
    | .gtEq => unitBinaryRef (binaryTupleBase + tupleGtEqOffset)
    | .lt => unitBinaryRef (binaryTupleBase + tupleLtOffset)
    | .ltEq => unitBinaryRef (binaryTupleBase + tupleLtEqOffset)
    | _ => .error (.error (.unsupportedBinaryOperator ty op))

/-- A position that is in no table. -/
def unknownPosition : Result DataValue :=
  .error (.panic "internal error: entered unreachable code")

def evalNumericBinary (evaluators : NumericEvaluators) (offset : Nat) : BinaryEvaluator :=
  if offset = numericPlusOffset then evaluators.plus
  else if offset = numericMinusOffset then evaluators.minus
  else if offset = numericMultiplyOffset then evaluators.multiply
  else if offset = numericDivideOffset then evaluators.divide
  else if offset = numericGtOffset then evaluators.gt
  else if offset = numericGtEqOffset then evaluators.gtEq
  else if offset = numericLtOffset then evaluators.lt
  else if offset = numericLtEqOffset then evaluators.ltEq
  else if offset = numericEqOffset then evaluators.eq
  else if offset = numericNotEqOffset then evaluators.notEq
  else if offset = numericModuloOffset then evaluators.mod
  else fun _ _ => unknownPosition

section
variable [Arithmetic]

def evalBinary (pos : Nat) (params : BinaryEvaluatorParams) : BinaryEvaluator :=
  if pos < binaryInt16Base then evalNumericBinary int8Evaluators (pos - binaryInt8Base)
  else if pos < binaryInt32Base then evalNumericBinary int16Evaluators (pos - binaryInt16Base)
  else if pos < binaryInt64Base then evalNumericBinary int32Evaluators (pos - binaryInt32Base)
  else if pos < binaryUint8Base then evalNumericBinary int64Evaluators (pos - binaryInt64Base)
  else if pos < binaryUint16Base then evalNumericBinary uint8Evaluators (pos - binaryUint8Base)
  else if pos < binaryUint32Base then evalNumericBinary uint16Evaluators (pos - binaryUint16Base)
  else if pos < binaryUint64Base then evalNumericBinary uint32Evaluators (pos - binaryUint32Base)
  else if pos < binaryFloat32Base then evalNumericBinary uint64Evaluators (pos - binaryUint64Base)
  else if pos < binaryFloat64Base then evalNumericBinary float32Evaluators (pos - binaryFloat32Base)
  else if pos < binaryDateBase then evalNumericBinary float64Evaluators (pos - binaryFloat64Base)
  else if pos < binaryDateTimeBase then evalNumericBinary dateEvaluators (pos - binaryDateBase)
  else if pos < binaryDecimalBase then
    evalNumericBinary dateTimeEvaluators (pos - binaryDateTimeBase)
  else if pos < binaryTimeBase then evalNumericBinary decimalEvaluators (pos - binaryDecimalBase)
  else if pos = binaryTimeBase + timePlusOffset then timePlusBinaryEval
  else if pos = binaryTimeBase + timeMinusOffset then timeMinusBinaryEval
  else if pos = binaryTimeBase + timeGtOffset then timeGtBinaryEval
  else if pos = binaryTimeBase + timeGtEqOffset then timeGtEqBinaryEval
  else if pos = binaryTimeBase + timeLtOffset then timeLtBinaryEval
  else if pos = binaryTimeBase + timeLtEqOffset then timeLtEqBinaryEval
  else if pos = binaryTimeBase + timeEqOffset then timeEqBinaryEval
  else if pos = binaryTimeBase + timeNotEqOffset then timeNotEqBinaryEval
  else if pos = binaryTime64Base + timestampGtOffset then time64GtBinaryEval
  else if pos = binaryTime64Base + timestampGtEqOffset then time64GtEqBinaryEval
  else if pos = binaryTime64Base + timestampLtOffset then time64LtBinaryEval
  else if pos = binaryTime64Base + timestampLtEqOffset then time64LtEqBinaryEval
  else if pos = binaryTime64Base + timestampEqOffset then time64EqBinaryEval
  else if pos = binaryTime64Base + timestampNotEqOffset then time64NotEqBinaryEval
  else if pos = binaryBooleanBase + booleanAndOffset then booleanAndBinaryEval
  else if pos = binaryBooleanBase + booleanOrOffset then booleanOrBinaryEval
  else if pos = binaryBooleanBase + booleanEqOffset then booleanEqBinaryEval
  else if pos = binaryBooleanBase + booleanNotEqOffset then booleanNotEqBinaryEval
  else if pos = binaryUtf8Base + utf8GtOffset then utf8GtBinaryEval
  else if pos = binaryUtf8Base + utf8LtOffset then utf8LtBinaryEval
  else if pos = binaryUtf8Base + utf8GtEqOffset then utf8GtEqBinaryEval
  else if pos = binaryUtf8Base + utf8LtEqOffset then utf8LtEqBinaryEval
  else if pos = binaryUtf8Base + utf8EqOffset then utf8EqBinaryEval
  else if pos = binaryUtf8Base + utf8NotEqOffset then utf8NotEqBinaryEval
  else if pos = binaryUtf8Base + utf8StringConcatOffset then utf8StringConcatBinaryEval
  else if pos = binaryUtf8Base + utf8LikeOffset then
    match params with
    | .like escapeChar => utf8LikeBinaryEval escapeChar
    | .unit => fun _ _ => unknownPosition
  else if pos = binaryUtf8Base + utf8NotLikeOffset then
    match params with
    | .like escapeChar => utf8NotLikeBinaryEval escapeChar
    | .unit => fun _ _ => unknownPosition
  else if pos = binarySqlNull then nullBinaryEval
  else if pos = binaryTupleBase + tupleEqOffset then tupleEqBinaryEval
  else if pos = binaryTupleBase + tupleNotEqOffset then tupleNotEqBinaryEval
  else if pos = binaryTupleBase + tupleGtOffset then tupleGtBinaryEval
  else if pos = binaryTupleBase + tupleGtEqOffset then tupleGtEqBinaryEval
  else if pos = binaryTupleBase + tupleLtOffset then tupleLtBinaryEval
  else if pos = binaryTupleBase + tupleLtEqOffset then tupleLtEqBinaryEval
  else fun _ _ => unknownPosition

def BinaryEvaluatorRef.binaryEval (self : BinaryEvaluatorRef) : BinaryEvaluator :=
  evalBinary self.pos self.params

/-- The evaluator of an operator, without the detour over positions. -/
def NumericEvaluators.ofOperator (self : NumericEvaluators) : BinaryOperator → Option BinaryEvaluator
  | .plus => some self.plus
  | .minus => some self.minus
  | .multiply => some self.multiply
  | .divide => some self.divide
  | .gt => some self.gt
  | .gtEq => some self.gtEq
  | .lt => some self.lt
  | .ltEq => some self.ltEq
  | .eq => some self.eq
  | .notEq => some self.notEq
  | .modulo => some self.mod
  | _ => none

def timeEvaluator : BinaryOperator → Option BinaryEvaluator
  | .plus => some timePlusBinaryEval
  | .minus => some timeMinusBinaryEval
  | .gt => some timeGtBinaryEval
  | .gtEq => some timeGtEqBinaryEval
  | .lt => some timeLtBinaryEval
  | .ltEq => some timeLtEqBinaryEval
  | .eq => some timeEqBinaryEval
  | .notEq => some timeNotEqBinaryEval
  | _ => none

def time64Evaluator : BinaryOperator → Option BinaryEvaluator
  | .gt => some time64GtBinaryEval
  | .gtEq => some time64GtEqBinaryEval
  | .lt => some time64LtBinaryEval
  | .ltEq => some time64LtEqBinaryEval
  | .eq => some time64EqBinaryEval
  | .notEq => some time64NotEqBinaryEval
  | _ => none

def booleanEvaluator : BinaryOperator → Option BinaryEvaluator
  | .and => some booleanAndBinaryEval
  | .or => some booleanOrBinaryEval
  | .eq => some booleanEqBinaryEval
  | .notEq => some booleanNotEqBinaryEval
  | _ => none

def utf8Evaluator : BinaryOperator → Option BinaryEvaluator
  | .gt => some utf8GtBinaryEval
  | .lt => some utf8LtBinaryEval
  | .gtEq => some utf8GtEqBinaryEval
  | .ltEq => some utf8LtEqBinaryEval
  | .eq => some utf8EqBinaryEval
  | .notEq => some utf8NotEqBinaryEval
  | .stringConcat => some utf8StringConcatBinaryEval
  | .like escapeChar => some (utf8LikeBinaryEval escapeChar)
  | .notLike escapeChar => some (utf8NotLikeBinaryEval escapeChar)
  | _ => none

def tupleEvaluator : BinaryOperator → Option BinaryEvaluator
  | .eq => some tupleEqBinaryEval
  | .notEq => some tupleNotEqBinaryEval
  | .gt => some tupleGtBinaryEval
  | .gtEq => some tupleGtEqBinaryEval
  | .lt => some tupleLtBinaryEval
  | .ltEq => some tupleLtEqBinaryEval
  | _ => none

def evaluatorOf : LogicalType → BinaryOperator → Option BinaryEvaluator
  | .tinyint => int8Evaluators.ofOperator
  | .smallint => int16Evaluators.ofOperator
  | .integer => int32Evaluators.ofOperator
  | .bigint => int64Evaluators.ofOperator
  | .uTinyint => uint8Evaluators.ofOperator
  | .uSmallint => uint16Evaluators.ofOperator
  | .uInteger => uint32Evaluators.ofOperator
  | .uBigint => uint64Evaluators.ofOperator
  | .float => float32Evaluators.ofOperator
  | .double => float64Evaluators.ofOperator
  | .date => dateEvaluators.ofOperator
  | .dateTime => dateTimeEvaluators.ofOperator
  | .decimal _ _ => decimalEvaluators.ofOperator
  | .time _ => timeEvaluator
  | .timeStamp _ _ => time64Evaluator
  | .boolean => booleanEvaluator
  | .varchar _ _ | .char _ _ => utf8Evaluator
  | .sqlNull => fun _ => some nullBinaryEval
  | .tuple _ => tupleEvaluator

/-- Every position that is handed out leads to the evaluator it was handed out for. -/
theorem map_binaryCreate (ty : LogicalType) (op : BinaryOperator) :
    (binaryCreate ty op).map BinaryEvaluatorRef.binaryEval =
      (evaluatorOf ty op).elim (.error (.error (.unsupportedBinaryOperator ty op))) .ok := by
  cases ty <;> cases op <;> rfl

theorem evaluatorOf_of_binaryCreate {ty : LogicalType} {op : BinaryOperator}
    {ref : BinaryEvaluatorRef} (h : binaryCreate ty op = .ok ref) :
    evaluatorOf ty op = some ref.binaryEval := by
  have hmap := map_binaryCreate ty op
  rw [h] at hmap
  cases he : evaluatorOf ty op with
  | none =>
    rw [he] at hmap
    cases hmap
  | some evaluator =>
    rw [he] at hmap
    cases hmap
    rfl

end

end KiteSQL
