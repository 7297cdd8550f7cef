import KiteSQL.Expression.Syntax
import KiteSQL.Types.Cast
import KiteSQL.Types.CommonType
import KiteSQL.Types.Evaluator.Numeric
import KiteSQL.Types.Tuple
import KiteSQL.Types.ValueEq

/-! The accumulators of the aggregate functions. -/
namespace KiteSQL

inductive AggKind where
  | avg
  | max
  | min
  | sum
  | count
deriving DecidableEq

structure AggCall where
  distinct : Bool
  kind : AggKind
  args : List Expression
  ty : LogicalType

/-- How an expression is evaluated on a row. -/
abbrev RowEval := Expression → Tuple → Result DataValue

/-- The evaluators of binary operators for values of a type. -/
class BinaryCreate where
  binaryCreate : LogicalType → BinaryOperator → Result BinaryEvaluator

structure SumAccumulator where
  result : DataValue
  evaluator : BinaryEvaluator

inductive Accumulator where
  | count (result : Int32)
  | distinctCount (distinctValues : List DataValue) (result : Int32)
  | sum (acc : SumAccumulator)
  | distinctSum (distinctValues : List DataValue) (inner : SumAccumulator)
  | minMax (result : DataValue) (op : BinaryOperator)
  | avg (inner : Option SumAccumulator) (count : Nat) (result : DataValue)

def SumAccumulator.updateValue (self : SumAccumulator) (value : DataValue) :
    Result SumAccumulator :=
  if value.isNull then .ok self
  else if self.result.isNull then .ok { self with result := value }
  else do return { self with result := ← self.evaluator self.result value }

section
variable [BinaryCreate]

def SumAccumulator.new (ty : LogicalType) : Result SumAccumulator := do
  return ⟨.null, ← BinaryCreate.binaryCreate ty .plus⟩

/-- Whether a value replaces the least or greatest value so far. -/
def replaces (op : BinaryOperator) (result value : DataValue) : Result Bool :=
  if result.isNull then .ok true
  else do
    let evaluator ← BinaryCreate.binaryCreate value.logicalType op
    match ← evaluator result value with
    | .boolean result => return result
    | _ => throw (.error .invalidType)

namespace Accumulator

def updateValue (self : Accumulator) (value : DataValue) : Result Accumulator :=
  match self with
  | .count result =>
    if value.isNull then .ok self
    else if result = Int32.maxValue then .error (.panic "attempt to add with overflow")
    else .ok (.count (result + 1))
  | .distinctCount distinctValues _ =>
    if value.isNull || distinctValues.any (·.eq value) then .ok self
    else .ok (.distinctCount (distinctValues ++ [value]) (.ofNat (distinctValues.length + 1)))
  | .sum acc => .sum <$> acc.updateValue value
  | .distinctSum distinctValues inner =>
    if distinctValues.any (·.eq value) then .ok self
    else .distinctSum (distinctValues ++ [value]) <$> inner.updateValue value
  | .minMax result op =>
    if value.isNull then .ok self
    else do
      if ← replaces op result value then return .minMax value op else return self
  | .avg inner n _ =>
    if value.isNull then .ok self
    else do
      let acc ← match inner with
        | some acc => pure acc
        | none => SumAccumulator.new value.logicalType
      return .avg (some (← acc.updateValue value)) (n + 1) .null

variable [Conversions]

/-- The average of a sum that is not empty. -/
def average (sum : DataValue) (count : Nat) : Result DataValue := do
  let quantity := if sum.logicalType.isSignedNumeric then DataValue.int64 (.ofNat count)
    else DataValue.uInt32 (.ofNat count)
  let sum ← if sum.logicalType = quantity.logicalType then pure sum
    else sum.cast quantity.logicalType
  (← BinaryCreate.binaryCreate quantity.logicalType .divide) sum quantity

def evaluate (self : Accumulator) : Result Accumulator :=
  match self with
  | .avg (some acc) n result =>
    if !result.isNull || n = 0 then .ok self
    else do return .avg (some acc) n (← average acc.result n)
  | acc => .ok acc

def result : Accumulator → DataValue
  | .count result | .distinctCount _ result => .int32 result
  | .sum acc | .distinctSum _ acc => acc.result
  | .minMax result _ | .avg _ _ result => result

end Accumulator

def createAccumulator (kind : AggKind) (ty : LogicalType) (distinct : Bool) : Result Accumulator :=
  match kind, distinct with
  | .count, false => .ok (.count 0)
  | .count, true => .ok (.distinctCount [] 0)
  | .sum, false => .sum <$> SumAccumulator.new ty
  | .sum, true => .distinctSum [] <$> SumAccumulator.new ty
  | .min, _ => .ok (.minMax .null .gt)
  | .max, _ => .ok (.minMax .null .lt)
  | .avg, _ => .ok (.avg none 0 .null)

def createAccumulators (aggCalls : List AggCall) : Result (List Accumulator) :=
  aggCalls.mapM fun call => createAccumulator call.kind call.ty call.distinct

def updateAccumulators (eval : RowEval) (tuple : Tuple) :
    List Accumulator → List AggCall → Result (List Accumulator)
  | acc :: accs, call :: aggCalls =>
    match call.args with
    | [] => .error (.panic "index out of bounds: the len is 0 but the index is 0")
    | [arg] => do
      let acc ← acc.updateValue (← eval arg tuple)
      return acc :: (← updateAccumulators eval tuple accs aggCalls)
    | _ => .error (.error (.unsupportedStmt
        "currently aggregate functions only support a single Column as a parameter"))
  | accs, _ => .ok accs

/-- The aggregates of a group before its keys. -/
def writeAggregateOutput [Conversions] (accs : List Accumulator) (groupKeys : List DataValue) :
    Result Tuple := do
  let results ← accs.mapM fun acc => Accumulator.result <$> acc.evaluate
  return ⟨none, results ++ groupKeys⟩

end

/-- Evaluators of 32 bit integers. -/
@[reducible] def BinaryCreate.integers : BinaryCreate where
  binaryCreate _ op := .ok fun left right =>
    match op, left, right with
    | .plus, .int32 a, .int32 b => .ok (.int32 (a + b))
    | .lt, .int32 a, .int32 b => .ok (.boolean (a < b))
    | .gt, .int32 a, .int32 b => .ok (.boolean (a > b))
    | _, _, _ => .error (.error .invalidType)

/-- A constant stands for the value at its position. -/
def atPosition : RowEval := fun expr row =>
  match expr with
  | .constant (.uInt32 i) => .ok (row.values.getD i.toNat .null)
  | _ => .error (.error .invalidType)

end KiteSQL
