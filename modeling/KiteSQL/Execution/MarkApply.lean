import KiteSQL.Execution.Aggregate
import KiteSQL.Lib.Iterate
import KiteSQL.Lib.Truth
import KiteSQL.Storage.Transaction
import KiteSQL.Types.Evaluator.Rows

/-! The executor that runs a right plan for each left row: subqueries whose result is a mark, and
joins that probe an index. -/
namespace KiteSQL

open Iterate DataValue

inductive MarkApplyQuantifier where
  | any
  | all
  deriving DecidableEq

inductive MarkApplyKind where
  | exists_
  | quantified (quantifier : MarkApplyQuantifier)
  | innerJoin
  deriving DecidableEq

structure MarkApplyOperator where
  kind : MarkApplyKind
  predicates : List Expression
  parameterizedProbe : Option Expression

inductive RuntimeIndexProbe where
  | eq (value : DataValue)
  | scope (min max : Bound DataValue)

/-- How an expression is evaluated on a left and a right row. -/
abbrev PairEval := Expression → Tuple → Tuple → Result DataValue

/-- The rows of the right plan, built with a runtime probe or without one. -/
abbrev RightPlan := Option RuntimeIndexProbe → List (Result Tuple)

inductive QuantifiedPredicateOutcome where
  | true
  | false
  | null
  | skip
  deriving DecidableEq

structure MarkApply where
  op : MarkApplyOperator
  leftInput : List (Result Tuple)
  joinInput : Option (List (Result Tuple) × Tuple)

namespace MarkApply

variable (eval : RowEval) (evalPair : PairEval) (rightPlan : RightPlan)

def runtimeProbeFor (op : MarkApplyOperator) (paramValue : Option DataValue) :
    Option RuntimeIndexProbe :=
  if op.parameterizedProbe.isNone then none
  else
    match paramValue with
    | some value => some (.eq value)
    | none =>
      if op.kind = .quantified .any then some (.scope .unbounded .unbounded) else none

def buildRightInput (op : MarkApplyOperator) (paramValue : Option DataValue) :
    List (Result Tuple) :=
  rightPlan (runtimeProbeFor op paramValue)

def parameterizedProbeValue (op : MarkApplyOperator) (leftTuple : Tuple) :
    Result (Option DataValue) :=
  op.parameterizedProbe.mapM fun probe => eval probe leftTuple

def predicatesMatched (leftTuple rightTuple : Tuple) : List Expression → Result Bool
  | [] => .ok true
  | predicate :: predicates => do
    match ← evalPair predicate leftTuple rightTuple with
    | .boolean true => predicatesMatched leftTuple rightTuple predicates
    | .boolean false | .null => return false
    | _ => throw (.error .invalidType)

/-- `none` if a predicate other than the first one rejects the right row. -/
def evalPredicates (leftTuple rightTuple : Tuple) (op : MarkApplyOperator) :
    Result (Option DataValue) :=
  match op.predicates with
  | [] => .error (.error .invalidType)
  | probePredicate :: correlatedPredicates => do
    if ← predicatesMatched evalPair leftTuple rightTuple correlatedPredicates then
      return some (← evalPair probePredicate leftTuple rightTuple)
    else return none

def quantifiedPredicateOutcome (op : MarkApplyOperator) (leftTuple rightTuple : Tuple) :
    Result QuantifiedPredicateOutcome := do
  match ← evalPredicates evalPair leftTuple rightTuple op with
  | some (.boolean true) => return .true
  | some (.boolean false) => return .false
  | some .null => return .null
  | none => return .skip
  | some _ => throw (.error .invalidType)

/-- The loop of EXISTS. -/
def scanExists (op : MarkApplyOperator) (leftTuple : Tuple) : List (Result Tuple) → Result DataValue
  | [] => .ok (.boolean false)
  | item :: input => do
    if ← predicatesMatched evalPair leftTuple (← item) op.predicates then return .boolean true
    else scanExists op leftTuple input

/-- Whether some right row has the outcome. -/
def scanFor (outcome : QuantifiedPredicateOutcome) (op : MarkApplyOperator) (leftTuple : Tuple) :
    List (Result Tuple) → Result Bool
  | [] => .ok false
  | item :: input => do
    if (← quantifiedPredicateOutcome evalPair op leftTuple (← item)) = outcome then return true
    else scanFor outcome op leftTuple input

def scanQuantifiedRightInput (quantifier : MarkApplyQuantifier) (op : MarkApplyOperator)
    (leftTuple : Tuple) : List (Result Tuple) → Bool → Result DataValue
  | [], sawNull => .ok (if sawNull then .null else .boolean (quantifier = .all))
  | item :: input, sawNull => do
    match ← quantifiedPredicateOutcome evalPair op leftTuple (← item) with
    | .true =>
      if quantifier = .any then return .boolean true
      else scanQuantifiedRightInput quantifier op leftTuple input sawNull
    | .false =>
      if quantifier = .all then return .boolean false
      else scanQuantifiedRightInput quantifier op leftTuple input sawNull
    | .null => scanQuantifiedRightInput quantifier op leftTuple input true
    | .skip => scanQuantifiedRightInput quantifier op leftTuple input sawNull

/-- The two lookups of an ANY whose value is probed. -/
def probeAny (op : MarkApplyOperator) (leftTuple : Tuple) (probeValue : DataValue) :
    Result DataValue := do
  if ← scanFor evalPair .true op leftTuple (buildRightInput rightPlan op (some probeValue)) then
    return .boolean true
  else if ← scanFor evalPair .null op leftTuple (buildRightInput rightPlan op (some .null)) then
    return .null
  else return .boolean false

def markValue (op : MarkApplyOperator) (leftTuple : Tuple) : Result DataValue := do
  let probe ← parameterizedProbeValue eval op leftTuple
  match op.kind with
  | .innerJoin => throw (.panic "internal error: entered unreachable code: inner join streams tuples")
  | .exists_ => scanExists evalPair op leftTuple (buildRightInput rightPlan op probe)
  | .quantified .any =>
    match ← parameterizedProbeValue eval op leftTuple with
    | some probeValue =>
      if probeValue.isNull then
        scanQuantifiedRightInput evalPair .any op leftTuple (buildRightInput rightPlan op none) false
      else probeAny evalPair rightPlan op leftTuple probeValue
    | none =>
      scanQuantifiedRightInput evalPair .any op leftTuple (buildRightInput rightPlan op none) false
  | .quantified .all =>
    scanQuantifiedRightInput evalPair .all op leftTuple (buildRightInput rightPlan op none) false

def joinedRow (left right : Tuple) : Tuple := ⟨left.pk.or right.pk, left.values ++ right.values⟩

/-- The next joined row of a left row, and what is left of the right rows. -/
def scanJoin (op : MarkApplyOperator) (left : Tuple) :
    List (Result Tuple) → Result (Option (Tuple × List (Result Tuple)))
  | [] => .ok none
  | item :: input => do
    let right ← item
    if ← predicatesMatched evalPair left right op.predicates then
      return some (joinedRow left right, input)
    else scanJoin op left input

/-- The left rows that follow. -/
def pullJoin (op : MarkApplyOperator) : List (Result Tuple) → Result (Option Tuple × MarkApply)
  | [] => .ok (none, ⟨op, [], none⟩)
  | item :: leftInput => do
    let left ← item
    let value ← parameterizedProbeValue eval op left
    match ← scanJoin evalPair op left (buildRightInput rightPlan op value) with
    | some (row, rest) => return (some row, ⟨op, leftInput, some (rest, left)⟩)
    | none => pullJoin op leftInput

def nextJoinTuple (it : MarkApply) : Result (Option Tuple × MarkApply) :=
  match it.joinInput with
  | none => pullJoin eval evalPair rightPlan it.op it.leftInput
  | some (input, left) => do
    match ← scanJoin evalPair it.op left input with
    | some (row, rest) => return (some row, { it with joinInput := some (rest, left) })
    | none => pullJoin eval evalPair rightPlan it.op it.leftInput

def nextTuple (it : MarkApply) : Result (Option Tuple × MarkApply) :=
  if it.op.kind = .innerJoin then nextJoinTuple eval evalPair rightPlan it
  else
    match it.leftInput with
    | [] => .ok (none, it)
    | item :: leftInput => do
      let leftTuple ← item
      let marker ← markValue eval evalPair rightPlan it.op leftTuple
      return (some { leftTuple with values := leftTuple.values ++ [marker] },
        { it with leftInput := leftInput })

end MarkApply

end KiteSQL
