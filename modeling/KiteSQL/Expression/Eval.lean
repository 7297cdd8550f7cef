import KiteSQL.Expression.Syntax
import KiteSQL.Types.Cast
import KiteSQL.Types.CommonType
import KiteSQL.Types.Evaluator.Binary
import KiteSQL.Types.Evaluator.Unary
import KiteSQL.Types.Tuple

/-! Choosing the evaluators of an expression and evaluating it on a row. -/
namespace KiteSQL

/-- An expression with its evaluators; that of a cast is given by the type it casts to. -/
inductive BoundExpression where
  | constant (value : DataValue)
  | columnRef (position : Nat)
  | alias (expr : BoundExpression)
  | typeCast (expr : BoundExpression) (evaluator : Option LogicalType)
  | isNull (negated : Bool) (expr : BoundExpression)
  | unary (expr : BoundExpression) (evaluator : UnaryEvaluatorRef)
  | binary (left right : BoundExpression) (evaluator : BinaryEvaluatorRef)
  | inList (negated : Bool) (expr : BoundExpression) (args : List BoundExpression)
  | between (negated : Bool) (expr left right : BoundExpression)
  | call (eval : List DataValue → Result DataValue)

namespace Expression

def returnType : Expression → LogicalType
  | .constant value => value.logicalType
  | .columnRef column _ => column.datatype
  | .alias expr => expr.returnType
  | .unary _ _ ty | .binary _ _ _ ty | .typeCast _ ty => ty
  | .isNull _ _ | .inList _ _ _ | .between _ _ _ _ => .boolean
  | .call returnType _ => returnType

/-- The type in which a number without a sign is negated. -/
def signedType : LogicalType → LogicalType
  | .uTinyint => .tinyint
  | .uSmallint => .smallint
  | .uInteger => .integer
  | .uBigint => .bigint
  | ty => ty

end Expression

/-- A cast of an expression of one type to another. -/
def BoundExpression.castTo (source ty : LogicalType) (expr : BoundExpression) : BoundExpression :=
  if source = ty then expr else .typeCast expr (some ty)

namespace Expression

mutual

/-- `BindEvaluator`. -/
def bind : Expression → Result BoundExpression
  | .constant value => .ok (.constant value)
  | .columnRef _ position => .ok (.columnRef position)
  | .alias expr => return .alias (← bind expr)
  | .typeCast expr ty => return .typeCast (← bind expr) (if expr.returnType = ty then none else some ty)
  | .isNull negated expr => return .isNull negated (← bind expr)
  | .unary op expr _ => do
    let bound ← bind expr
    let ty := signedType expr.returnType
    return .unary (bound.castTo expr.returnType ty) (← unaryCreate ty op)
  | .binary op left right _ => do
    let boundLeft ← bind left
    let boundRight ← bind right
    let ty ← LogicalType.maxLogicalType left.returnType right.returnType
    return .binary (boundLeft.castTo left.returnType ty) (boundRight.castTo right.returnType ty)
      (← binaryCreate ty op)
  | .inList negated expr args => return .inList negated (← bind expr) (← bindAll args)
  | .between negated expr left right =>
    return .between negated (← bind expr) (← bind left) (← bind right)
  | .call _ eval => .ok (.call eval)

def bindAll : List Expression → Result (List BoundExpression)
  | [] => .ok []
  | expr :: exprs => return (← bind expr) :: (← bindAll exprs)

end

end Expression

/-- A cast by its evaluator, which keeps NULL. -/
def DataValue.evalTypeCast [Conversions] (ty : LogicalType) (value : DataValue) :
    Result DataValue :=
  if value.isNull then .ok .null else value.evalCast ty

/-- `value BETWEEN left AND right`, or the opposite. -/
def DataValue.between (negated : Bool) (value left right : DataValue) : DataValue :=
  match (partialCmp value left).map Ordering.isGE, (partialCmp value right).map Ordering.isLE with
  | some true, some true => .boolean !negated
  | none, _ | _, none => .null
  | _, _ => .boolean negated

namespace BoundExpression

variable [Conversions] [Arithmetic] (overflowChecks : Bool) (tuple : Option (List DataValue))

mutual

def eval : BoundExpression → Result DataValue
  | .constant (.parameter id _) => .error (.error (.parametersNotFound s!"${id}"))
  | .constant value => .ok value
  | .columnRef position =>
    match tuple with
    | none => .ok .null
    | some values => Tuple.valueAt values position
  | .alias expr => if tuple.isNone then .ok .null else eval expr
  | .typeCast expr none => eval expr
  | .typeCast expr (some ty) => do DataValue.evalTypeCast ty (← eval expr)
  | .isNull negated expr => return .boolean ((← eval expr).isNull != negated)
  | .unary expr evaluator => do evaluator.unaryEval overflowChecks (← eval expr)
  | .binary left right evaluator => do
    let left ← eval left
    let right ← eval right
    evaluator.binaryEval left right
  | .inList negated expr args => do
    let value ← eval expr
    if value.isNull then return .null else evalIn negated value false args
  | .between negated expr left right => do
    let value ← eval expr
    let left ← eval left
    let right ← eval right
    return DataValue.between negated value left right
  | .call eval => eval (tuple.getD [])

def evalIn (negated : Bool) (value : DataValue) (sawNull : Bool) :
    List BoundExpression → Result DataValue
  | [] => if sawNull then .ok .null else .ok (.boolean negated)
  | arg :: args => do
    let argValue ← eval arg
    if argValue.isNull then evalIn negated value true args
    else if DataValue.eq argValue value then return .boolean !negated
    else evalIn negated value sawNull args

end

end BoundExpression

/-- Evaluation of an expression on a row, or without one. -/
def Expression.eval [Conversions] [Arithmetic] (overflowChecks : Bool)
    (tuple : Option (List DataValue)) (expr : Expression) : Result DataValue := do
  (← expr.bind).eval overflowChecks tuple

end KiteSQL
