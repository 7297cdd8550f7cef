import KiteSQL.Expression.Range

/-! The range of an index column that a predicate implies, and what the range leaves of it. -/
namespace KiteSQL

/-- The evaluators of operators on constants; `none` where there is none for the type. -/
class Evaluators where
  unaryEval : LogicalType → UnaryOperator → DataValue → Option DataValue
  binaryEval : LogicalType → BinaryOperator → DataValue → DataValue → Option (Result DataValue)

/-- Evaluators of no operator. -/
@[reducible] def Evaluators.none : Evaluators where
  unaryEval _ _ _ := Option.none
  binaryEval _ _ _ _ := Option.none

variable [Conversions] [Evaluators]

namespace Expression

def unpackVal : Expression → Option DataValue
  | .constant value => some value
  | .alias expr => expr.unpackVal
  | .typeCast expr ty => do (← expr.unpackVal).cast ty |>.toOption
  | .isNull negated expr => do
    let value ← expr.unpackVal
    if value.hasParameter then none else some (.boolean (value.isNull != negated))
  | .unary op expr ty => do
    let value ← expr.unpackVal
    if value.hasParameter then none else Evaluators.unaryEval ty op value
  | .binary op left right ty => do
    let left ← (← left.unpackVal).cast ty |>.toOption
    let right ← (← right.unpackVal).cast ty |>.toOption
    if left.hasParameter || right.hasParameter then none
    else (← Evaluators.binaryEval ty op left right).toOption
  | _ => none

def unpackBoundCol (isDeep : Bool) : Expression → Option (ColumnCatalog × Nat)
  | .columnRef column position => some (column, position)
  | .alias expr => expr.unpackBoundCol isDeep
  | .unary _ expr _ => expr.unpackBoundCol isDeep
  | .binary _ left right _ =>
    if isDeep then (left.unpackBoundCol true).orElse fun _ => right.unpackBoundCol true else none
  | _ => none

end Expression

structure DetachedPredicate where
  range : Range
  residual : Option Expression

namespace DetachedPredicate

def consumed (range : Range) : DetachedPredicate := ⟨range, none⟩

def combineResiduals (left right : Option Expression) : Option Expression :=
  match left, right with
  | some left, some right => some (.binary .and left right .boolean)
  | some expr, none | none, some expr => some expr
  | none, none => none

end DetachedPredicate

/-- A column of an index of a table, by its position in the index. -/
structure IndexRangeColumn where
  tableName : String
  columnIds : List ColumnId
  position : Nat

namespace IndexRangeColumn

def matchesColumn (self : IndexRangeColumn) (column : ColumnCatalog) : Bool :=
  match column.summary.relation with
  | .none => false
  | .table columnId tableName _ =>
    tableName = self.tableName && self.columnIds[self.position]? = some columnId

def flip : BinaryOperator → BinaryOperator
  | .gt => .lt
  | .lt => .gt
  | .gtEq => .ltEq
  | .ltEq => .gtEq
  | op => op

/-- Above a value of a column that may be NULL a range ends before NULL. -/
def openEnd (column : ColumnCatalog) : Bound DataValue :=
  if column.nullable then .excluded .null else .unbounded

def newRange (self : IndexRangeColumn) (op : BinaryOperator) (column : ColumnCatalog)
    (val : DataValue) (isFlip : Bool) : Result (Option Range) :=
  if !self.matchesColumn column then .ok none
  else if val.isNull then
    match op with
    | .spaceship => .ok (some (.eq .null))
    | .eq | .notEq | .gt | .lt | .gtEq | .ltEq => .ok (some .dummy)
    | _ => .ok none
  else do
    let val ← val.cast column.datatype
    match if isFlip then flip op else op with
    | .gt => return some (.scope (.excluded val) (openEnd column))
    | .lt => return some (.scope .unbounded (.excluded val))
    | .gtEq => return some (.scope (.included val) (openEnd column))
    | .ltEq => return some (.scope .unbounded (.included val))
    | .eq | .spaceship => return some (.eq val)
    | _ => return none

/-- The predicates of both sides of an AND. -/
def detachAnd (expr left right : Expression) :
    Option DetachedPredicate → Option DetachedPredicate → Result (Option DetachedPredicate)
  | some l, some r => do
    match ← Range.mergeBinary .and l.range r.range with
    | .ok range => return some ⟨range, DetachedPredicate.combineResiduals l.residual r.residual⟩
    | .error (range, _) => return some ⟨range, some expr⟩
  | some l, none =>
    .ok (some ⟨l.range, DetachedPredicate.combineResiduals l.residual (some right)⟩)
  | none, some r =>
    .ok (some ⟨r.range, DetachedPredicate.combineResiduals (some left) r.residual⟩)
  | none, none => .ok none

/-- The predicates of both sides of an OR. -/
def detachOr : Option DetachedPredicate → Option DetachedPredicate →
    Result (Option DetachedPredicate)
  | some ⟨left, none⟩, some ⟨right, none⟩ => do
    match ← Range.mergeBinary .or left right with
    | .ok range => return some (.consumed range)
    | .error _ => return none
  | _, _ => .ok none

def detach (self : IndexRangeColumn) : Expression → Result (Option DetachedPredicate)
  | .binary op left right ty =>
    match left.unpackBoundCol false, right.unpackVal, left.unpackVal,
        right.unpackBoundCol false with
    | some (column, _), some val, _, _ => do
      return (← self.newRange op column val false).map .consumed
    | _, _, some val, some (column, _) => do
      return (← self.newRange op column val true).map .consumed
    | _, _, _, _ =>
      match op with
      | .and => do
        detachAnd (.binary op left right ty) left right (← self.detach left) (← self.detach right)
      | .or => do detachOr (← self.detach left) (← self.detach right)
      | _ => .ok none
  | .alias expr => self.detach expr
  | .typeCast expr _ => self.detach expr
  | .isNull negated (.columnRef column _) =>
    if self.matchesColumn column then
      if negated then .ok (some (.consumed (.scope .unbounded (.excluded .null))))
      else .ok (some (.consumed (.eq .null)))
    else .ok none
  | _ => .ok none

end IndexRangeColumn

end KiteSQL
