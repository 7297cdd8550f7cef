import KiteSQL.Types.Evaluator.Typed
import KiteSQL.Lib.Join
import KiteSQL.Lib.Slice
import KiteSQL.Lib.Traverse

/-! Logical plans and the rows they stand for. -/
namespace KiteSQL

open Result

abbrev Row := List DataValue

/-- A column reference: the slot of its node in the plan's arena, and the column it names. The
arena keeps the position in the row at which it reads. -/
structure ColumnNode where
  ref : Nat
  column : Nat
deriving DecidableEq

/-- An expression as the plan rules see it: a conjunction, or a function of the columns it
reads. -/
inductive PlanExpression where
  | and (left right : PlanExpression)
  | other (columns : List ColumnNode) (apply : List DataValue → Result DataValue)

def DataValue.isTrue : DataValue → Result Bool
  | .null => .ok false
  | .boolean b => .ok b
  | _ => .error (.error .invalidType)

def valueAt (row : Row) (position : Nat) : Result DataValue :=
  match row[position]? with
  | some v => .ok v
  | none => .error (.panic "index out of bounds")

namespace PlanExpression

def eval (positions : Nat → Nat) (row : Row) : PlanExpression → Result DataValue
  | .and left right => do
    booleanAndBinaryEval (← left.eval positions row) (← right.eval positions row)
  | .other columns apply => do
    apply (← columns.mapM fun c => valueAt row (positions c.ref))

/-- Whether a filter keeps the row. -/
def keeps (e : PlanExpression) (positions : Nat → Nat) (row : Row) : Result Bool := do
  (← e.eval positions row).isTrue

end PlanExpression

inductive JoinType where
  | inner
  | leftOuter
  | rightOuter
  | full
  | cross
deriving DecidableEq

namespace JoinType

def keepsLeft : JoinType → Bool
  | .leftOuter | .full => true
  | .inner | .rightOuter | .cross => false

def keepsRight : JoinType → Bool
  | .rightOuter | .full => true
  | .inner | .leftOuter | .cross => false

end JoinType

structure JoinOperator where
  joinType : JoinType
  on : List (PlanExpression × PlanExpression)
  filter : Option PlanExpression
  forceNestedLoop : Bool

structure FilterOperator where
  predicate : PlanExpression
  isOptimized : Bool
  having : Bool

structure LimitOperator where
  offset : Option Nat
  limit : Option Nat
deriving DecidableEq

structure TableScanOperator where
  tableName : String
  columns : List Nat
  limit : Option Nat × Option Nat

inductive LogicalPlan where
  | values (schema : List Nat) (rows : List Row)
  | tableScan (op : TableScanOperator)
  | project (exprs : List (PlanExpression × Nat)) (child : LogicalPlan)
  | filter (op : FilterOperator) (child : LogicalPlan)
  | limit (op : LimitOperator) (child : LogicalPlan)
  | join (op : JoinOperator) (left right : LogicalPlan)

namespace JoinOperator

/-- Whether two rows match: their keys are equal, not NULL unless the nested loop compares them,
and the filter is true on the pair. -/
def joins (op : JoinOperator) (positions : Nat → Nat) (left right : Row) : Result Bool := do
  let lefts ← op.on.mapM fun key => key.1.eval positions left
  let rights ← op.on.mapM fun key => key.2.eval positions right
  if DataValue.eqList lefts rights && (op.forceNestedLoop || !rights.any DataValue.isNull) then
    match op.filter with
    | none => return true
    | some filter => filter.keeps positions (left ++ right)
  else return false

/-- The row of a pair; a missing partner is NULL in all its columns. -/
def assemble (leftLen rightLen : Nat) (pair : Option Row × Option Row) : Row :=
  pair.1.getD (List.replicate leftLen .null) ++ pair.2.getD (List.replicate rightLen .null)

/-- The rows of a join whose conditions can be evaluated on all pairs. -/
def joined (op : JoinOperator) (positions : Nat → Nat) (leftLen rightLen : Nat)
    (left right : List Row) : Result (List Row) := do
  let _ ← (left.product right).mapM fun pair => op.joins positions pair.1 pair.2
  return (Join.join op.joinType.keepsLeft op.joinType.keepsRight
    (fun l r => Traverse.holds (op.joins positions l r)) left right).map (assemble leftLen rightLen)

end JoinOperator

/-- The order in which an executor returns the rows of a join. -/
structure JoinOrder where
  arrange : JoinOperator → List Row → List Row → List Row → List Row
  perm : ∀ op left right rows, (arrange op left right rows).Perm rows

/-- What the rows of a plan depend on: the contents of the tables, the positions the arena holds
and the order in which joins return their rows. -/
structure ExecutionContext where
  tables : String → List Row
  positions : Nat → Nat
  order : JoinOrder

namespace LogicalPlan

def outputSchema : LogicalPlan → List Nat
  | .values schema _ => schema
  | .tableScan op => op.columns
  | .project exprs _ => exprs.map Prod.snd
  | .filter _ child | .limit _ child => child.outputSchema
  | .join _ left right => left.outputSchema ++ right.outputSchema

def rows (context : ExecutionContext) : LogicalPlan → Result (List Row)
  | .values _ rows => .ok rows
  | .tableScan op => .ok ((context.tables op.tableName).slice (op.limit.1.getD 0) op.limit.2)
  | .project exprs child => do
    (← child.rows context).mapM fun row => exprs.mapM fun e => e.1.eval context.positions row
  | .filter op child => do
    Traverse.filter (op.predicate.keeps context.positions) (← child.rows context)
  | .limit op child => do return (← child.rows context).slice (op.offset.getD 0) op.limit
  | .join op left right => do
    let lefts ← left.rows context
    let rights ← right.rows context
    let rows ← op.joined context.positions left.outputSchema.length right.outputSchema.length
      lefts rights
    return context.order.arrange op lefts rights rows

end LogicalPlan

namespace JoinOperator

variable {op : JoinOperator} {positions : Nat → Nat} {leftLen rightLen : Nat}
  {left right rows : List Row}

/-- The match as a test on the rows. -/
def test (op : JoinOperator) (positions : Nat → Nat) (l r : Row) : Bool :=
  Traverse.holds (op.joins positions l r)

theorem joined_eq_ok : op.joined positions leftLen rightLen left right = .ok rows ↔
    (∀ l ∈ left, ∀ r ∈ right, ∃ b, op.joins positions l r = .ok b) ∧
      rows = (Join.join op.joinType.keepsLeft op.joinType.keepsRight (op.test positions)
        left right).map (assemble leftLen rightLen) := by
  have hpairs : (∃ flags, (left.product right).mapM
      (fun pair => op.joins positions pair.1 pair.2) = .ok flags) ↔
      ∀ l ∈ left, ∀ r ∈ right, ∃ b, op.joins positions l r = .ok b := by
    rw [Traverse.exists_mapM_iff]
    constructor
    · intro h l hl r hr
      exact h (l, r) (List.mem_product.mpr ⟨hl, hr⟩)
    · rintro h ⟨l, r⟩ hlr
      obtain ⟨hl, hr⟩ := List.mem_product.mp hlr
      exact h l hl r hr
  rw [← hpairs, joined]
  constructor
  · intro h
    obtain ⟨flags, hflags, h⟩ := bind_eq_ok.mp h
    cases h
    exact ⟨⟨flags, hflags⟩, rfl⟩
  · rintro ⟨⟨flags, hflags⟩, rfl⟩
    exact bind_eq_ok.mpr ⟨flags, hflags, rfl⟩

end JoinOperator

namespace LogicalPlan

variable {context : ExecutionContext} {child left right : LogicalPlan} {out : List Row}

theorem rows_limit_eq_ok {op : LimitOperator} :
    (limit op child).rows context = .ok out ↔
      ∃ rows, child.rows context = .ok rows ∧ out = rows.slice (op.offset.getD 0) op.limit := by
  rw [rows, bind_eq_ok]
  simp [eq_comm]

theorem rows_join_eq_ok {op : JoinOperator} :
    (join op left right).rows context = .ok out ↔
      ∃ lefts rights, left.rows context = .ok lefts ∧ right.rows context = .ok rights ∧
        ∃ rows, op.joined context.positions left.outputSchema.length right.outputSchema.length
          lefts rights = .ok rows ∧ out = context.order.arrange op lefts rights rows := by
  constructor
  · intro h
    obtain ⟨lefts, rights, hl, hr, h⟩ := bind_bind_eq_ok.mp h
    obtain ⟨rows, hrows, h⟩ := bind_eq_ok.mp h
    cases h
    exact ⟨lefts, rights, hl, hr, rows, hrows, rfl⟩
  · rintro ⟨lefts, rights, hl, hr, rows, hrows, rfl⟩
    exact bind_eq_ok.mpr ⟨lefts, hl, bind_eq_ok.mpr ⟨rights, hr,
      bind_eq_ok.mpr ⟨rows, hrows, rfl⟩⟩⟩

end LogicalPlan

end KiteSQL
