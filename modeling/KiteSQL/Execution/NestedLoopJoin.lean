import KiteSQL.Execution.HashJoin

/-! The nested loop join executor: the right input is read again for each left row. -/
namespace KiteSQL

structure EqualCondition where
  onLeftKeys : List PlanExpression
  onRightKeys : List PlanExpression
  leftLen : Nat
  rightLen : Nat

namespace EqualCondition

def equalKeys (positions : Nat → Nat) (left right : Tuple) :
    List (PlanExpression × PlanExpression) → Result Bool
  | [] => .ok true
  | (leftExpr, rightExpr) :: keys => do
    let leftKey ← leftExpr.eval positions left.values
    let rightKey ← rightExpr.eval positions right.values
    if leftKey.eq rightKey then equalKeys positions left right keys else return false

/-- Whether the keys of the two rows are equal; NULL is equal to NULL. -/
def equals (cond : EqualCondition) (positions : Nat → Nat) (left right : Tuple) : Result Bool :=
  if cond.onLeftKeys.isEmpty then .ok true
  else equalKeys positions left right (cond.onLeftKeys.zip cond.onRightKeys)

end EqualCondition

structure ActiveLeftState where
  leftTuple : Tuple
  rightInput : List (Result Tuple)
  rightIndex : Nat
  hasMatched : Bool
  firstMatches : List Nat

inductive NestedLoopJoinState where
  | pullLeft (rightBitmap : Option RowBitmap)
  | scanRight (activeLeft : ActiveLeftState) (rightBitmap : Option RowBitmap)
  | emitRightUnmatched (rightInput : List (Result Tuple)) (rightBitmap : Option RowBitmap)
      (rightEmitIndex : Nat)
  | over

/-- What stays the same during a nested loop join; the right plan returns `rightInput` each time it
is built. -/
structure NestedLoop where
  ty : JoinType
  filter : Option PlanExpression
  eqCond : EqualCondition
  rightInput : List (Result Tuple)

structure NestedLoopJoin extends NestedLoop where
  leftInput : List (Result Tuple)
  state : NestedLoopJoinState

/-- The row of two tuples; `none` if it has no columns. -/
def emitTuple (left right : Tuple) (ty : JoinType) (isMatched : Bool) : Option Tuple :=
  let leftLen := left.values.length
  let joined := left.values ++ right.values
  let values := if isMatched then joined else
    match ty with
    | .inner | .cross => []
    | .leftOuter | .full => joined.take leftLen ++ (joined.drop leftLen).map fun _ => .null
    | .rightOuter => List.replicate leftLen .null ++ joined.drop leftLen
  if values.isEmpty then none else some ⟨left.pk.or right.pk, values⟩

namespace NestedLoop

variable (loop : NestedLoop) (positions : Nat → Nat)

/-- The two tuples in the order of the columns: a right outer join runs with its sides swapped. -/
def sides (left right : Tuple) : Tuple × Tuple :=
  if loop.ty = .rightOuter then (right, left) else (left, right)

def pairRow (left right : Tuple) (isMatched : Bool) : Option Tuple :=
  emitTuple (loop.sides left right).1 (loop.sides left right).2 loop.ty isMatched

/-- The row of a pair of rows, if they match, and whether they do. -/
def joinPair (left right : Tuple) : Result (Option Tuple × Bool) := do
  match loop.filter, ← loop.eqCond.equals positions left right with
  | none, true => return (loop.pairRow left right true, true)
  | some filter, true =>
    let values := (loop.sides left right).1.values ++ (loop.sides left right).2.values
    if ← filter.keeps positions values then return (loop.pairRow left right true, true)
    else return (none, false)
  | _, false => return (none, false)

/-- A full join notes the right rows that matched: in the list of the first left row, or in the
bitmap that was made after it. -/
def noteMatch (idx : Nat) (active : ActiveLeftState) (rightBitmap : Option RowBitmap) :
    Result (ActiveLeftState × Option RowBitmap) :=
  if loop.ty = .full then
    match rightBitmap with
    | some bits => do return (active, some (← bits.insert idx))
    | none => .ok ({ active with firstMatches := active.firstMatches ++ [idx] }, none)
  else .ok (active, rightBitmap)

/-- The bitmap after the scan for one left row. -/
def matchedBits (active : ActiveLeftState) (rightBitmap : Option RowBitmap) :
    Result (Option RowBitmap) :=
  if loop.ty = .full then do
    let bits := rightBitmap.getD (.withCapacity active.rightIndex)
    return some (← active.firstMatches.foldlM RowBitmap.insert bits)
  else .ok rightBitmap

/-- The row of a left row that matched nothing. -/
def unmatchedLeft (active : ActiveLeftState) : Option Tuple :=
  match loop.ty with
  | .leftOuter | .rightOuter | .full =>
    if active.hasMatched then none
    else loop.pairRow active.leftTuple ⟨none, List.replicate loop.eqCond.rightLen .null⟩ false
  | .inner | .cross => none

def isUnmatched (rightBitmap : Option RowBitmap) (idx : Nat) : Bool :=
  match rightBitmap with
  | some bits => !bits.contains idx
  | none => true

/-- The state `EmitRightUnmatched`: the next right row that is not in the bitmap. -/
def emitRightUnmatched (rightBitmap : Option RowBitmap) :
    List (Result Tuple) → Nat → Result (Option Tuple × NestedLoopJoin)
  | [], _ => .ok (none, ⟨loop, [], .over⟩)
  | item :: input, idx => do
    let right ← item
    if isUnmatched rightBitmap idx then
      return (some ⟨right.pk, List.replicate loop.eqCond.leftLen .null ++ right.values⟩,
        ⟨loop, [], .emitRightUnmatched input rightBitmap (idx + 1)⟩)
    else emitRightUnmatched rightBitmap input (idx + 1)

/-- The state `ScanRight`: the next right row that matches, or the end of the right input, after
which `pull` takes the next left row. -/
def scanRight (lefts : List (Result Tuple))
    (pull : Option RowBitmap → Result (Option Tuple × NestedLoopJoin)) :
    List (Result Tuple) → ActiveLeftState → Option RowBitmap →
      Result (Option Tuple × NestedLoopJoin)
  | [], active, rightBitmap => do
    let rightBitmap ← loop.matchedBits active rightBitmap
    match loop.unmatchedLeft active with
    | some tuple => return (some tuple, ⟨loop, lefts, .pullLeft rightBitmap⟩)
    | none => pull rightBitmap
  | item :: input, active, rightBitmap => do
    let right ← item
    let (tuple, isMatched) ← loop.joinPair positions active.leftTuple right
    let next := { active with
      rightInput := input, rightIndex := active.rightIndex + 1,
      hasMatched := active.hasMatched || isMatched }
    match tuple with
    | some tuple => do
      let (next, rightBitmap) ← loop.noteMatch active.rightIndex next rightBitmap
      return (some tuple, ⟨loop, lefts, .scanRight next rightBitmap⟩)
    | none => scanRight lefts pull input next rightBitmap

/-- The state `PullLeft`: the next left row is joined with the right input from its start. -/
def pullLeft : List (Result Tuple) → Option RowBitmap → Result (Option Tuple × NestedLoopJoin)
  | [], rightBitmap =>
    if loop.ty = .full then loop.emitRightUnmatched rightBitmap loop.rightInput 0
    else .ok (none, ⟨loop, [], .over⟩)
  | item :: lefts, rightBitmap => do
    let left ← item
    loop.scanRight positions lefts (pullLeft lefts) loop.rightInput
      ⟨left, loop.rightInput, 0, false, []⟩ rightBitmap

end NestedLoop

namespace NestedLoopJoin

/-- The executor of a join operator above two inputs. -/
def ofOperator (op : JoinOperator) (leftSchemaLen rightSchemaLen : Nat)
    (leftInput rightInput : List (Result Tuple)) : NestedLoopJoin :=
  let onLeftKeys := op.on.map Prod.fst
  let onRightKeys := op.on.map Prod.snd
  if op.joinType = .rightOuter then
    ⟨⟨op.joinType, op.filter, ⟨onRightKeys, onLeftKeys, rightSchemaLen, leftSchemaLen⟩, leftInput⟩,
      rightInput, .pullLeft none⟩
  else
    ⟨⟨op.joinType, op.filter, ⟨onLeftKeys, onRightKeys, leftSchemaLen, rightSchemaLen⟩,
      rightInput⟩, leftInput, .pullLeft none⟩

def nextTuple (positions : Nat → Nat) (join : NestedLoopJoin) :
    Result (Option Tuple × NestedLoopJoin) :=
  match join.state with
  | .pullLeft rightBitmap => join.toNestedLoop.pullLeft positions join.leftInput rightBitmap
  | .scanRight active rightBitmap =>
    join.toNestedLoop.scanRight positions join.leftInput
      (join.toNestedLoop.pullLeft positions join.leftInput) active.rightInput active rightBitmap
  | .emitRightUnmatched rightInput rightBitmap rightEmitIndex =>
    join.toNestedLoop.emitRightUnmatched rightBitmap rightInput rightEmitIndex
  | .over => .ok (none, join)

end NestedLoopJoin

end KiteSQL
