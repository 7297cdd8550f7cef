import Mathlib.Data.List.ReduceOption
import KiteSQL.Expression.Between
import KiteSQL.Planner.Plan

/-! Stacks of filters and projections under `CombineFilter` and `CollapseProject`. -/
namespace KiteSQL

open Traverse List

/-- An expression over the slots of a row. `aliasExpr` reads a slot under another column than the
expression it replaces, and `node` is any other node as a function of its operands. -/
inductive SlotExpr where
  | columnRef (column : ColumnCatalog) (position : Nat)
  | aliasName (expr : SlotExpr) (name : String)
  | aliasExpr (expr : SlotExpr) (column : ColumnCatalog) (position : Nat)
  | node (arity : Nat) (apply : (Fin arity → Result DataValue) → Result DataValue)
      (args : Fin arity → SlotExpr)

namespace SlotExpr

def eval (row : Row) : SlotExpr → Result DataValue
  | .columnRef _ position | .aliasExpr _ _ position => valueAt row position
  | .aliasName expr _ => expr.eval row
  | .node _ apply args => apply fun i => (args i).eval row

/-- `left AND right`. -/
def and (left right : SlotExpr) : SlotExpr :=
  .node 2 (fun v => do booleanAndBinaryEval (← v 0) (← v 1)) ![left, right]

def stripAlias : SlotExpr → SlotExpr
  | .aliasName expr _ => expr.stripAlias
  | .aliasExpr _ column position => .columnRef column position
  | expr => expr

def passthroughSourcePosition (expr : SlotExpr) : Option Nat :=
  match expr.stripAlias with
  | .columnRef _ position => some position
  | _ => none

def collapseMatchExpr : SlotExpr → SlotExpr
  | .aliasName expr _ | .aliasExpr expr _ _ => expr
  | expr => expr

/-- `eq_ignore_colref_pos` against an expression that is a column under its aliases. -/
def eqIgnoreColrefPos (expr column : SlotExpr) : Bool :=
  match expr.stripAlias, column.stripAlias with
  | .columnRef left _, .columnRef right _ => left.sameColumn right
  | _, _ => false

def rewriteColumnPosition (newPosition : Nat) : SlotExpr → SlotExpr
  | .columnRef column _ => .columnRef column newPosition
  | .aliasName expr name => .aliasName (expr.rewriteColumnPosition newPosition) name
  | .aliasExpr expr column _ =>
    .aliasExpr (expr.rewriteColumnPosition newPosition) column newPosition
  | .node arity apply args =>
    .node arity apply fun i => (args i).rewriteColumnPosition newPosition

/-- Whether a visitor that does not look at alias columns only meets slots of the width. -/
def within (width : Nat) : SlotExpr → Bool
  | .columnRef _ position => position < width
  | .aliasName expr _ | .aliasExpr expr _ _ => expr.within width
  | .node _ _ args => decide (∀ i, (args i).within width = true)

end SlotExpr

open SlotExpr

def remapPassthroughProjectExprs (parents children : List SlotExpr) : Option (List SlotExpr) :=
  parents.mapM fun parent => do
    let child ← children.find? parent.collapseMatchExpr.eqIgnoreColrefPos
    return parent.rewriteColumnPosition (← child.passthroughSourcePosition)

/-- Filters and projections over any other plan, of which the schema counts. -/
inductive StackPlan where
  | input (schema : List ColumnCatalog)
  | project (exprs : List SlotExpr) (child : StackPlan)
  | filter (predicate : SlotExpr) (having isOptimized : Bool) (child : StackPlan)

namespace StackPlan

/-- What the operators of the stack make of a row of the input. -/
def pass (row : Row) : StackPlan → Result (Option Row)
  | .input _ => .ok (some row)
  | .project exprs child => do
    match ← child.pass row with
    | none => return none
    | some values => return some (← exprs.mapM (SlotExpr.eval values))
  | .filter predicate _ _ child => do
    match ← child.pass row with
    | none => return none
    | some values =>
      if ← (← predicate.eval values).isTrue then return some values else return none

def rows (plan : StackPlan) (input : List Row) : Result (List Row) := do
  return (← input.mapM fun row => plan.pass row).reduceOption

section CombineFilter

variable (outputColumn : SlotExpr → ColumnCatalog)
  (sameRef : ColumnCatalog → ColumnCatalog → Bool)

def outputSchema : StackPlan → List ColumnCatalog
  | .input schema => schema
  | .project exprs _ => exprs.map outputColumn
  | .filter _ _ _ child => child.outputSchema

end CombineFilter

end StackPlan

namespace SlotExpr

variable {row : Row} {expr : SlotExpr} {exprs : List SlotExpr} {position width : Nat}

end SlotExpr

namespace StackPlan

def width : StackPlan → Nat
  | .input schema => schema.length
  | .project exprs _ => exprs.length
  | .filter _ _ _ child => child.width

/-- All expressions of the stack are about slots of the plan below them. -/
def Valid : StackPlan → Prop
  | .input _ => True
  | .project exprs child => child.Valid ∧ ∀ expr ∈ exprs, expr.within child.width = true
  | .filter predicate _ _ child => child.Valid ∧ predicate.within child.width = true

/-- What the projections of the stack make of a row of the input. -/
def reach (row : Row) : StackPlan → Result Row
  | .input _ => .ok row
  | .project exprs child => do exprs.mapM (SlotExpr.eval (← child.reach row))
  | .filter _ _ _ child => child.reach row

/-- All expressions of the stack evaluate on the row, predicates to truth values. -/
def Evaluates (row : Row) : StackPlan → Prop
  | .input schema => row.length = schema.length
  | .project exprs child => child.Evaluates row ∧
    ∀ values, child.reach row = .ok values → ∃ out, exprs.mapM (SlotExpr.eval values) = .ok out
  | .filter predicate _ _ child => child.Evaluates row ∧
    ∀ values, child.reach row = .ok values → ∃ t, predicate.eval values = .ok (.ofTruth t)

def positions (exprs : List SlotExpr) : List (Option Nat) :=
  exprs.map SlotExpr.passthroughSourcePosition

/-- Where `collapse` ends: the slots that the given ones stand for there, the expressions that are
left and the plan below them. -/
def settle (slots : List (Option Nat)) (parents : List SlotExpr) :
    StackPlan → List (Option Nat) × List SlotExpr × StackPlan
  | .project children child =>
    if children.all fun expr => expr.passthroughSourcePosition.isSome then
      match remapPassthroughProjectExprs parents children with
      | some remapped =>
        settle (slots.map (·.bind fun slot =>
          children[slot]?.bind SlotExpr.passthroughSourcePosition)) remapped child
      | none => (slots, parents, .project children child)
    else (slots, parents, .project children child)
  | plan => (slots, parents, plan)

variable {row values : Row} {plan child combined : StackPlan} {predicate : SlotExpr}
  {parents children remapped exprs : List SlotExpr} {having isOptimized : Bool}

section Combine

variable {outputColumn : SlotExpr → ColumnCatalog}
  {sameRef : ColumnCatalog → ColumnCatalog → Bool}

end Combine

section Collapse

variable {slots : List (Option Nat)} {out below : Row}

/-- The values stand in the slots. -/
def Reads (values : Row) (slots : List (Option Nat)) (out : Row) : Prop :=
  Forall₂ (fun slot v => ∃ k, slot = some k ∧ values[k]? = some v) slots out

theorem valueAt_eq_ok {k : Nat} {v : DataValue} : valueAt row k = .ok v ↔ row[k]? = some v := by
  unfold valueAt
  split <;> simp_all

/-- Slots that hold the same of some values that are all different are the same. -/
theorem Reads.unique {slots' : List (Option Nat)} (h : Reads row slots out)
    (h' : Reads row slots' out) (hrow : row.Nodup) : slots = slots' := by
  induction h generalizing slots' with
  | nil =>
    cases h'
    rfl
  | cons hv _ ih =>
    cases h' with
    | cons hv' hrest =>
      obtain ⟨k, rfl, hk⟩ := hv
      obtain ⟨k', rfl, hk'⟩ := hv'
      obtain ⟨hlt, hget⟩ := List.getElem?_eq_some_iff.mp hk
      obtain ⟨hlt', hget'⟩ := List.getElem?_eq_some_iff.mp hk'
      rw [ih hrest, (hrow.getElem_inj_iff).mp (hget.trans hget'.symm)]

end Collapse

/-- A column of a derived table. -/
def derived (name : String) : ColumnCatalog :=
  ⟨⟨name, .table 0 "_temp_table_0_" true⟩, true, ⟨.integer, none, false, none⟩⟩

/-- `SELECT b, b FROM (SELECT b, a FROM t)`. -/
def swapped : StackPlan :=
  .project [.columnRef (derived "b") 0, .columnRef (derived "b") 0]
    (.project [.columnRef (derived "b") 1, .columnRef (derived "a") 0]
      (.input [derived "a", derived "b"]))

end StackPlan

end KiteSQL
