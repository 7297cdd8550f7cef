import KiteSQL.Execution.Aggregate
import KiteSQL.Expression.Eval
import KiteSQL.Expression.Position
import KiteSQL.Planner.Plan
import KiteSQL.Types.Evaluator.Defined

/-! Equality of expressions up to aliases and the positions of columns, against evaluation. -/
namespace KiteSQL.EqCol

open KeyedMap

inductive TrimWhereField where
  | both
  | leading
  | trailing
deriving DecidableEq

inductive WindowFunctionKind where
  | rowNumber
  | rank
  | denseRank
  | aggregate (kind : AggKind)
deriving DecidableEq

structure FunctionSummary where
  name : String
  argTypes : List LogicalType
deriving DecidableEq

/-- The evaluators of casts, and the functions, each known by its summary, over what their arguments
evaluate to. -/
class Registry where
  CastEvaluatorRef : Type
  decEq : DecidableEq CastEvaluatorRef
  castEval : CastEvaluatorRef → DataValue → Result DataValue
  returnType : FunctionSummary → LogicalType
  functionEval : FunctionSummary → List (Result DataValue) → Result DataValue

attribute [reducible, instance] Registry.decEq

section Syntax

variable [Registry]

/-- A kind of expression with all that it has besides its operands: how many there are where that
varies, and which of the optional ones. -/
inductive Form where
  | typeCast (ty : LogicalType) (evaluator : Option Registry.CastEvaluatorRef)
  | isNull (negated : Bool)
  | unary (op : UnaryOperator) (evaluator : Option UnaryEvaluatorRef) (ty : LogicalType)
  | binary (op : BinaryOperator) (evaluator : Option BinaryEvaluatorRef) (ty : LogicalType)
  | aggCall (distinct : Bool) (kind : AggKind) (args : Nat) (ty : LogicalType)
  | inList (negated : Bool) (args : Nat)
  | between (negated : Bool)
  | subString (hasFor hasFrom : Bool)
  | position
  | trim (hasWhat : Bool) (trimWhere : Option TrimWhereField)
  | empty
  | tuple (exprs : Nat)
  | scalaFunction (summary : FunctionSummary) (args : Nat)
  | tableFunction (summary : FunctionSummary) (args : Nat)
  | ifElse (ty : LogicalType)
  | ifNull (ty : LogicalType)
  | nullIf (ty : LogicalType)
  | coalesce (exprs : Nat) (ty : LogicalType)
  | caseWhen (hasOperand : Bool) (pairs : Nat) (hasElse : Bool) (ty : LogicalType)
  | windowCall (kind : WindowFunctionKind) (ty : LogicalType) (args partitionBy : Nat)
      (orderBy : List (Bool × Bool))
deriving DecidableEq

/-- The operands stand in the order of the source's fields, pairs one after the other. -/
def Form.arity : Form → Nat
  | .empty => 0
  | .typeCast _ _ | .isNull _ | .unary _ _ _ => 1
  | .binary _ _ _ | .position | .ifNull _ | .nullIf _ => 2
  | .between _ | .ifElse _ => 3
  | .aggCall _ _ n _ | .tuple n | .scalaFunction _ n | .tableFunction _ n | .coalesce n _ => n
  | .inList _ n => n + 1
  | .subString hasFor hasFrom => 1 + hasFor.toNat + hasFrom.toNat
  | .trim hasWhat _ => 1 + hasWhat.toNat
  | .caseWhen hasOperand n hasElse _ => hasOperand.toNat + 2 * n + hasElse.toNat
  | .windowCall _ _ m n orderBy => m + n + orderBy.length

/-- An alias is a name or an expression that stands for the aliased one. -/
inductive ScalarExpression where
  | constant (value : DataValue)
  | columnRef (column position : Nat)
  | aliasName (expr : ScalarExpression) (name : String)
  | aliasExpr (expr inner : ScalarExpression)
  | node (form : Form) (operands : Fin form.arity → ScalarExpression)

end Syntax

namespace ScalarExpression

variable [Registry] (columns : KeyTest Nat) (constants : DataValue → DataValue → Bool)

def unpackAlias : ScalarExpression → ScalarExpression
  | .aliasName expr _ => expr.unpackAlias
  | .aliasExpr _ inner => inner.unpackAlias
  | expr => expr

/-- The visitor, for a `same_column` and an equality of constants. -/
def equals : ScalarExpression → ScalarExpression → Bool
  | .aliasName expr _, rhs => equals expr rhs
  | .aliasExpr _ inner, rhs => equals inner rhs
  | .constant value, rhs =>
    match rhs.unpackAlias with
    | .constant value' => constants value value'
    | _ => false
  | .columnRef column _, rhs =>
    match rhs.unpackAlias with
    | .columnRef column' _ => columns.same column column'
    | _ => false
  | .node form operands, rhs =>
    match rhs.unpackAlias with
    | .node form' operands' =>
      if h : form = form' then
        decide (∀ i, equals (operands i) (operands' (i.cast (congrArg Form.arity h))) = true)
      else false
    | _ => false

def eqIgnoreColrefPos (lhs rhs : ScalarExpression) : Bool := equals columns DataValue.eq lhs rhs

/-- An expression reads a column at a position. -/
def Mentions (column position : Nat) : ScalarExpression → Prop
  | .constant _ => False
  | .columnRef column' position' => column = column' ∧ position = position'
  | .aliasName expr _ => Mentions column position expr
  | .aliasExpr _ inner => Mentions column position inner
  | .node _ operands => ∃ i, Mentions column position (operands i)

variable {columns constants} {lhs rhs : ScalarExpression} {c p : Nat}

/-- What looks through aliases gives the same without them. -/
theorem apply_unpackAlias {α : Sort _} (f : ScalarExpression → α)
    (hname : ∀ expr name, f (.aliasName expr name) = f expr)
    (hexpr : ∀ expr inner, f (.aliasExpr expr inner) = f inner) (expr : ScalarExpression) :
    f expr.unpackAlias = f expr := by
  induction expr with
  | aliasName expr name ih => exact ih.trans (hname expr name).symm
  | aliasExpr expr inner _ ih => exact ih.trans (hexpr expr inner).symm
  | _ => rfl

theorem mentions_unpackAlias (expr : ScalarExpression) :
    Mentions c p expr.unpackAlias = Mentions c p expr :=
  apply_unpackAlias (Mentions c p) (fun _ _ => rfl) (fun _ _ => rfl) expr

theorem equals_constant {v : DataValue} : equals columns constants (.constant v) rhs = true ↔
    ∃ w, rhs.unpackAlias = .constant w ∧ constants v w = true := by
  rw [equals]
  cases rhs.unpackAlias <;> simp

theorem equals_columnRef : equals columns constants (.columnRef c p) rhs = true ↔
    ∃ d q, rhs.unpackAlias = .columnRef d q ∧ columns.same c d = true := by
  rw [equals]
  cases rhs.unpackAlias <;> simp

theorem equals_node {form : Form} {operands : Fin form.arity → ScalarExpression} :
    equals columns constants (.node form operands) rhs = true ↔
      ∃ operands', rhs.unpackAlias = .node form operands' ∧
        ∀ i, equals columns constants (operands i) (operands' i) = true := by
  rw [equals]
  cases rhs.unpackAlias with
  | node form' operands' =>
    by_cases h : form = form'
    · subst h
      simp
    · simp [h, Ne.symm h]
  | _ => simp

theorem equals_unpackAlias_right (lhs rhs : ScalarExpression) :
    equals columns constants lhs rhs.unpackAlias = equals columns constants lhs rhs := by
  have hrhs := apply_unpackAlias unpackAlias (fun _ _ => rfl) (fun _ _ => rfl) rhs
  induction lhs with
  | aliasName expr name ih => exact ih
  | aliasExpr expr inner _ ih => exact ih
  | _ => rw [equals, equals, hrhs]

theorem equals_self (hconstants : ∀ v, constants v v = true) (expr : ScalarExpression) :
    equals columns constants expr expr = true := by
  induction expr with
  | constant v => exact hconstants v
  | columnRef c p => exact columns.refl c
  | aliasName expr name ih | aliasExpr _ expr _ ih =>
    rw [← equals_unpackAlias_right] at ih ⊢
    exact ih
  | node form operands ih => exact equals_node.mpr ⟨operands, rfl, ih⟩

theorem equals_congr (hconstants : ∀ u v w, constants u v = true → constants u w = constants v w)
    (a b d : ScalarExpression) (h : equals columns constants a b = true) :
    equals columns constants a d = equals columns constants b d := by
  have hb := apply_unpackAlias (equals columns constants · d) (fun _ _ => rfl) (fun _ _ => rfl) b
  induction a generalizing b d with
  | aliasName expr name ih => exact ih b d h hb
  | aliasExpr expr inner _ ih => exact ih b d h hb
  | constant v =>
    obtain ⟨w, hw, hvw⟩ := equals_constant.mp h
    rw [← hb, hw, Bool.eq_iff_iff]
    simp only [equals_constant, hconstants v w _ hvw]
  | columnRef c p =>
    obtain ⟨e, q, he, hce⟩ := equals_columnRef.mp h
    rw [← hb, he, Bool.eq_iff_iff]
    simp only [equals_columnRef, columns.congr c e _ hce]
  | node form operands ih =>
    obtain ⟨operands', hnode, hi⟩ := equals_node.mp h
    rw [← hb, hnode, Bool.eq_iff_iff]
    simp only [equals_node, fun i e => ih i (operands' i) e (hi i)
      (apply_unpackAlias (equals columns constants · e) (fun _ _ => rfl) (fun _ _ => rfl) _)]

/-- The test is an equivalence if that of the columns is one. -/
def keyTest (columns : KeyTest Nat) : KeyTest ScalarExpression where
  same := eqIgnoreColrefPos columns
  refl := equals_self DataValue.eq_self
  congr := equals_congr DataValue.eq_congr

end ScalarExpression

/-- Strips a text from the front as long as it stands there. -/
def stripAll (what : List Char) : Nat → List Char → List Char
  | 0, chars => chars
  | fuel + 1, chars =>
    match what.isPrefixOf? chars with
    | some rest => stripAll what fuel rest
    | none => chars

def trimString (value trimWhat : List Char) (trimWhere : Option TrimWhereField) : List Char :=
  if trimWhat.isEmpty then value
  else
    let trimmed :=
      if trimWhere = some .trailing then value else stripAll trimWhat value.length value
    if trimWhere = some .leading then trimmed
    else (stripAll trimWhat.reverse trimmed.length trimmed.reverse).reverse

namespace Form

variable [Conversions] [Arithmetic] [Registry] (overflowChecks : Bool)

def evalText (operand : Result DataValue) : Result (Option String) := do
  return (← (← operand).cast (.varchar none .characters)).utf8?

def evalIn (negated : Bool) (value : DataValue) (sawNull : Bool) :
    List (Result DataValue) → Result DataValue
  | [] => .ok (if sawNull then .null else .boolean negated)
  | arg :: args => do
    let argValue ← arg
    if argValue.isNull then evalIn negated value true args
    else if DataValue.eq argValue value then return .boolean !negated
    else evalIn negated value sawNull args

def evalCoalesce : List (Result DataValue) → Result DataValue
  | [] => .ok .null
  | expr :: exprs => do
    let temp ← expr
    if temp.isNull then evalCoalesce exprs else return temp

/-- The pairs in turn; an operand that is left over is the ELSE. -/
def evalPairs (operandValue : Option DataValue) : List (Result DataValue) → Result DataValue
  | whenExpr :: resultExpr :: rest => do
    let whenValue ← whenExpr
    let isTrue ← match operandValue with
      | some value => do
        let whenValue ← whenValue.cast value.logicalType
        let evaluator ← binaryCreate value.logicalType .eq
        (← evaluator.binaryEval value whenValue).isTrue
      | none => whenValue.isTrue
    if isTrue then resultExpr else evalPairs operandValue rest
  | [elseExpr] => elseExpr
  | [] => .ok .null

/-- Evaluation from what the operands evaluate to, each looked at where the source evaluates it. -/
def eval : Form → List (Result DataValue) → Result DataValue
  | .typeCast _ (some evaluator), [expr] => do Registry.castEval evaluator (← expr)
  | .typeCast _ none, [expr] => expr
  | .isNull negated, [expr] => return .boolean ((← expr).isNull != negated)
  | .unary _ evaluator _, [expr] => do
    let value ← expr
    match evaluator with
    | some evaluator => evaluator.unaryEval overflowChecks value
    | none => .error (.error .evaluatorNotFound)
  | .binary _ evaluator _, [leftExpr, rightExpr] => do
    let left ← leftExpr
    let right ← rightExpr
    match evaluator with
    | some evaluator => evaluator.binaryEval left right
    | none => .error (.error .evaluatorNotFound)
  | .aggCall _ _ _ _, _ => .error (.panic ("internal error: entered unreachable code: " ++
      "must use `NormalizationRuleImpl::ExpressionRemapper`"))
  | .inList negated _, expr :: args => do
    let value ← expr
    if value.isNull then return .null else evalIn negated value false args
  | .between negated, [expr, leftExpr, rightExpr] => do
    return DataValue.between negated (← expr) (← leftExpr) (← rightExpr)
  | .subString hasFor hasFrom, expr :: rest =>
    SubString.eval expr (if hasFor then rest.head? else none)
      (if hasFrom then rest.getLast? else none)
  | .position, [expr, inExpr] => Position.eval expr inExpr
  | .trim _ trimWhere, expr :: what => do
    match ← evalText expr with
    | none => return .null
    | some string =>
      let trimWhat ← what.head?.elim (.ok (some " ")) evalText
      return .utf8 (.ofList (trimString string.toList (trimWhat.getD "").toList trimWhere))
        (.variable none) .characters
  | .tuple _, exprs => return .tuple (← exprs.mapM id)
  | .scalaFunction summary _, args => do
    (← Registry.functionEval summary args).cast (Registry.returnType summary)
  | .ifElse ty, [condition, leftExpr, rightExpr] => do
    if ← (← condition).isTrue then (← leftExpr).cast ty else (← rightExpr).cast ty
  | .ifNull ty, [leftExpr, rightExpr] => do
    let value ← leftExpr
    if value.isNull then (← rightExpr).cast ty else value.cast ty
  | .nullIf ty, [leftExpr, rightExpr] => do
    let value ← leftExpr
    if DataValue.eq (← rightExpr) value then DataValue.cast .null ty else value.cast ty
  | .coalesce _ ty, exprs => do (← evalCoalesce exprs).cast ty
  | .caseWhen true _ _ ty, operandExpr :: exprs => do
    (← evalPairs (some (← operandExpr)) exprs).cast ty
  | .caseWhen false _ _ ty, exprs => do (← evalPairs none exprs).cast ty
  | .windowCall _ _ _ _ _, _ =>
    .error (.error (.unsupportedStmt "window calls must be evaluated by the window executor"))
  | _, _ => .error (.panic "internal error: entered unreachable code")

end Form

namespace ScalarExpression

section Eval

variable [Conversions] [Arithmetic] [Registry] {overflowChecks : Bool} {columns : KeyTest Nat}
  {constants : DataValue → DataValue → Bool} {lhs rhs : ScalarExpression}

/-- Evaluation on a row, given by its `value_at`. -/
def eval (overflowChecks : Bool) (valueAt : Nat → Result DataValue) :
    ScalarExpression → Result DataValue
  | .constant (.parameter id _) => .error (.error (.parametersNotFound s!"${id}"))
  | .constant value => .ok value
  | .columnRef _ position => valueAt position
  | .aliasName expr _ => eval overflowChecks valueAt expr
  | .aliasExpr _ inner => eval overflowChecks valueAt inner
  | .node form operands =>
    form.eval overflowChecks (List.ofFn fun i => eval overflowChecks valueAt (operands i))

/-- Rows that agree on the columns of two expressions with the same constants give them the same
value or error. -/
theorem eval_congr (hconstants : ∀ v w, constants v w = true → v = w)
    {left right : Nat → Result DataValue} (h : equals columns constants lhs rhs = true)
    (hrows : ∀ c p d q, Mentions c p lhs → Mentions d q rhs → columns.same c d = true →
      left p = right q) : eval overflowChecks left lhs = eval overflowChecks right rhs := by
  rw [← apply_unpackAlias (eval _ right) (fun _ _ => rfl) (fun _ _ => rfl) rhs]
  induction lhs generalizing rhs with
  | aliasName expr name ih => exact ih h hrows
  | aliasExpr expr inner _ ih => exact ih h hrows
  | constant v =>
    obtain ⟨w, hw, hvw⟩ := equals_constant.mp h
    rw [hw, hconstants v w hvw]
    cases w <;> rfl
  | columnRef c p =>
    obtain ⟨d, q, hd, hcd⟩ := equals_columnRef.mp h
    rw [hd]
    refine hrows c p d q ⟨rfl, rfl⟩ ?_ hcd
    rw [← mentions_unpackAlias, hd]
    exact ⟨rfl, rfl⟩
  | node form operands ih =>
    obtain ⟨operands', hnode, hi⟩ := equals_node.mp h
    rw [hnode, eval, eval]
    congr 2
    funext i
    rw [← apply_unpackAlias (eval _ right) (fun _ _ => rfl) (fun _ _ => rfl) (operands' i)]
    refine ih i (hi i) fun c p d q hc hd => hrows c p d q ⟨i, hc⟩ ?_
    rw [← mentions_unpackAlias, hnode]
    exact ⟨i, hd⟩

/-- The test is an equivalence, and evaluation respects it where the constants are identical. -/
theorem eqIgnoreColrefPos_congruence :
    Equivalence (fun lhs rhs => eqIgnoreColrefPos columns lhs rhs = true) ∧
      ∀ constants : DataValue → DataValue → Bool, (∀ v w, constants v w = true → v = w) →
        ∀ (lhs rhs : ScalarExpression) (left right : Nat → Result DataValue),
          equals columns constants lhs rhs = true →
            (∀ c p d q, Mentions c p lhs → Mentions d q rhs → columns.same c d = true →
              left p = right q) →
            eval overflowChecks left lhs = eval overflowChecks right rhs := by
  refine ⟨(keyTest columns).equivalence, ?_⟩
  intro constants hconstants lhs rhs left right h hrows
  exact eval_congr hconstants h hrows

end Eval

/-- No casts, and functions that give NULL. -/
instance plain : Registry :=
  ⟨Empty, inferInstance, Empty.elim, fun _ => .sqlNull, fun _ _ => .ok .null⟩

/-- All references are to one column. -/
def oneColumn : KeyTest Nat := ⟨fun _ _ => true, fun _ => rfl, fun _ _ _ _ => rfl⟩

/-- The test on two integers. -/
def sameInteger : DataValue → DataValue → Bool
  | .int32 v, .int32 w => v = w
  | _, _ => false

/-- `expr IN (1, 5) IS NOT NULL`. -/
def knownIn [Registry] (expr : ScalarExpression) : ScalarExpression :=
  .node (.isNull true) ![.node (.inList false 2) ![expr, .constant (.int32 1), .constant (.int32 5)]]

theorem mentions_of_knownIn [Registry] {expr : ScalarExpression} {c p : Nat} :
    Mentions c p (knownIn expr) → Mentions c p expr := by
  rintro ⟨⟨_ | i, hi⟩, h⟩
  · obtain ⟨⟨_ | _ | _ | j, hj⟩, h⟩ := h
    · exact h
    · exact h.elim
    · exact h.elim
    · exact absurd hj (by simp [Form.arity])
  · exact absurd hi (by simp [Form.arity])

/-- A test on a column with an alias at one position and without at another. -/
theorem eval_column :
    @eval .refusing .refusing plain true (fun p => .ok (.int32 (.ofNat p)))
        (knownIn (.aliasName (.columnRef 0 0) "a")) =
      @eval .refusing .refusing plain true (fun p => .ok (.int32 (.ofNat (p - 1))))
        (knownIn (.columnRef 0 1)) := by
  refine (@eqIgnoreColrefPos_congruence .refusing .refusing plain true oneColumn).2
    sameInteger (fun v w h => ?_) _ _ _ _ rfl fun c p d q hp hq _ => ?_
  · unfold sameInteger at h
    split at h
    · rw [of_decide_eq_true h]
    · cases h
  · obtain ⟨-, rfl⟩ := mentions_of_knownIn hp
    obtain ⟨-, rfl⟩ := mentions_of_knownIn hq
    rfl

/-- Whether the time that a word packs is before 90 ms. -/
def timeBefore (precision : UInt64) : ScalarExpression :=
  .node (.binary .lt (some ⟨binaryTimeBase + timeLtOffset, .unit⟩) .boolean)
    ![.constant (.time32 268435456 precision), .constant (.time32 301989888 2)]

/-- The word is 100 ms with one digit of precision and 80 ms with two. -/
theorem timeBefore_differs :
    eqIgnoreColrefPos oneColumn (timeBefore 1) (timeBefore 2) = true ∧
      @eval .refusing .refusing _ true (fun _ => .ok .null) (timeBefore 1) = .ok (.boolean false) ∧
      @eval .refusing .refusing _ true (fun _ => .ok .null) (timeBefore 2) = .ok (.boolean true) :=
  ⟨by decide, rfl, rfl⟩

end ScalarExpression

end KiteSQL.EqCol
