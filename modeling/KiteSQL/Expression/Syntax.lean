import KiteSQL.Catalog.Table

/-! Scalar expressions as trees. -/
namespace KiteSQL

/-- `call` is an expression that no rewriting looks into, such as a function of its row. -/
inductive Expression where
  | constant (value : DataValue)
  | columnRef (column : ColumnCatalog) (position : Nat)
  | alias (expr : Expression)
  | typeCast (expr : Expression) (ty : LogicalType)
  | isNull (negated : Bool) (expr : Expression)
  | unary (op : UnaryOperator) (expr : Expression) (ty : LogicalType)
  | binary (op : BinaryOperator) (left right : Expression) (ty : LogicalType)
  | inList (negated : Bool) (expr : Expression) (args : List Expression)
  | between (negated : Bool) (expr left right : Expression)
  | call (returnType : LogicalType) (eval : List DataValue → Result DataValue)

/-- Induction over the operands that are single expressions. -/
@[elab_as_elim, induction_eliminator]
theorem Expression.induct {motive : Expression → Prop} (constant : ∀ value, motive (.constant value))
    (columnRef : ∀ column position, motive (.columnRef column position))
    («alias» : ∀ expr, motive expr → motive (.alias expr))
    (typeCast : ∀ expr ty, motive expr → motive (.typeCast expr ty))
    (isNull : ∀ negated expr, motive expr → motive (.isNull negated expr))
    (unary : ∀ op expr ty, motive expr → motive (.unary op expr ty))
    (binary : ∀ op left right ty, motive left → motive right → motive (.binary op left right ty))
    (inList : ∀ negated expr args, motive expr → motive (.inList negated expr args))
    (between : ∀ negated expr left right, motive expr → motive left → motive right →
      motive (.between negated expr left right))
    (call : ∀ returnType eval, motive (.call returnType eval)) (expr : Expression) :
    motive expr :=
  @Expression.rec motive (fun _ => True) constant columnRef «alias» typeCast
    isNull unary binary (fun negated expr args h _ => inList negated expr args h) between call
    trivial (fun _ _ _ _ => trivial) expr

end KiteSQL
