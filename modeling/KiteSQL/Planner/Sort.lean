import KiteSQL.Expression.Syntax
import KiteSQL.Types.KeyOrder

/-! Sort fields and the order of sorted rows. -/
namespace KiteSQL

structure SortField where
  expr : Expression
  asc : Bool
  nullsFirst : Bool

namespace SortField

/-- The order of two values under one sort field. -/
def compareValues (field : SortField) (left right : DataValue) : Ordering :=
  let nullOrdering := if field.nullsFirst then Ordering.gt else .lt
  match left.isNull, right.isNull with
  | false, true => nullOrdering
  | true, false => nullOrdering.swap
  | _, _ =>
    let ordering := (left.partialCmp right).getD .eq
    if field.asc then ordering else ordering.swap

end SortField

def compareSortKeys : List SortField → List DataValue → List DataValue → Ordering
  | field :: fields, left :: lefts, right :: rights =>
    (field.compareValues left right).then (compareSortKeys fields lefts rights)
  | _, _, _ => .eq

end KiteSQL
