import KiteSQL.Expression.Eval
import KiteSQL.Planner.Sort
import KiteSQL.Types.Evaluator.Equal

/-! Expressions that are columns of a row, and the comparison of two values by `=`. -/
namespace KiteSQL

open DataValue Result

theorem booleanAndBinaryEval_true {v w : DataValue}
    (h : booleanAndBinaryEval v w = .ok (.boolean true)) :
    v = .boolean true ∧ w = .boolean true := by
  unfold booleanAndBinaryEval at h
  split at h
  · simpa using h
  all_goals cases h

namespace Expression

section
variable [Conversions] [Arithmetic] {overflowChecks : Bool} {row : List DataValue}

/-- A conjunction is true exactly if both sides are. -/
theorem eval_and_true {left right : Expression} {ty : LogicalType} (hl : left.returnType = .boolean)
    (hr : right.returnType = .boolean)
    (h : (binary .and left right ty).eval overflowChecks (some row) = .ok (.boolean true)) :
    left.eval overflowChecks (some row) = .ok (.boolean true) ∧
      right.eval overflowChecks (some row) = .ok (.boolean true) := by
  rw [eval, bind, hl, hr] at h
  obtain ⟨bound, hbound, h⟩ := bind_eq_ok.mp h
  obtain ⟨bl, br, hbl, hbr, hbound⟩ := bind_bind_eq_ok.mp hbound
  cases hbound
  rw [eval, eval, hbl, hbr]
  simp only [BoundExpression.eval] at h
  obtain ⟨v, w, hv, hw, h⟩ := bind_bind_eq_ok.mp h
  obtain ⟨rfl, rfl⟩ := booleanAndBinaryEval_true h
  exact ⟨hv, hw⟩

end

end Expression

end KiteSQL
