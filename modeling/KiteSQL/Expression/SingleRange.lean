import KiteSQL.Expression.RangeDetacher

/-! The single ranges that a conjunction of tests of one column gives. -/
namespace KiteSQL

namespace Expression

/-- The columns that stand where a range could be taken from. -/
def comparedColumns : Expression → List ColumnCatalog
  | .columnRef column _ => [column]
  | .alias expr | .typeCast expr _ | .isNull _ expr | .unary _ expr _ => expr.comparedColumns
  | .binary _ left right _ => left.comparedColumns ++ right.comparedColumns
  | _ => []

theorem mem_of_unpackBoundCol {e : Expression} {column : ColumnCatalog} {position : Nat}
    (h : e.unpackBoundCol false = some (column, position)) : column ∈ e.comparedColumns := by
  induction e with
  | columnRef c k =>
    cases h
    simp [comparedColumns]
  | «alias» e ih => exact ih h
  | unary op e ty ih => exact ih h
  | _ => simp [unpackBoundCol] at h

end Expression

namespace Range

theorem enumerateAll_root (path : List DataValue) (children : List TreeNode) :
    TreeNode.enumerateAll path [.node none children] =
      (TreeNode.node none children).enumeration path := by
  cases children <;> simp [TreeNode.enumerateAll, TreeNode.enumerateNode, TreeNode.enumeration]

/-- Ranges of one value each make a tree with one path. -/
theorem buildTree_values (vs : List DataValue) :
    ∃ children, buildTree (vs.map .eq) = some (.node none children) ∧
      (children = [] → vs = []) ∧
      ∀ path, (TreeNode.node none children).enumeration path = [path ++ vs] := by
  induction vs with
  | nil =>
    refine ⟨[], rfl, fun _ => rfl, fun path => ?_⟩
    simp [TreeNode.enumeration, TreeNode.enumerateAll]
  | cons v vs ih =>
    obtain ⟨children, hb, he, hpath⟩ := ih
    refine ⟨[.node (some v) [.node none children]], ?_, by simp, fun path => ?_⟩
    · simpa [buildTree, eqItems, hb, TreeNode.children] using he
    · have hroot := enumerateAll_root (path ++ [v]) children
      rw [hpath] at hroot
      simpa [TreeNode.enumeration, TreeNode.enumerateAll, TreeNode.enumerateNode] using hroot

/-- Behind columns that are fixed to one value each, a range is put behind these values. -/
theorem combiningEqs_values (range : Range) (vs : List DataValue) :
    range.combiningEqs (vs.map .eq) = some (ranges2range (range.collectTupleRange vs)) := by
  obtain ⟨children, hb, -, hpath⟩ := buildTree_values vs
  simp [combiningEqs, hb, hpath]

end Range

open Expression

def Bound.All {α : Type} (P : α → Prop) : Bound α → Prop
  | .included value | .excluded value => P value
  | .unbounded => True

/-- One range with values that `P` holds of. -/
inductive Range.Single (P : DataValue → Prop) : Range → Prop
  | scope {min max : Bound DataValue} : min.All P → max.All P → Single P (.scope min max)
  | eq {value : DataValue} : P value → Single P (.eq value)
  | dummy : Single P .dummy

namespace Range

variable {P : DataValue → Prop} {left right range : Range} {refused : Range × Range}
  {min max leftMin leftMax rightMin rightMax : Bound DataValue} {value : DataValue}

theorem andScopeMerge_single (hlm : leftMin.All P) (hlM : leftMax.All P) (hrm : rightMin.All P)
    (hrM : rightMax.All P) (h : andScopeMerge leftMin leftMax rightMin rightMax = .ok range) :
    range.Single P := by
  unfold andScopeMerge at h
  split at h
  · next minOrder maxOrder _ _ =>
    have hmin : (if minOrder = .gt then leftMin else rightMin).All P := by split <;> assumption
    have hmax : (if maxOrder = .lt then leftMax else rightMax).All P := by split <;> assumption
    dsimp only at h
    generalize (if minOrder = .gt then leftMin else rightMin) = min at h hmin
    generalize (if maxOrder = .lt then leftMax else rightMax) = max at h hmax
    split at h
    · cases h
      exact .dummy
    · cases min with
      | included value =>
        cases h
        exact .eq hmin
      | excluded value =>
        cases h
        exact .dummy
      | unbounded =>
        cases h
        exact .scope trivial trivial
    · cases h
      exact .scope hmin hmax
  · cases h

theorem scopeEqMerge_single (hv : P value) (h : scopeEqMerge .and min max value = .ok range) :
    range.Single P := by
  unfold scopeEqMerge at h
  dsimp only at h
  split_ifs at h
  · cases h
    exact .dummy
  · cases h
    exact .eq hv

theorem eqEqMerge_single {v w : DataValue} (hv : P v) (h : eqEqMerge .and v w = .ok range) :
    range.Single P := by
  unfold eqEqMerge at h
  split at h
  · cases h
    exact .eq hv
  · split at h <;> cases h
    exact .dummy

theorem andScopeMerge_refused (h : andScopeMerge leftMin leftMax rightMin rightMax = .error refused)
    : refused.1 = .scope leftMin leftMax := by
  unfold andScopeMerge at h
  split at h
  · dsimp only at h
    split at h
    · cases h
    · split at h <;> cases h
    · cases h
  · cases h
    rfl

theorem scopeEqMerge_refused (h : scopeEqMerge .and min max value = .error refused) :
    refused = (.scope min max, .eq value) := by
  unfold scopeEqMerge at h
  dsimp only at h
  split_ifs at h
  cases h
  rfl

theorem eqEqMerge_refused {v w : DataValue} (h : eqEqMerge .and v w = .error refused) :
    refused.1 = .eq v := by
  unfold eqEqMerge at h
  split at h
  · cases h
  · split at h <;> cases h
    rfl

/-- A conjunction of single ranges is a single range, or it is refused. -/
theorem mergeFlat_single (hl : left.Single P) (hr : right.Single P) :
    ∃ merged, mergeFlat .and left right = some merged ∧
      (∀ range, merged = .ok range → range.Single P) ∧
      ∀ refused, merged = .error refused → refused.1 = left := by
  cases hl with
  | dummy =>
    refine ⟨.ok .dummy, by cases hr <;> rfl, ?_, fun _ h => by cases h⟩
    rintro _ ⟨⟩
    exact .dummy
  | scope hlm hlM =>
    cases hr with
    | dummy =>
      refine ⟨_, rfl, ?_, fun _ h => by cases h⟩
      rintro _ ⟨⟩
      exact .dummy
    | scope hrm hrM =>
      exact ⟨_, rfl, fun range h => andScopeMerge_single hlm hlM hrm hrM h,
        fun refused h => andScopeMerge_refused h⟩
    | eq hv =>
      exact ⟨_, rfl, fun range h => scopeEqMerge_single hv h,
        fun refused h => by rw [scopeEqMerge_refused h]⟩
  | @eq v hv =>
    cases hr with
    | dummy =>
      refine ⟨_, rfl, ?_, fun _ h => by cases h⟩
      rintro _ ⟨⟩
      exact .dummy
    | eq hw =>
      exact ⟨_, rfl, fun range h => eqEqMerge_single hv h, fun refused h => eqEqMerge_refused h⟩
    | @scope min max hm hM =>
      refine ⟨(scopeEqMerge .and min max v).mapError Prod.swap, rfl, ?_, ?_⟩
      · intro range h
        cases hmerge : scopeEqMerge .and min max v with
        | error refused => simp [hmerge, Except.mapError] at h
        | ok merged =>
          simp only [hmerge, Except.mapError, Except.ok.injEq] at h
          exact h ▸ scopeEqMerge_single hv hmerge
      · intro refused h
        cases hmerge : scopeEqMerge .and min max v with
        | ok merged => simp [hmerge, Except.mapError] at h
        | error refused' =>
          simp only [hmerge, Except.mapError, Except.error.injEq] at h
          rw [← h, scopeEqMerge_refused hmerge]
          rfl

end Range

namespace IndexRangeColumn

variable [Conversions] {self : IndexRangeColumn} {e left right : Expression}
  {p : ColumnCatalog → Bool} {P : DataValue → Prop} {column : ColumnCatalog} {value : DataValue}
  {op : BinaryOperator} {isFlip : Bool} {range : Range}

theorem newRange_of_not_matches (h : self.matchesColumn column = false) :
    self.newRange op column value isFlip = .ok none := by
  simp [newRange, h]

omit [Conversions] in
theorem openEnd_all (hnull : P .null) : (openEnd column).All P := by
  unfold openEnd
  split
  · exact hnull
  · trivial

variable [Evaluators]

/-- What an operator gives: a test of one column, what its operands give, or nothing. -/
theorem detach_binary (self : IndexRangeColumn) (op : BinaryOperator) (left right : Expression)
    (ty : LogicalType) :
    (∃ column value isFlip, column ∈ (Expression.binary op left right ty).comparedColumns ∧
      self.detach (.binary op left right ty) =
        (do return (← self.newRange op column value isFlip).map .consumed)) ∨
    (op = .and ∧ self.detach (.binary op left right ty) = (do
      detachAnd (.binary op left right ty) left right (← self.detach left)
        (← self.detach right))) ∨
    (op = .or ∧ self.detach (.binary op left right ty) =
      (do detachOr (← self.detach left) (← self.detach right))) ∨
    self.detach (.binary op left right ty) = .ok none := by
  rw [detach.eq_def]
  dsimp only
  split
  · next column _ value hc _ =>
    exact Or.inl ⟨column, value, false, List.mem_append_left _ (mem_of_unpackBoundCol hc), rfl⟩
  · next value column _ _ hc _ =>
    exact Or.inl ⟨column, value, true, List.mem_append_right _ (mem_of_unpackBoundCol hc), rfl⟩
  · split
    · exact Or.inr (Or.inl ⟨rfl, rfl⟩)
    · exact Or.inr (Or.inr (Or.inl ⟨rfl, rfl⟩))
    · exact Or.inr (Or.inr (Or.inr rfl))

end IndexRangeColumn

/-- A value of a type, or a parameter that stands for one. -/
def Valued (value : DataValue) (ty : LogicalType) : Prop :=
  value.Fits ty ∨ ∃ id, value = .parameter id ty

section Cast

open DataValue

variable {s : TupleValueSerializableImpl} {v : DataValue}

theorem valued_logicalType (hs : v.logicalType.serializable = .ok s) : Valued v v.logicalType := by
  cases v with
  | parameter id ty => exact Or.inr ⟨id, rfl⟩
  | null => cases hs
  | tuple => cases hs
  | utf8 value ty unit => cases ty <;> exact Or.inl (by constructor)
  | _ => exact Or.inl (by constructor)

end Cast

end KiteSQL
