import KiteSQL.Expression.Columns
import KiteSQL.Expression.RangeSet
import KiteSQL.Types.Evaluator.Stored

/-! A range taken from a conjunction and what is left of it against the conjunction. -/
namespace KiteSQL

open DataValue DetachedPredicate IndexRangeColumn Result Range Expression Bound LogicalType

namespace Expression

/-- A condition is of the type BOOLEAN or the literal NULL. -/
def IsCondition (e : Expression) : Prop := e.returnType = .boolean ∨ e = .constant .null

/-- Conditions made with AND from comparisons of a column with a constant, tests of a column for
NULL, and others. -/
inductive Conjunction (column : ColumnCatalog → Nat → Prop)
    (compared : BinaryOperator → ColumnCatalog → DataValue → Prop) (other : Expression → Prop) :
    Expression → Prop
  | compare {op c k v} : column c k → compared op c v →
      Conjunction column compared other (.binary op (.columnRef c k) (.constant v) .boolean)
  | compareFlipped {op c k v} : column c k → compared op c v →
      Conjunction column compared other (.binary op (.constant v) (.columnRef c k) .boolean)
  | isNull (negated) {c k} : column c k →
      Conjunction column compared other (.isNull negated (.columnRef c k))
  | other {e} : e.IsCondition → other e → Conjunction column compared other e
  | and {l r} : Conjunction column compared other l → Conjunction column compared other r →
      Conjunction column compared other (.binary .and l r .boolean)

variable {column : ColumnCatalog → Nat → Prop}
  {compared : BinaryOperator → ColumnCatalog → DataValue → Prop} {other : Expression → Prop}
  {e left right : Expression}

theorem Conjunction.isCondition (h : Conjunction column compared other e) : e.IsCondition := by
  cases h with
  | other h => exact h
  | _ => exact .inl rfl

section
variable [Conversions] [Arithmetic]

/-- The condition is true on the row. -/
def Holds (overflowChecks : Bool) (row : List DataValue) (e : Expression) : Prop :=
  e.eval overflowChecks (some row) = .ok (.boolean true)

/-- What is left of a condition, if anything, is true on the row. -/
def LeftHolds (overflowChecks : Bool) (row : List DataValue) (residual : Option Expression) : Prop :=
  ∀ e, residual = some e → e.Holds overflowChecks row

variable {overflowChecks : Bool} {row : List DataValue}

/-- A true conjunction binds to the conjunction of its sides, cast to BOOLEAN where they are NULL. -/
theorem holds_and_bound (hl : left.IsCondition) (hr : right.IsCondition)
    (h : (binary .and left right .boolean).Holds overflowChecks row) :
    left.Holds overflowChecks row ∧ right.Holds overflowChecks row := by
  rcases hl with hl | rfl
  · rcases hr with hr | rfl
    · exact eval_and_true hl hr h
    · rw [Holds, eval, bind, hl] at h
      obtain ⟨bound, hbound, h⟩ := bind_eq_ok.mp h
      obtain ⟨bl, -, hbound⟩ := bind_eq_ok.mp hbound
      cases hbound
      obtain ⟨v, w, -, hw, h⟩ := bind_bind_eq_ok.mp h
      cases hw
      obtain ⟨-, hnull⟩ := booleanAndBinaryEval_true h
      cases hnull
  · rcases hr with hr | rfl
    · rw [Holds, eval, bind, hr] at h
      obtain ⟨bound, hbound, h⟩ := bind_eq_ok.mp h
      obtain ⟨bl, br, hbl, -, hbound⟩ := bind_bind_eq_ok.mp hbound
      cases hbl
      cases hbound
      obtain ⟨v, w, hv, -, h⟩ := bind_bind_eq_ok.mp h
      cases hv
      obtain ⟨hnull, -⟩ := booleanAndBinaryEval_true h
      cases hnull
    · cases h

/-- A conjunction is true exactly if both of its conditions are. -/
theorem holds_and (hl : left.IsCondition) (hr : right.IsCondition) :
    (binary .and left right .boolean).Holds overflowChecks row ↔
      left.Holds overflowChecks row ∧ right.Holds overflowChecks row := by
  refine ⟨holds_and_bound hl hr, ?_⟩
  rintro ⟨hleft, hright⟩
  have hl : left.returnType = .boolean := by
    rcases hl with hl | rfl
    · exact hl
    · cases hleft
  have hr : right.returnType = .boolean := by
    rcases hr with hr | rfl
    · exact hr
    · cases hright
  obtain ⟨bl, hbl, hv⟩ := bind_eq_ok.mp hleft
  obtain ⟨br, hbr, hw⟩ := bind_eq_ok.mp hright
  rw [Holds, eval, bind, hbl, hbr, hl, hr]
  change (do
    let v ← bl.eval overflowChecks (some row)
    let w ← br.eval overflowChecks (some row)
    booleanAndBinaryEval v w) = .ok (.boolean true)
  rw [hv, hw]
  rfl

theorem leftHolds_none : LeftHolds overflowChecks row none := by
  rintro _ ⟨⟩

theorem leftHolds_some : LeftHolds overflowChecks row (some e) ↔ e.Holds overflowChecks row := by
  simp [LeftHolds]

/-- What is left of two conditions is true exactly if both rests are. -/
theorem leftHolds_combineResiduals {l r : Option Expression} (hl : ∀ e, l = some e → e.IsCondition)
    (hr : ∀ e, r = some e → e.IsCondition) :
    LeftHolds overflowChecks row (combineResiduals l r) ↔
      LeftHolds overflowChecks row l ∧ LeftHolds overflowChecks row r := by
  cases l with
  | none => cases r <;> simp [combineResiduals, leftHolds_none]
  | some l =>
    cases r with
    | none => simp [combineResiduals, leftHolds_none]
    | some r =>
      rw [combineResiduals, leftHolds_some, leftHolds_some, leftHolds_some]
      exact holds_and (hl l rfl) (hr r rfl)

/-- The comparison of a column with a constant, which is first if it is flipped. -/
def comparison (flipped : Bool) (op : BinaryOperator) (c : ColumnCatalog) (k : Nat)
    (v : DataValue) : Expression :=
  bif flipped then .binary op (.constant v) (.columnRef c k) .boolean
  else .binary op (.columnRef c k) (.constant v) .boolean

section Compare

variable {op : BinaryOperator} {isOrder : Ordering → Bool} {c : ColumnCatalog} {k : Nat}
  {v x : DataValue} {s : TupleValueSerializableImpl} (hs : c.datatype.serializable = .ok s)
  (hv : v.logicalType = c.datatype ∨ v = .null) (hparam : v.hasParameter = false)
  (hread : Tuple.valueAt row k = .ok x)

omit [Conversions] [Arithmetic] in
include hv in
theorem maxLogicalType_constant (hs : c.datatype.serializable = .ok s) :
    maxLogicalType c.datatype v.logicalType = .ok c.datatype ∧
      maxLogicalType v.logicalType c.datatype = .ok c.datatype := by
  rcases hv with hv | rfl
  · simp [maxLogicalType, hv]
  · cases hc : c.datatype with
    | sqlNull =>
      rw [hc] at hs
      cases hs
    | _ => exact ⟨rfl, rfl⟩

include hv hparam in
theorem eval_constant :
    ((BoundExpression.constant v).castTo v.logicalType c.datatype).eval overflowChecks (some row) =
      .ok v := by
  have hconst : (BoundExpression.constant v).eval overflowChecks (some row) = .ok v := by
    cases v with
    | parameter => cases hparam
    | _ => rfl
  rw [BoundExpression.castTo]
  split
  · exact hconst
  · rcases hv with hv | rfl
    · contradiction
    · rfl

include hs hv hparam hread

/-- A comparison of a column with a constant of its type is evaluated on the two values. -/
theorem eval_comparison (flipped : Bool) :
    (comparison flipped op c k v).eval overflowChecks (some row) =
      (do
        let ref ← binaryCreate c.datatype op
        if flipped then ref.binaryEval v x else ref.binaryEval x v) := by
  have hcol : ((BoundExpression.columnRef k).castTo c.datatype c.datatype).eval overflowChecks
      (some row) = .ok x := by
    rw [BoundExpression.castTo, if_pos rfl]
    exact hread
  obtain ⟨hleft, hright⟩ := maxLogicalType_constant hv hs
  cases flipped
  all_goals
    simp only [comparison, cond_true, cond_false, eval, bind, ok_bind, returnType, hleft, hright]
    cases binaryCreate c.datatype op with
    | error fault => rfl
    | ok ref =>
      simp only [ok_bind, pure_eq, BoundExpression.eval, hcol,
        eval_constant hv hparam, if_true, Bool.false_eq_true, if_false]

end Compare

end

/-- The operators on two values of a column that are read as stored test their order. -/
theorem binaryCreate_holds [Arithmetic] {op : BinaryOperator} {isOrder : Ordering → Bool} {v w : DataValue}
    {t : LogicalType} {s : TupleValueSerializableImpl} (hs : t.serializable = .ok s)
    (hop : orderTest op = some isOrder) (hrange : op.isRangeTest = true) (hv : Fits v t)
    (hw : Fits w t) (h : ReadAsStored op v w) :
    (do (← binaryCreate t op).binaryEval v w) = (.ok (.boolean true) : Result DataValue) ↔
      (sqlCmp v w).map isOrder = some true := by
  cases hcreate : binaryCreate t op with
  | ok ref =>
    rw [ok_bind, evaluatorOf_readAsStored hs hop hrange hv hw h
      (evaluatorOf_of_binaryCreate hcreate)]
    cases (sqlCmp v w).map isOrder with
    | none => simp [ofTruth]
    | some b => simp [ofTruth]
  | error fault =>
    -- Only truth values have no operator for the order.
    refine iff_of_false (fun h => by cases h) fun hcmp => ?_
    cases t with
    | sqlNull | tuple => cases hs
    | boolean =>
      cases hv with
      | null => cases hcmp
      | boolean =>
        cases hw with
        | null => cases hcmp
        | boolean =>
          cases show op = .eq from h
          cases hcreate
    | _ => cases op <;> cases hrange <;> cases hcreate

end Expression

section Contains

variable {t : LogicalType} {s : TupleValueSerializableImpl} {op : BinaryOperator}
  {isOrder : Ordering → Bool} {c : ColumnCatalog} {v x : DataValue}

theorem sqlCmp_swap (hs : t.serializable = .ok s) (hv : Fits v t) (hx : Fits x t) :
    sqlCmp v x = (sqlCmp x v).map Ordering.swap := by
  obtain ⟨α, order, rank, hrank⟩ := exists_ranks hs
  have hswap : compare (rank v) (rank x) = (compare (rank x) (rank v)).swap :=
    Std.OrientedCmp.eq_swap
  rw [sqlCmp, sqlCmp, Bool.or_comm]
  split
  · rfl
  · next hn =>
    rw [Bool.or_eq_true, not_or, Bool.not_eq_true, Bool.not_eq_true] at hn
    have hvx := hrank v x hv hx
    have hxv := hrank x v hx hv
    rw [tupleElementPartialCmp, nullsLast_of_ne hn.2 hn.1] at hvx
    rw [tupleElementPartialCmp, nullsLast_of_ne hn.1 hn.2] at hxv
    rw [hvx, hxv, Option.map_some, hswap]

theorem orderTest_flip (hop : orderTest op = some isOrder) :
    orderTest (flip op) = some fun o => isOrder o.swap := by
  cases op <;> cases hop <;> exact congrArg some (funext fun o => by cases o <;> rfl)

theorem isRangeTest_flip (h : op.isRangeTest = true) : (flip op).isRangeTest = true := by
  cases op <;> cases h <;> rfl

theorem endsBehind_openEnd (hnull : c.nullable = false → x.isNull = false) :
    (openEnd c).endsBehind (tupleElementPartialCmp x) = !x.isNull := by
  cases hx : x.isNull with
  | true =>
    obtain rfl := isNull_iff.mp hx
    have hc : c.nullable = true := by
      by_contra h
      cases hnull (Bool.not_eq_true _ ▸ h)
    rw [openEnd, if_pos hc]
    rfl
  | false =>
    rw [openEnd]
    split
    · simp [endsBehind, tupleElementPartialCmp, nullsLast_null_right hx]
    · rfl

/-- The values that a test against a value other than NULL holds of. -/
def IndexRangeColumn.testRange (column : ColumnCatalog) (val : DataValue) :
    BinaryOperator → Option Range
  | .gt => some (.scope (.excluded val) (openEnd column))
  | .lt => some (.scope .unbounded (.excluded val))
  | .gtEq => some (.scope (.included val) (openEnd column))
  | .ltEq => some (.scope .unbounded (.included val))
  | .eq | .spaceship => some (.eq val)
  | _ => none

theorem contains_testRange {range : Range} (hv : v.isNull = false)
    (hnull : c.nullable = false → x.isNull = false) (hop : orderTest op = some isOrder)
    (h : testRange c v op = some range) :
    range.contains x = true ↔ (sqlCmp x v).map isOrder = some true := by
  have hend := endsBehind_openEnd hnull
  cases hx : x.isNull with
  | true =>
    obtain rfl := isNull_iff.mp hx
    have hcmp : tupleElementPartialCmp .null v = some .gt := nullsLast_null_left hv
    have hsql : sqlCmp .null v = none := rfl
    rw [hx] at hend
    cases op <;> cases hop <;> cases h <;> simp only [contains, has, hend] <;>
      simp [startsBefore, endsBehind, hcmp, hsql]
  | false =>
    have hcmp : tupleElementPartialCmp x v = sqlCmp x v := by
      rw [tupleElementPartialCmp, nullsLast_of_ne hx hv, sqlCmp, if_neg (by simp [hx, hv])]
    rw [hx] at hend
    cases op <;> cases hop <;> cases h <;> simp only [contains, has, hend] <;>
      simp only [startsBefore, endsBehind, hcmp] <;>
      cases sqlCmp x v with
      | none => simp
      | some o => cases o <;> simp

theorem fits_constant (hs : t.serializable = .ok s) (hparam : v.hasParameter = false)
    (hv : v.logicalType = t ∨ v = .null) : Fits v t := by
  rcases hv with rfl | rfl
  · rcases valued_logicalType hs with h | ⟨id, h⟩
    · exact h
    · rw [h] at hparam
      cases hparam
  · exact .null t

theorem exists_orderTest (h : op.isRangeTest = true) : ∃ isOrder, orderTest op = some isOrder := by
  cases op <;> cases h <;> exact ⟨_, rfl⟩

end Contains

namespace IndexRangeColumn

open Expression

variable [Conversions] {self : IndexRangeColumn} {s : TupleValueSerializableImpl}
  {op : BinaryOperator} {isOrder : Ordering → Bool} {c : ColumnCatalog} {v x : DataValue}
  {isFlip : Bool}

theorem newRange_null (hmatch : self.matchesColumn c = true) (hrange : op.isRangeTest = true) :
    self.newRange op c .null isFlip = .ok (some .dummy) := by
  cases op <;> cases hrange <;> simp [newRange, hmatch, DataValue.isNull]

theorem newRange_eq (hmatch : self.matchesColumn c = true) (hv : v.isNull = false)
    (htype : v.logicalType = c.datatype) :
    self.newRange op c v isFlip = .ok (testRange c v (if isFlip then flip op else op)) := by
  have hcast : v.cast c.datatype = .ok v := if_pos htype
  unfold newRange
  rw [hmatch, hv, hcast]
  cases isFlip <;> cases op <;> rfl

theorem newRange_and {range : Range} : self.newRange .and c v isFlip ≠ .ok (some range) := by
  intro h
  unfold newRange at h
  split at h
  · cases h
  · split at h
    · cases h
    · obtain ⟨w, -, h⟩ := bind_eq_ok.mp h
      cases isFlip <;> cases h

/-- A test of the column gives the values that it holds of. -/
theorem newRange_contains (isFlip : Bool) (hs : c.datatype.serializable = .ok s)
    (hmatch : self.matchesColumn c = true) (hop : orderTest op = some isOrder)
    (hrange : op.isRangeTest = true) (hv : v.logicalType = c.datatype ∨ v = .null)
    (hfits : Fits v c.datatype) (hx : Fits x c.datatype)
    (hnull : c.nullable = false → x.isNull = false) :
    ∃ range, self.newRange op c v isFlip = .ok (some range) ∧
      range.Single (Fits · c.datatype) ∧
      (range.contains x = true ↔
        (if isFlip then sqlCmp v x else sqlCmp x v).map isOrder = some true) := by
  by_cases nv : v.isNull = true
  · obtain rfl := isNull_iff.mp nv
    refine ⟨.dummy, newRange_null hmatch hrange, .dummy, ?_⟩
    cases isFlip <;> simp [contains, has, sqlCmp, DataValue.isNull]
  · have htype : v.logicalType = c.datatype := hv.resolve_right fun h => nv (h ▸ rfl)
    rw [Bool.not_eq_true] at nv
    have htest : ∀ {op : BinaryOperator}, op.isRangeTest = true →
        ∃ range, testRange c v op = some range ∧ range.Single (Fits · c.datatype) := by
      intro op hrange
      have hopen : (openEnd c).All (Fits · c.datatype) := openEnd_all (.null _)
      cases op <;> cases hrange
      · exact ⟨_, rfl, .scope hfits hopen⟩
      · exact ⟨_, rfl, .scope trivial hfits⟩
      · exact ⟨_, rfl, .scope hfits hopen⟩
      · exact ⟨_, rfl, .scope trivial hfits⟩
      · exact ⟨_, rfl, .eq hfits⟩
    cases isFlip with
    | false =>
      obtain ⟨range, hrange, hsingle⟩ := htest hrange
      refine ⟨range, ?_, hsingle, contains_testRange nv hnull hop hrange⟩
      rw [newRange_eq hmatch nv htype]
      exact congrArg Except.ok hrange
    | true =>
      obtain ⟨range, hrange, hsingle⟩ := htest (isRangeTest_flip hrange)
      refine ⟨range, ?_, hsingle, ?_⟩
      · rw [newRange_eq hmatch nv htype]
        exact congrArg Except.ok hrange
      · rw [contains_testRange nv hnull (orderTest_flip hop) hrange, if_pos rfl,
          sqlCmp_swap hs hfits hx, Option.map_map]
        rfl

variable [Arithmetic] {t : LogicalType} {row : List DataValue} {overflowChecks : Bool}
  {e left right : Expression} {d : DetachedPredicate}

/-- If the column is the one of the index, it is of the type and reads the value in the row. -/
def ReadsColumn (self : IndexRangeColumn) (t : LogicalType) (row : List DataValue) (x : DataValue)
    (c : ColumnCatalog) (k : Nat) : Prop :=
  self.matchesColumn c = true →
    c.datatype = t ∧ Tuple.valueAt row k = .ok x ∧ (c.nullable = false → x.isNull = false)

/-- The constant is of the type of the column, or NULL, and if the column is the one of the index
the operator compares its value with the constant as both are stored. -/
def ComparedAsStored (self : IndexRangeColumn) (x : DataValue) (op : BinaryOperator)
    (c : ColumnCatalog) (v : DataValue) : Prop :=
  op.isRangeTest = true ∧ v.hasParameter = false ∧ (v.logicalType = c.datatype ∨ v = .null) ∧
    (self.matchesColumn c = true → ReadAsStored op x v)

/-- The range is one range, and with what is left it stands for the condition on the row. -/
structure Exact (t : LogicalType) (overflowChecks : Bool) (row : List DataValue) (x : DataValue)
    (e : Expression) (d : DetachedPredicate) : Prop where
  single : d.range.Single (Fits · t)
  iff : e.Holds overflowChecks row ↔
    d.range.contains x = true ∧ LeftHolds overflowChecks row d.residual

theorem exact_of_newRange (isFlip : Bool) (hs : t.serializable = .ok s) (hx : Fits x t) {k : Nat}
    (hcolumn : ReadsColumn self t row x c k) (hcompared : ComparedAsStored self x op c v)
    (hholds : ∀ isOrder, Tuple.valueAt row k = .ok x → orderTest op = some isOrder →
      c.datatype = t → Fits v t → ReadAsStored op x v → (e.Holds overflowChecks row ↔
      (if isFlip then sqlCmp v x else sqlCmp x v).map isOrder = some true))
    (hd : (do return (← self.newRange op c v isFlip).map consumed) =
      (.ok (some d) : Result (Option DetachedPredicate))) :
    Exact t overflowChecks row x e d ∧ d.residual = none := by
  obtain ⟨hrange, hparam, htype, hstored⟩ := hcompared
  obtain ⟨range, hnew, hd⟩ := bind_eq_ok.mp hd
  cases hmatch : self.matchesColumn c with
  | false =>
    rw [newRange_of_not_matches hmatch] at hnew
    cases hnew
    cases hd
  | true =>
    obtain ⟨rfl, hread, hnull⟩ := hcolumn hmatch
    have hfits := fits_constant hs hparam htype
    obtain ⟨isOrder, hop⟩ := exists_orderTest hrange
    obtain ⟨range', hok, hsingle, hcontains⟩ :=
      newRange_contains isFlip hs hmatch hop hrange htype hfits hx hnull
    rw [hok] at hnew
    cases hnew
    cases hd
    refine ⟨⟨hsingle, ?_⟩, rfl⟩
    rw [hholds isOrder hread hop rfl hfits (hstored hmatch), ← hcontains]
    exact (and_iff_left leftHolds_none).symm

/-- A conjunction has the range that both sides have. -/
theorem detachAnd_exact (hs : t.serializable = .ok s) (hx : Fits x t) (hl : left.IsCondition)
    (hr : right.IsCondition) {l r : Option DetachedPredicate}
    (hleft : ∀ d, l = some d → Exact t overflowChecks row x left d ∧
      ∀ e, d.residual = some e → e.IsCondition)
    (hright : ∀ d, r = some d → Exact t overflowChecks row x right d ∧
      ∀ e, d.residual = some e → e.IsCondition)
    (hd : detachAnd (.binary .and left right .boolean) left right l r = .ok (some d)) :
    Exact t overflowChecks row x (.binary .and left right .boolean) d ∧
      d.residual = combineResiduals (l.elim (some left) (·.residual))
        (r.elim (some right) (·.residual)) := by
  have hand : (binary .and left right .boolean).Holds overflowChecks row ↔
      left.Holds overflowChecks row ∧ right.Holds overflowChecks row := holds_and hl hr
  have hone : ∀ {e : Expression}, e.IsCondition → ∀ e', some e = some e' → e'.IsCondition := by
    rintro e he _ ⟨⟩
    exact he
  cases l with
  | none =>
    cases r with
    | none => cases hd
    | some r =>
      cases hd
      obtain ⟨⟨hsingle, hiff⟩, hres⟩ := hright r rfl
      refine ⟨⟨hsingle, ?_⟩, rfl⟩
      rw [hand, hiff, leftHolds_combineResiduals (hone hl) hres, leftHolds_some]
      exact and_left_comm
  | some l =>
    obtain ⟨⟨hsingle, hiff⟩, hres⟩ := hleft l rfl
    cases r with
    | none =>
      cases hd
      refine ⟨⟨hsingle, ?_⟩, rfl⟩
      rw [hand, hiff, leftHolds_combineResiduals hres (hone hr), leftHolds_some]
      exact and_assoc
    | some r =>
      obtain ⟨⟨hsingle', hiff'⟩, hres'⟩ := hright r rfl
      obtain ⟨α, order, rank, hrank⟩ := exists_ranks hs
      obtain ⟨range, hmerge, hrange, hplaces⟩ :=
        mergeFlat_and_places hs hrank hsingle hsingle'
      simp only [detachAnd, mergeBinary, hmerge, ok_bind] at hd
      cases hd
      refine ⟨⟨hrange, ?_⟩, rfl⟩
      have hcontains : range.contains x = true ↔
          l.range.contains x = true ∧ r.range.contains x = true := by
        rw [contains_iff hrank hrange hx, contains_iff hrank hsingle hx,
          contains_iff hrank hsingle' hx, hplaces]
        rfl
      rw [hand, hiff, hiff', leftHolds_combineResiduals hres hres', hcontains]
      exact and_and_and_comm

variable [Evaluators]

theorem detach_comparison (flipped : Bool) (hs : t.serializable = .ok s) (hx : Fits x t) {k : Nat}
    (hcolumn : ReadsColumn self t row x c k) (hcompared : ComparedAsStored self x op c v)
    (hd : self.detach (comparison flipped op c k v) = .ok (some d)) :
    Exact t overflowChecks row x (comparison flipped op c k v) d ∧ d.residual = none := by
  refine exact_of_newRange flipped hs hx hcolumn hcompared ?_ (by cases flipped <;> exact hd)
  intro isOrder hread hop ht hfits hstored
  subst ht
  rw [Expression.Holds, eval_comparison hs hcompared.2.2.1 hcompared.2.1 hread]
  cases flipped with
  | false => exact binaryCreate_holds hs hop hcompared.1 hx hfits hstored
  | true => exact binaryCreate_holds hs hop hcompared.1 hfits hx hstored.symm

/-- A test for NULL gives NULL, or all that is before it. -/
theorem detach_isNull {negated : Bool} {k : Nat} (hcolumn : ReadsColumn self t row x c k)
    (hd : self.detach (.isNull negated (.columnRef c k)) = .ok (some d)) :
    Exact t overflowChecks row x (.isNull negated (.columnRef c k)) d ∧ d.residual = none := by
  rw [detach] at hd
  split at hd
  · next hmatch =>
    obtain ⟨-, hread, -⟩ := hcolumn hmatch
    have hholds : (isNull negated (.columnRef c k)).Holds overflowChecks row ↔
        (x.isNull != negated) = true := by
      have heval : (isNull negated (.columnRef c k)).eval overflowChecks (some row) =
          (do return .boolean ((← Tuple.valueAt row k).isNull != negated)) := rfl
      rw [Expression.Holds, heval, hread, ok_bind, pure_eq, Except.ok.injEq, boolean.injEq]
    have hcmp : tupleElementPartialCmp x .null = some (if x.isNull then .eq else .lt) := by
      cases hx : x.isNull with
      | true =>
        rw [isNull_iff.mp hx]
        rfl
      | false => exact nullsLast_null_right hx
    cases negated with
    | true =>
      cases hd
      refine ⟨⟨.scope trivial (Fits.null t), hholds.trans ?_⟩, rfl⟩
      refine Iff.trans ?_ (and_iff_left leftHolds_none).symm
      simp [consumed, contains, has, startsBefore, endsBehind, hcmp]
    | false =>
      cases hd
      refine ⟨⟨.eq (Fits.null t), hholds.trans ?_⟩, rfl⟩
      refine Iff.trans ?_ (and_iff_left leftHolds_none).symm
      simp [consumed, contains, has, hcmp]
  · cases hd

section Conjunction

variable {column : ColumnCatalog → Nat → Prop}
  {compared : BinaryOperator → ColumnCatalog → DataValue → Prop} {other : Expression → Prop}

omit [Conversions] [Arithmetic] [Evaluators] in
theorem conjunction_combineResiduals {l r : Option Expression}
    (hl : ∀ e, l = some e → Conjunction column compared other e)
    (hr : ∀ e, r = some e → Conjunction column compared other e) :
    ∀ e, combineResiduals l r = some e → Conjunction column compared other e := by
  cases l with
  | none =>
    cases r with
    | none => exact fun e h => by cases h
    | some r => exact hr
  | some l =>
    cases r with
    | none => exact hl
    | some r =>
      rintro _ ⟨⟩
      exact .and (hl l rfl) (hr r rfl)

/-- The range of a column and what is left of a conjunction stand for the conjunction, and what is
left is a conjunction of its conditions. -/
theorem detach_conjunction (hs : t.serializable = .ok s) (hx : Fits x t)
    (hcolumn : ∀ c k, column c k → ReadsColumn self t row x c k)
    (hcompared : ∀ op c v, compared op c v → ComparedAsStored self x op c v)
    (hother : ∀ e, other e → self.detach e = .ok none) (he : Conjunction column compared other e)
    (hd : self.detach e = .ok (some d)) :
    Exact t overflowChecks row x e d ∧
      ∀ r, d.residual = some r → Conjunction column compared other r := by
  have hnone : ∀ {d : DetachedPredicate}, d.residual = none →
      ∀ r, d.residual = some r → Conjunction column compared other r := by
    intro d hd r hr
    rw [hd] at hr
    cases hr
  induction he generalizing d with
  | compare hc hv =>
    obtain ⟨hexact, hres⟩ := detach_comparison false hs hx (hcolumn _ _ hc) (hcompared _ _ _ hv) hd
    exact ⟨hexact, hnone hres⟩
  | compareFlipped hc hv =>
    obtain ⟨hexact, hres⟩ := detach_comparison true hs hx (hcolumn _ _ hc) (hcompared _ _ _ hv) hd
    exact ⟨hexact, hnone hres⟩
  | isNull negated hc =>
    obtain ⟨hexact, hres⟩ := detach_isNull (hcolumn _ _ hc) hd
    exact ⟨hexact, hnone hres⟩
  | other _ he =>
    rw [hother _ he] at hd
    cases hd
  | @and l r hl hr ihl ihr =>
    obtain ⟨c, v, isFlip, -, hdetach⟩ | ⟨-, hdetach⟩ | ⟨hop, -⟩ | hdetach :=
      detach_binary self .and l r .boolean
    · rw [hdetach] at hd
      obtain ⟨range, hrange, hd⟩ := bind_eq_ok.mp hd
      cases range with
      | none => cases hd
      | some range => exact absurd hrange newRange_and
    · rw [hdetach] at hd
      obtain ⟨ld, rd, hld, hrd, hd⟩ := bind_bind_eq_ok.mp hd
      have hleft : ∀ d, ld = some d → Exact t overflowChecks row x l d ∧
          ∀ e, d.residual = some e → Conjunction column compared other e := by
        rintro d rfl
        exact ihl hld
      have hright : ∀ d, rd = some d → Exact t overflowChecks row x r d ∧
          ∀ e, d.residual = some e → Conjunction column compared other e := by
        rintro d rfl
        exact ihr hrd
      obtain ⟨hexact, hres⟩ := detachAnd_exact hs hx hl.isCondition hr.isCondition
        (fun d h => ⟨(hleft d h).1, fun e he => ((hleft d h).2 e he).isCondition⟩)
        (fun d h => ⟨(hright d h).1, fun e he => ((hright d h).2 e he).isCondition⟩) hd
      refine ⟨hexact, fun e he => ?_⟩
      rw [hres] at he
      refine conjunction_combineResiduals ?_ ?_ e he
      · cases ld with
        | none =>
          rintro _ ⟨⟩
          exact hl
        | some d => exact (hleft d rfl).2
      · cases rd with
        | none =>
          rintro _ ⟨⟩
          exact hr
        | some d => exact (hright d rfl).2
    · cases hop
    · rw [hdetach] at hd
      cases hd

/-- A row meets a conjunction exactly if the value of the index column is in the range and the row
meets what is left, where the comparisons of the column read its value as it is stored. -/
theorem detach_exact (hs : t.serializable = .ok s) (hx : Fits x t)
    (he : Conjunction (ReadsColumn self t row x) (ComparedAsStored self x)
      (fun e => self.detach e = .ok none) e)
    (hd : self.detach e = .ok (some d)) :
    e.Holds overflowChecks row ↔
      d.range.contains x = true ∧ LeftHolds overflowChecks row d.residual :=
  (detach_conjunction hs hx (fun _ _ h => h) (fun _ _ _ h => h) (fun _ h => h) he hd).1.iff

end Conjunction

/-- A column of the table `t` that has the index on one column. -/
def soleColumn (type : LogicalType) : ColumnCatalog :=
  ⟨⟨"c", .table 1 "t" false⟩, true, ⟨type, none, false, none⟩⟩

/-- `c op value`. -/
def soleTest (op : BinaryOperator) (type : LogicalType) (value : DataValue) : Expression :=
  .binary op (.columnRef (soleColumn type) 0) (.constant value) .boolean

end IndexRangeColumn

/-- `c > 1 AND c <= 5`. -/
def soleBetween : Expression :=
  .binary .and (IndexRangeColumn.soleTest .gt .integer (.int32 1))
    (IndexRangeColumn.soleTest .ltEq .integer (.int32 5)) .boolean

/-- `c > 1 AND c <= 5` on a row with 3. -/
theorem detach_exact_between :
    let _ := Conversions.refusing
    let _ := Evaluators.none
    let _ := Arithmetic.refusing
    ∃ d, IndexRangeColumn.detach ⟨"t", [1], 0⟩ soleBetween = .ok (some d) ∧
      (soleBetween.Holds true [.int32 3] ↔
        d.range.contains (.int32 3) = true ∧ Expression.LeftHolds true [.int32 3] d.residual) := by
  intro _ _ _
  have hcolumn : IndexRangeColumn.ReadsColumn ⟨"t", [1], 0⟩ .integer [.int32 3] (.int32 3)
      (soleColumn .integer) 0 := fun _ => ⟨rfl, rfl, fun _ => rfl⟩
  have hd : detach ⟨"t", [1], 0⟩ soleBetween =
      .ok (some ⟨.scope (.excluded (.int32 1)) (.included (.int32 5)), none⟩) := rfl
  refine ⟨_, hd, detach_exact (s := .int32) rfl (.int32 3) ?_ hd⟩
  refine .and (.compare hcolumn ?_) (.compare hcolumn ?_)
  · exact ⟨rfl, rfl, .inl rfl, fun _ => trivial⟩
  · exact ⟨rfl, rfl, .inl rfl, fun _ => trivial⟩

/-- 00:00:02 is not before 00:00:01.154 but in the range of the times before it, and there is a
range of the truth values above FALSE but no operator. -/
theorem detach_inexact :
    let _ := Conversions.refusing
    let _ := Evaluators.none
    let _ := Arithmetic.refusing
    (∃ d, IndexRangeColumn.detach ⟨"t", [1], 0⟩
        (IndexRangeColumn.soleTest .lt (.time none) (.time32 645922817 3)) = .ok (some d) ∧
      d.residual = none ∧ d.range.contains (.time32 2 0) = true ∧
      (IndexRangeColumn.soleTest .lt (.time none) (.time32 645922817 3)).eval true
        (some [.time32 2 0]) = .ok (.boolean false)) ∧
    ∃ d, IndexRangeColumn.detach ⟨"t", [1], 0⟩
        (IndexRangeColumn.soleTest .gt .boolean (.boolean false)) = .ok (some d) ∧
      d.residual = none ∧ d.range.contains (.boolean true) = true ∧
      (IndexRangeColumn.soleTest .gt .boolean (.boolean false)).eval true
        (some [.boolean true]) = .error (.error (.unsupportedBinaryOperator .boolean .gt)) := by
  intro _ _ _
  exact ⟨⟨_, rfl, rfl, rfl, rfl⟩, _, rfl, rfl, rfl, rfl⟩

end KiteSQL
