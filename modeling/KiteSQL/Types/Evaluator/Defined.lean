import KiteSQL.Types.Evaluator.Binary

/-! Which operands keep the evaluators of binary operators inside the code they expect. -/
namespace KiteSQL

open DataValue

variable {α : Type} {get : DataValue → Option α} {body : α → α → Result DataValue}
  {ty : LogicalType} {left right : DataValue} {op : BinaryOperator} {evaluator : BinaryEvaluator}
  {types : List LogicalType}

/-- On operands of the type no evaluation reaches code declared unreachable. -/
def BinaryEvaluator.Defined (evaluator : BinaryEvaluator) (ty : LogicalType) : Prop :=
  ∀ left right, Fits left ty → Fits right ty → evaluator left right ≠ .error .undefinedBehavior

/-- The values of a type, NULL aside, are those that `get` reads. -/
structure Unwraps (get : DataValue → Option α) (ty : LogicalType) : Prop where
  null : get .null = none
  value : ∀ v, Fits v ty → v.isNull = true ∨ (get v).isSome = true

/-- The values of a type are NULL and those of `α`. -/
structure Carries (get : DataValue → Option α) (mk : α → DataValue) (ty : LogicalType) : Prop where
  fits : ∀ a, Fits (mk a) ty
  cases : ∀ v, Fits v ty → v = .null ∨ ∃ a, v = mk a
  get_mk : ∀ a, get (mk a) = some a
  get_null : get .null = none

theorem Carries.unwraps {mk : α → DataValue} (h : Carries get mk ty) : Unwraps get ty where
  null := h.get_null
  value := by
    intro v hv
    obtain rfl | ⟨a, rfl⟩ := h.cases v hv
    · exact .inl rfl
    · exact .inr (by rw [h.get_mk]; rfl)

theorem nullableBinary_defined (hget : Unwraps get ty)
    (hbody : ∀ v1 v2, body v1 v2 ≠ .error .undefinedBehavior) :
    BinaryEvaluator.Defined (nullableBinary get body) ty := by
  intro left right hl hr
  have hl := hget.value left hl
  have hr := hget.value right hr
  by_cases hnull : left.isNull = true ∨ right.isNull = true
  · rw [nullableBinary_null hl hr hget.null hnull]
    simp
  · obtain ⟨hl', hr'⟩ := not_or.mp hnull
    obtain ⟨v1, h1⟩ := Option.isSome_iff_exists.mp (hl.resolve_left hl')
    obtain ⟨v2, h2⟩ := Option.isSome_iff_exists.mp (hr.resolve_left hr')
    rw [nullableBinary_some h1 h2]
    exact hbody v1 v2

theorem orderBinary_defined (hget : Unwraps get ty) (cmp : α → α → Ordering)
    (isOrder : Ordering → Bool) : BinaryEvaluator.Defined (orderBinary get cmp isOrder) ty :=
  nullableBinary_defined hget fun _ _ => by simp

/-- All evaluators of a numeric type are defined on it. -/
def NumericEvaluators.Defined (evaluators : NumericEvaluators) (ty : LogicalType) : Prop :=
  ∀ op evaluator, evaluators.ofOperator op = some evaluator →
    BinaryEvaluator.Defined evaluator ty

theorem okOrOverFlow_defined (mk : α → DataValue) (v : Option α) :
    okOrOverFlow mk v ≠ .error .undefinedBehavior := by
  cases v <;> simp [okOrOverFlow]

theorem remainder_defined [MachineInt α] (mk : α → DataValue) (v1 v2 : α) :
    remainder mk v1 v2 ≠ .error .undefinedBehavior := by
  unfold remainder
  split <;> simp

theorem decimalOperator_defined (overflowed : String) (r : Except CalculationFailure Decimal) :
    decimalOperator overflowed r ≠ .error .undefinedBehavior := by
  unfold decimalOperator
  split <;> simp

section
variable [Arithmetic]

theorem numericBinaryEvaluatorDefinition_defined [MachineInt α] [Ord α] (mk : α → DataValue)
    (hget : Unwraps get ty) : (numericBinaryEvaluatorDefinition get mk).Defined ty := by
  intro op evaluator h
  cases op <;> cases h
  case plus => exact nullableBinary_defined hget fun _ _ => okOrOverFlow_defined mk _
  case minus => exact nullableBinary_defined hget fun _ _ => okOrOverFlow_defined mk _
  case multiply => exact nullableBinary_defined hget fun _ _ => okOrOverFlow_defined mk _
  case divide => exact nullableBinary_defined hget fun _ _ => by simp
  case modulo =>
    refine nullableBinary_defined hget fun v1 v2 => ?_
    split
    · simp
    · exact remainder_defined mk v1 v2
  all_goals exact orderBinary_defined hget _ _

theorem floatEvaluators_defined (bits : α → Nat) (format : FloatBits) (mk : α → DataValue)
    (add sub mul rem : α → α → α) (widen : α → UInt64) (hget : Unwraps get ty) :
    (floatEvaluators get bits format mk add sub mul rem widen).Defined ty := by
  intro op evaluator h
  cases op <;> cases h <;>
    first
      | exact orderBinary_defined hget _ _
      | exact nullableBinary_defined hget fun _ _ => by simp

theorem decimalEvaluators_defined (hget : Unwraps decimal? ty) : decimalEvaluators.Defined ty := by
  intro op evaluator h
  cases op <;> cases h <;>
    first
      | exact orderBinary_defined hget _ _
      | exact nullableBinary_defined hget fun _ _ => decimalOperator_defined _ _

end

theorem bind_defined {β γ : Type} {x : Result β} {f : β → Result γ}
    (hx : x ≠ .error .undefinedBehavior) (hf : ∀ a, f a ≠ .error .undefinedBehavior) :
    (x >>= f) ≠ .error .undefinedBehavior := by
  cases x with
  | error e => exact fun h => hx (by cases h; rfl)
  | ok a => exact hf a

theorem unitNanos_defined (precision : UInt64) :
    unitNanos precision ≠ .error .undefinedBehavior := by
  unfold unitNanos
  split <;> simp

theorem unpackTime_defined (v : UInt32) (precision : UInt64) :
    unpackTime v precision ≠ .error .undefinedBehavior :=
  bind_defined (unitNanos_defined precision) fun _ => by simp

theorem packTime_defined (secs nanos : UInt32) (precision : UInt64) :
    packTime secs nanos precision ≠ .error .undefinedBehavior := by
  unfold packTime
  split
  · simp
  · split
    · simp
    · exact bind_defined (unitNanos_defined precision) fun _ => by simp

theorem addSecs_defined (a b : UInt32) : addSecs a b ≠ .error .undefinedBehavior := by
  unfold addSecs
  split <;> simp

theorem subSecs_defined (a b : UInt32) : subSecs a b ≠ .error .undefinedBehavior := by
  unfold subSecs
  split <;> simp

theorem carrySecs_defined (secs nanos : UInt32) :
    carrySecs secs nanos ≠ .error .undefinedBehavior := by
  fun_induction carrySecs secs nanos with
  | case1 secs nanos _ ih => exact bind_defined (addSecs_defined secs 1) ih
  | case2 => simp

theorem borrowSecs_defined (secs nanos less : UInt32) :
    borrowSecs secs nanos less ≠ .error .undefinedBehavior := by
  fun_induction borrowSecs secs nanos less with
  | case1 _ _ _ _ _ _ ih => exact ih
  | case2 secs nanos _ e he =>
    rw [← he]
    exact bind_defined (subSecs_defined secs 1) fun _ =>
      bind_defined (addSecs_defined nanos _) fun _ => by simp
  | case3 => simp

theorem unwraps_time32 (p : Option UInt64) : Unwraps time32? (.time p) :=
  ⟨rfl, fun v h => by cases h <;> simp [isNull, time32?]⟩

theorem timePlusBinaryEval_defined (p : Option UInt64) :
    BinaryEvaluator.Defined timePlusBinaryEval (.time p) := by
  refine nullableBinary_defined (unwraps_time32 p) fun v1 v2 => ?_
  refine bind_defined (unpackTime_defined _ _) fun t1 => ?_
  refine bind_defined (unpackTime_defined _ _) fun t2 => ?_
  refine bind_defined (addSecs_defined _ _) fun n => ?_
  refine bind_defined (carrySecs_defined _ _) fun t => ?_
  refine bind_defined (addSecs_defined _ _) fun secs => ?_
  split
  · simp
  · exact bind_defined (packTime_defined _ _ _) fun _ => by simp

theorem timeMinusBinaryEval_defined (p : Option UInt64) :
    BinaryEvaluator.Defined timeMinusBinaryEval (.time p) := by
  refine nullableBinary_defined (unwraps_time32 p) fun v1 v2 => ?_
  refine bind_defined (unpackTime_defined _ _) fun t1 => ?_
  refine bind_defined (unpackTime_defined _ _) fun t2 => ?_
  refine bind_defined (borrowSecs_defined _ _ _) fun t => ?_
  dsimp only
  split
  · simp
  · exact bind_defined (packTime_defined _ _ _) fun _ => by simp

theorem timeOrderBinary_defined (isOrder : Ordering → Bool) (p : Option UInt64) :
    BinaryEvaluator.Defined (timeOrderBinary isOrder) (.time p) := by
  intro left right hl hr
  cases hl with
  | null => cases hr <;> simp [timeOrderBinary]
  | time32 v1 p1 =>
    cases hr with
    | null => simp [timeOrderBinary]
    | time32 v2 p2 =>
      exact bind_defined (unpackTime_defined v1 p1) fun _ =>
        bind_defined (unpackTime_defined v2 p2) fun _ => by simp

theorem timeNotEqBinaryEval_defined (p : Option UInt64) :
    BinaryEvaluator.Defined timeNotEqBinaryEval (.time p) := by
  intro left right hl hr
  refine bind_defined (timeOrderBinary_defined _ p left right hl hr) fun v => ?_
  split <;> simp

theorem timestampPrecision_defined (nanos : Int) (precision : UInt64) :
    timestampPrecision nanos precision ≠ .error .undefinedBehavior := by
  unfold timestampPrecision
  split_ifs <;> simp

theorem booleanEvaluator_defined (h : booleanEvaluator op = some evaluator) :
    evaluator.Defined .boolean := by
  intro left right hl hr
  cases op <;> cases h
  all_goals
    cases hl with
    | null =>
      cases hr with
      | null => simp [booleanAndBinaryEval, booleanOrBinaryEval, booleanEqBinaryEval,
          booleanNotEqBinaryEval, nullableBinary, boolean?, isNull]
      | boolean b => cases b <;> simp [booleanAndBinaryEval, booleanOrBinaryEval,
          booleanEqBinaryEval, booleanNotEqBinaryEval, nullableBinary, boolean?, isNull]
    | boolean a =>
      cases hr with
      | null => cases a <;> simp [booleanAndBinaryEval, booleanOrBinaryEval, booleanEqBinaryEval,
          booleanNotEqBinaryEval, nullableBinary, boolean?, isNull]
      | boolean b => simp [booleanAndBinaryEval, booleanOrBinaryEval, booleanEqBinaryEval,
          booleanNotEqBinaryEval, nullableBinary, boolean?]

theorem unwraps_utf8_char (len : UInt32) (unit : CharLengthUnits) : Unwraps utf8? (.char len unit) :=
  ⟨rfl, fun v h => by cases h <;> simp [isNull, utf8?]⟩

theorem unwraps_utf8_varchar (len : Option UInt32) (unit : CharLengthUnits) :
    Unwraps utf8? (.varchar len unit) :=
  ⟨rfl, fun v h => by cases h <;> simp [isNull, utf8?]⟩

theorem carries_int8 : Carries int8? .int8 .tinyint :=
  ⟨.int8, fun v h => by cases h <;> simp, fun _ => rfl, rfl⟩

theorem carries_uInt8 : Carries uInt8? .uInt8 .uTinyint :=
  ⟨.uInt8, fun v h => by cases h <;> simp, fun _ => rfl, rfl⟩

theorem carries_int16 : Carries int16? .int16 .smallint :=
  ⟨.int16, fun v h => by cases h <;> simp, fun _ => rfl, rfl⟩

theorem carries_uInt16 : Carries uInt16? .uInt16 .uSmallint :=
  ⟨.uInt16, fun v h => by cases h <;> simp, fun _ => rfl, rfl⟩

theorem carries_int32 : Carries int32? .int32 .integer :=
  ⟨.int32, fun v h => by cases h <;> simp, fun _ => rfl, rfl⟩

theorem carries_uInt32 : Carries uInt32? .uInt32 .uInteger :=
  ⟨.uInt32, fun v h => by cases h <;> simp, fun _ => rfl, rfl⟩

theorem carries_int64 : Carries int64? .int64 .bigint :=
  ⟨.int64, fun v h => by cases h <;> simp, fun _ => rfl, rfl⟩

theorem carries_uInt64 : Carries uInt64? .uInt64 .uBigint :=
  ⟨.uInt64, fun v h => by cases h <;> simp, fun _ => rfl, rfl⟩

theorem carries_float32 : Carries float32? .float32 .float :=
  ⟨.float32, fun v h => by cases h <;> simp, fun _ => rfl, rfl⟩

theorem carries_float64 : Carries float64? .float64 .double :=
  ⟨.float64, fun v h => by cases h <;> simp, fun _ => rfl, rfl⟩

theorem carries_date32 : Carries date32? .date32 .date :=
  ⟨.date32, fun v h => by cases h <;> simp, fun _ => rfl, rfl⟩

theorem carries_date64 : Carries date64? .date64 .dateTime :=
  ⟨.date64, fun v h => by cases h <;> simp, fun _ => rfl, rfl⟩

theorem carries_decimal (p s : Option UInt8) : Carries decimal? .decimal (.decimal p s) :=
  ⟨fun d => .decimal d p s, fun v h => by cases h <;> simp, fun _ => rfl, rfl⟩

theorem utf8Evaluator_defined (h : utf8Evaluator op = some evaluator) (hget : Unwraps utf8? ty) :
    evaluator.Defined ty := by
  cases op <;> cases h <;>
    first
      | exact orderBinary_defined hget _ _
      | exact nullableBinary_defined hget fun _ _ => by simp

theorem timeEvaluator_defined (h : timeEvaluator op = some evaluator) (p : Option UInt64) :
    evaluator.Defined (.time p) := by
  cases op <;> cases h
  case plus => exact timePlusBinaryEval_defined p
  case minus => exact timeMinusBinaryEval_defined p
  case notEq => exact timeNotEqBinaryEval_defined p
  all_goals exact timeOrderBinary_defined _ p

/-- A tuple is not expected beside NULL. -/
theorem tupleBinary_defined_iff (body : List DataValue → List DataValue → DataValue)
    (hl : Fits left (.tuple types)) (hr : Fits right (.tuple types)) :
    tupleBinary body left right ≠ .error .undefinedBehavior ↔ left.isNull = right.isNull := by
  cases hl with
  | null => cases hr <;> simp [tupleBinary, isNull]
  | tupleNil => cases hr <;> simp [tupleBinary, isNull]
  | tupleCons => cases hr <;> simp [tupleBinary, isNull]

theorem tupleEvaluator_defined_iff (h : tupleEvaluator op = some evaluator)
    (hl : Fits left (.tuple types)) (hr : Fits right (.tuple types)) :
    evaluator left right ≠ .error .undefinedBehavior ↔ left.isNull = right.isNull := by
  cases op <;> cases h <;> exact tupleBinary_defined_iff _ hl hr

section
variable [Arithmetic]

theorem fromTimestampPrecision_defined (v : Int64) (precision : UInt64) :
    fromTimestampPrecision v precision ≠ .error .undefinedBehavior := by
  unfold fromTimestampPrecision
  split_ifs <;> simp

theorem time64Binary_defined (isOrder : Ordering → Bool) (p : Option UInt64) (zone : Bool) :
    BinaryEvaluator.Defined (time64Binary isOrder) (.timeStamp p zone) := by
  refine nullableBinary_defined ⟨rfl, fun v h => by cases h <;> simp [isNull, time64?]⟩
    fun v1 v2 => ?_
  refine bind_defined (fromTimestampPrecision_defined _ _) fun t1 => ?_
  refine bind_defined (fromTimestampPrecision_defined _ _) fun t2 => ?_
  dsimp only
  split
  · exact bind_defined (timestampPrecision_defined _ _) fun _ =>
      bind_defined (timestampPrecision_defined _ _) fun _ => by simp
  · simp

theorem time64Evaluator_defined (h : time64Evaluator op = some evaluator) (p : Option UInt64)
    (zone : Bool) : evaluator.Defined (.timeStamp p zone) := by
  cases op <;> cases h <;> exact time64Binary_defined _ p zone

theorem evaluatorOf_defined (h : evaluatorOf ty op = some evaluator)
    (ht : ∀ types, ty ≠ .tuple types) : evaluator.Defined ty := by
  cases ty with
  | sqlNull =>
    cases h
    intro left right _ _
    simp [nullBinaryEval]
  | boolean => exact booleanEvaluator_defined h
  | tinyint => exact numericBinaryEvaluatorDefinition_defined _ carries_int8.unwraps op evaluator h
  | uTinyint => exact numericBinaryEvaluatorDefinition_defined _ carries_uInt8.unwraps op evaluator h
  | smallint => exact numericBinaryEvaluatorDefinition_defined _ carries_int16.unwraps op evaluator h
  | uSmallint => exact numericBinaryEvaluatorDefinition_defined _ carries_uInt16.unwraps op evaluator h
  | integer => exact numericBinaryEvaluatorDefinition_defined _ carries_int32.unwraps op evaluator h
  | uInteger => exact numericBinaryEvaluatorDefinition_defined _ carries_uInt32.unwraps op evaluator h
  | bigint => exact numericBinaryEvaluatorDefinition_defined _ carries_int64.unwraps op evaluator h
  | uBigint => exact numericBinaryEvaluatorDefinition_defined _ carries_uInt64.unwraps op evaluator h
  | float => exact floatEvaluators_defined _ _ _ _ _ _ _ _ carries_float32.unwraps op evaluator h
  | double => exact floatEvaluators_defined _ _ _ _ _ _ _ _ carries_float64.unwraps op evaluator h
  | char len unit => exact utf8Evaluator_defined h (unwraps_utf8_char len unit)
  | varchar len unit => exact utf8Evaluator_defined h (unwraps_utf8_varchar len unit)
  | date => exact numericBinaryEvaluatorDefinition_defined _ carries_date32.unwraps op evaluator h
  | dateTime => exact numericBinaryEvaluatorDefinition_defined _ carries_date64.unwraps op evaluator h
  | time p => exact timeEvaluator_defined h p
  | timeStamp p zone => exact time64Evaluator_defined h p zone
  | decimal p s => exact decimalEvaluators_defined (carries_decimal p s).unwraps op evaluator h
  | tuple types => exact absurd rfl (ht types)

/-- Evaluation stays inside the code it expects, except where one of two rows is NULL. -/
theorem binaryEval_defined_iff {op : BinaryOperator} {ref : BinaryEvaluatorRef}
    (hc : binaryCreate ty op = .ok ref) (hl : Fits left ty) (hr : Fits right ty) :
    ref.binaryEval left right ≠ .error .undefinedBehavior ↔
      ∀ types, ty = .tuple types → left.isNull = right.isNull := by
  have he := evaluatorOf_of_binaryCreate hc
  by_cases ht : ∃ types, ty = .tuple types
  · obtain ⟨types, rfl⟩ := ht
    rw [tupleEvaluator_defined_iff he hl hr]
    constructor
    · intro h _ _
      exact h
    · intro h
      exact h types rfl
  · refine iff_of_true (evaluatorOf_defined he (fun types h => ht ⟨types, h⟩) left right hl hr) ?_
    intro types h
    exact absurd ⟨types, h⟩ ht

end

/-- Arithmetic that has no result. -/
@[reducible] def Arithmetic.refusing : Arithmetic where
  add32 _ _ := 0
  sub32 _ _ := 0
  mul32 _ _ := 0
  rem32 _ _ := 0
  add64 _ _ := 0
  sub64 _ _ := 0
  mul64 _ _ := 0
  rem64 _ _ := 0
  div64 _ _ := 0
  widen _ := 0
  float64OfInt _ := 0
  decimalAdd _ _ := .error .overflow
  decimalSub _ _ := .error .overflow
  decimalMul _ _ := .error .overflow
  decimalDiv _ _ := .error .overflow
  decimalRem _ _ := .error .overflow
  inCalendar _ := false

theorem binaryEval_defined_integer :
    let _ := Arithmetic.refusing
    ∃ ref, binaryCreate .integer .plus = .ok ref ∧
      ref.binaryEval (.int32 1) .null ≠ .error .undefinedBehavior :=
  ⟨_, rfl, (@binaryEval_defined_iff .integer _ _ Arithmetic.refusing .plus _ rfl (.int32 1)
    (.null _)).mpr fun _ h => by cases h⟩

/-- `(1, 2) = NULL`. -/
theorem binaryEval_tuple_null :
    let _ := Arithmetic.refusing
    ∃ ref, binaryCreate (.tuple [.integer, .integer]) .eq = .ok ref ∧
      ref.binaryEval (.tuple [.int32 1, .int32 2]) .null = .error .undefinedBehavior :=
  ⟨_, rfl, rfl⟩

end KiteSQL
