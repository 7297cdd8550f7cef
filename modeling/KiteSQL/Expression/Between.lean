import KiteSQL.Expression.Eval
import KiteSQL.Types.Evaluator.Order

/-! `BETWEEN` against the comparisons it is rewritten to. -/
namespace KiteSQL

open DataValue Result Truth LogicalType Ordering

/-- `Simplify` on `BETWEEN`. -/
def Expression.simplifyBetween (negated : Bool) (expr left right : Expression) : Expression :=
  if negated then .binary .or (.binary .lt expr left .boolean) (.binary .gt expr right .boolean)
    .boolean
  else .binary .and (.binary .gtEq expr left .boolean) (.binary .ltEq expr right .boolean) .boolean

/-- INTEGER, DATE, VARCHAR and the type of NULL. -/
def isOperandType : LogicalType → Bool
  | .integer | .date | .varchar _ _ | .sqlNull => true
  | _ => false

section
variable [Conversions]

/-- A value of one type as a value of another. -/
def convertTo (source ty : LogicalType) (value : DataValue) : Result DataValue :=
  if source = ty then .ok value else evalTypeCast ty value

/-- Two values as a comparison reads them. -/
def asCompared (leftType rightType : LogicalType) (left right : DataValue) :
    Result (DataValue × DataValue) := do
  let ty ← LogicalType.maxLogicalType leftType rightType
  return (← convertTo leftType ty left, ← convertTo rightType ty right)

/-- Whether `BETWEEN` and the comparisons have one result. -/
def BetweenAgrees (type leftType rightType : LogicalType) (value left right : DataValue) : Prop :=
  ∃ value₁ left₁ value₂ right₂, asCompared type leftType value left = .ok (value₁, left₁) ∧
    asCompared type rightType value right = .ok (value₂, right₂) ∧
    if value.isNull then ¬ (left.isNull ∧ right.isNull)
    else (partialCmp value left).isSome ∧ (partialCmp value right).isSome ∨
      (left.isNull ∨ right.isNull) ∧ partialCmp value₁ left₁ ≠ some .lt ∧
        partialCmp value₂ right₂ ≠ some .gt

end

section
variable {ty : LogicalType} {isOrder : Ordering → Bool} {op : BinaryOperator}

theorem followsOrder_of_isOperandType (h : isOperandType ty = true) : ty.followsOrder = true := by
  cases ty <;> simp_all [isOperandType, followsOrder]

theorem binaryCreate_order (hty : isOperandType ty = true) (hop : orderTest op = some isOrder) :
    ∃ ref, binaryCreate ty op = .ok ref := by
  cases ty <;> cases hty <;> cases op <;> cases hop <;> exact ⟨_, rfl⟩

end

section
variable {tl tr ty : LogicalType} {v w l r l' r' : DataValue}

/-- The conversions between operand types. -/
def Converts (source ty : LogicalType) : Prop :=
  source = ty ∨ source = .sqlNull ∨
    (∃ len unit, source = .varchar len unit) ∧ (ty = .date ∨ ty = .varchar none .characters)

theorem maxLogicalType_operands (hl : isOperandType tl = true) (hr : isOperandType tr = true)
    (h : maxLogicalType tl tr = .ok ty) :
    isOperandType ty = true ∧ Converts tl ty ∧ Converts tr ty ∧
      ∀ len unit len' unit', tl = .varchar len unit → tr = .varchar len' unit' → ty ≠ .date := by
  unfold maxLogicalType at h
  split at h
  · cases h
    subst tr
    refine ⟨hl, .inl rfl, .inl rfl, ?_⟩
    rintro _ _ _ _ rfl _
    simp
  · cases tl <;> cases hl <;> cases tr <;> cases hr <;> cases h <;> simp [Converts, isOperandType]

/-- A value and what a conversion makes of it. -/
def Reread (ty : LogicalType) (v w : DataValue) : Prop :=
  v = w ∨ ∃ s a b, v = .utf8 s a b ∧ ((∃ c d, w = .utf8 s c d) ∨ ty = .date ∧ ∃ x, w = .date32 x)

theorem convertTo_spec [Conversions] {source : LogicalType} (hs : Converts source ty)
    (hv : Fits v source) (h : convertTo source ty v = .ok w) :
    Fits w ty ∧ w.isNull = v.isNull ∧ Reread ty v w := by
  unfold convertTo evalTypeCast at h
  split at h
  · cases h
    subst source
    exact ⟨hv, rfl, .inl rfl⟩
  · split at h
    · rename_i hn
      cases h
      rw [isNull_iff.mp hn]
      exact ⟨.null ty, rfl, .inl rfl⟩
    · rename_i hne hn
      rcases hs with rfl | rfl | ⟨⟨len, unit, rfl⟩, hty⟩
      · exact absurd rfl hne
      · cases hv
        simp [isNull] at hn
      · cases hv with
        | null => simp [isNull] at hn
        | varchar s a b =>
          rcases hty with rfl | rfl
          · obtain ⟨x, -, hw⟩ := bind_eq_ok.mp h
            cases hw
            exact ⟨.date32 x, rfl, .inr ⟨s, a, b, rfl, .inr ⟨rfl, x, rfl⟩⟩⟩
          · obtain ⟨rfl, -⟩ := toVarchar_eq_ok (show toVarchar s none .characters = .ok w from h)
            exact ⟨.varchar .., rfl, .inr ⟨s, a, b, rfl, .inl ⟨_, _, rfl⟩⟩⟩

theorem fits_utf8_operand {t : LogicalType} {s : String} {a : Utf8Type} {b : CharLengthUnits}
    (ht : isOperandType t = true) (h : Fits (.utf8 s a b) t) :
    ∃ len unit, t = .varchar len unit := by
  cases h with
  | char => simp [isOperandType] at ht
  | varchar => exact ⟨_, _, rfl⟩

/-- Two operands and the values they are compared as, which keep their order if they have one. -/
def Compares (l r l' r' : DataValue) : Prop :=
  l'.isNull = l.isNull ∧ r'.isNull = r.isNull ∧ (∃ ty, Fits l' ty ∧ Fits r' ty) ∧
    ((partialCmp l r).isSome → partialCmp l' r' = partialCmp l r)

theorem asCompared_spec [Conversions] (htl : isOperandType tl = true)
    (htr : isOperandType tr = true) (hl : Fits l tl) (hr : Fits r tr)
    (h : asCompared tl tr l r = .ok (l', r')) : Compares l r l' r' := by
  obtain ⟨ty, x, hty, hx, h⟩ := bind_bind_eq_ok.mp h
  obtain ⟨y, hy, h⟩ := bind_eq_ok.mp h
  cases h
  obtain ⟨-, hcl, hcr, hdate⟩ := maxLogicalType_operands htl htr hty
  obtain ⟨hfl, hnl, hrl⟩ := convertTo_spec hcl hl hx
  obtain ⟨hfr, hnr, hrr⟩ := convertTo_spec hcr hr hy
  refine ⟨hnl, hnr, ⟨ty, hfl, hfr⟩, fun hsome => ?_⟩
  rcases hrl with rfl | ⟨s, a, b, rfl, hrl⟩
  · rcases hrr with rfl | ⟨s, a, b, rfl, ⟨c, d, rfl⟩ | ⟨rfl, x, rfl⟩⟩
    · rfl
    · cases l <;> simp_all [partialCmp]
    · cases l <;> simp [partialCmp] at hsome
      cases hfl
  · cases r with
    | utf8 s' a' b' =>
      obtain ⟨len, unit, rfl⟩ := fits_utf8_operand htl hl
      obtain ⟨len', unit', rfl⟩ := fits_utf8_operand htr hr
      have hne := hdate _ _ _ _ rfl rfl
      rcases hrl with ⟨c, d, rfl⟩ | ⟨hd, -⟩
      · rcases hrr with rfl | ⟨s₂, a₂, b₂, hr₂, ⟨c₂, d₂, rfl⟩ | ⟨hd, -⟩⟩
        · rfl
        · cases hr₂
          rfl
        · exact absurd hd hne
      · exact absurd hd hne
    | _ => simp [partialCmp] at hsome

end

section
variable [Conversions] [Arithmetic] {checks : Bool} {row : Option (List DataValue)}
  {left right : Expression} {op : BinaryOperator} {x : DataValue}

theorem eval_castTo (source ty : LogicalType) (expr : BoundExpression) :
    (expr.castTo source ty).eval checks row = expr.eval checks row >>= convertTo source ty := by
  unfold BoundExpression.castTo
  by_cases h : source = ty
  · have hpure : convertTo source ty = pure := funext fun v => if_pos h
    rw [if_pos h, hpure, bind_pure]
  · have hcast : convertTo source ty = evalTypeCast ty := funext fun v => if_neg h
    rw [if_neg h, hcast, BoundExpression.eval]

theorem eval_binary_eq_ok {ty : LogicalType}
     :
    (Expression.binary op left right ty).eval checks row = .ok x ↔
      ∃ l, left.bind = .ok l ∧ ∃ r, right.bind = .ok r ∧
        ∃ t, maxLogicalType left.returnType right.returnType = .ok t ∧
        ∃ ref, binaryCreate t op = .ok ref ∧
        ∃ v, l.eval checks row >>= convertTo left.returnType t = .ok v ∧
        ∃ w, r.eval checks row >>= convertTo right.returnType t = .ok w ∧
          ref.binaryEval v w = .ok x := by
  rw [Expression.eval, Expression.bind]
  constructor
  · intro h
    obtain ⟨bound, hbound, h⟩ := bind_eq_ok.mp h
    obtain ⟨l, r, hl, hr, hbound⟩ := bind_bind_eq_ok.mp hbound
    obtain ⟨t, ref, ht, href, hbound⟩ := bind_bind_eq_ok.mp hbound
    cases hbound
    rw [BoundExpression.eval] at h
    obtain ⟨v, w, hv, hw, h⟩ := bind_bind_eq_ok.mp h
    rw [eval_castTo] at hv hw
    exact ⟨l, hl, r, hr, t, ht, ref, href, v, hv, w, hw, h⟩
  · rintro ⟨l, hl, r, hr, t, ht, ref, href, v, hv, w, hw, h⟩
    simp only [hl, hr, ht, href, ok_bind, pure_eq]
    rw [BoundExpression.eval, eval_castTo, eval_castTo, hv, hw]
    exact h

/-- An operand of a comparison, with its value. -/
structure IsOperand (checks : Bool) (row : Option (List DataValue)) (expr : Expression)
    (e : BoundExpression) (value : DataValue) : Prop where
  bound : expr.bind = .ok e
  eval : e.eval checks row = .ok value
  isOperandType : isOperandType expr.returnType = true
  fits : Fits value expr.returnType

theorem eval_comparison_eq_ok (op : BinaryOperator) {isOrder : Ordering → Bool}
    {l r : BoundExpression} {v w : DataValue} (x : DataValue) (hop : orderTest op = some isOrder)
    (hl : IsOperand checks row left l v) (hr : IsOperand checks row right r w) :
    (Expression.binary op left right .boolean).eval checks row = .ok x ↔
      ∃ v' w', asCompared left.returnType right.returnType v w = .ok (v', w') ∧
        x = ofTruth ((sqlCmp v' w').map isOrder) := by
  have heval : ∀ {t ref v' w'},
      maxLogicalType left.returnType right.returnType = .ok t →
      binaryCreate t op = .ok ref → convertTo left.returnType t v = .ok v' →
      convertTo right.returnType t w = .ok w' →
      ref.binaryEval v' w' = .ok (ofTruth ((sqlCmp v' w').map isOrder)) := by
    intro t ref v' w' ht href hv' hw'
    obtain ⟨hty, hcl, hcr, -⟩ := maxLogicalType_operands hl.isOperandType hr.isOperandType ht
    exact evaluatorOf_order (followsOrder_of_isOperandType hty) hop (evaluatorOf_of_binaryCreate href)
      (convertTo_spec hcl hl.fits hv').1 (convertTo_spec hcr hr.fits hw').1
  rw [eval_binary_eq_ok]
  constructor
  · rintro ⟨l₁, hl₁, r₁, hr₁, t, ht, ref, href, v', hv', w', hw', h⟩
    rw [hl.bound] at hl₁
    rw [hr.bound] at hr₁
    cases hl₁
    cases hr₁
    rw [hl.eval] at hv'
    rw [hr.eval] at hw'
    rw [heval ht href hv' hw'] at h
    refine ⟨v', w', ?_, (Except.ok.inj h).symm⟩
    exact bind_eq_ok.mpr ⟨t, ht, bind_eq_ok.mpr ⟨v', hv',
      bind_eq_ok.mpr ⟨w', hw', rfl⟩⟩⟩
  · rintro ⟨v', w', h, rfl⟩
    obtain ⟨t, v₁, ht, hv', h⟩ := bind_bind_eq_ok.mp h
    obtain ⟨w₁, hw', h⟩ := bind_eq_ok.mp h
    cases h
    obtain ⟨ref, href⟩ := binaryCreate_order
      (maxLogicalType_operands hl.isOperandType hr.isOperandType ht).1 hop
    refine ⟨l, hl.bound, r, hr.bound, t, ht, ref, href, v', ?_, w', ?_, heval ht href hv' hw'⟩
    · rw [hl.eval]
      exact hv'
    · rw [hr.eval]
      exact hw'

theorem eval_logical_eq_ok {evaluator : BinaryEvaluator}
    (hop : booleanEvaluator op = some evaluator) (hl : left.returnType = .boolean)
    (hr : right.returnType = .boolean) :
    (Expression.binary op left right .boolean).eval checks row = .ok x ↔
      ∃ v w, left.eval checks row = .ok v ∧ right.eval checks row = .ok w ∧
        evaluator v w = .ok x := by
  have hmax : maxLogicalType left.returnType right.returnType = .ok .boolean := by
    rw [hl, hr]
    exact if_pos rfl
  have hconv : ∀ y : Result DataValue, y >>= convertTo .boolean .boolean = y := by
    intro y
    have hpure : convertTo .boolean .boolean = pure := funext fun v => if_pos rfl
    rw [hpure, bind_pure]
  obtain ⟨ref, href, heq⟩ : ∃ ref, binaryCreate .boolean op = .ok ref ∧
      ref.binaryEval = evaluator := by
    cases op <;> cases hop <;> exact ⟨_, rfl, rfl⟩
  rw [eval_binary_eq_ok, hmax, hl, hr]
  constructor
  · rintro ⟨l, hbl, r, hbr, t, ht, ref', href', v, hv, w, hw, h⟩
    cases ht
    rw [href] at href'
    cases href'
    rw [hconv] at hv hw
    refine ⟨v, w, bind_eq_ok.mpr ⟨l, hbl, hv⟩, bind_eq_ok.mpr ⟨r, hbr, hw⟩, ?_⟩
    rw [← heq]
    exact h
  · rintro ⟨v, w, hv, hw, h⟩
    obtain ⟨l, hbl, hv⟩ := bind_eq_ok.mp hv
    obtain ⟨r, hbr, hw⟩ := bind_eq_ok.mp hw
    refine ⟨l, hbl, r, hbr, _, rfl, ref, href, v, ?_, w, ?_, ?_⟩
    · rw [hconv]
      exact hv
    · rw [hconv]
      exact hw
    · rw [heq]
      exact h

end

section
variable {value left right value₁ left₁ value₂ right₂ : DataValue}

/-- The truth value of `BETWEEN`. -/
def betweenTruth (value left right : DataValue) : Option Bool :=
  match (partialCmp value left).map Ordering.isGE, (partialCmp value right).map Ordering.isLE with
  | some ge, some le => some (ge && le)
  | _, _ => none

theorem between_eq_ofTruth (negated : Bool) :
    DataValue.between negated value left right =
      ofTruth (if negated then not (betweenTruth value left right)
        else betweenTruth value left right) := by
  unfold DataValue.between betweenTruth
  cases (partialCmp value left).map isGE with
  | none => cases negated <;> rfl
  | some ge =>
    cases (partialCmp value right).map isLE with
    | none => cases ge <;> cases negated <;> rfl
    | some le => cases ge <;> cases le <;> cases negated <;> rfl

theorem booleanAndBinaryEval_ofTruth (s t : Option Bool) :
    booleanAndBinaryEval (ofTruth s) (ofTruth t) = .ok (ofTruth (and s t)) := by
  rcases s with _ | _ | _ <;> rcases t with _ | _ | _ <;> rfl

theorem booleanOrBinaryEval_ofTruth (s t : Option Bool) :
    booleanOrBinaryEval (ofTruth s) (ofTruth t) = .ok (ofTruth (or s t)) := by
  rcases s with _ | _ | _ <;> rcases t with _ | _ | _ <;> rfl

theorem or_lt_gt (c d : Option Ordering) :
    or (c.map isLT) (d.map isGT) =
      not (and (c.map isGE) (d.map isLE)) := by
  rcases c with _ | _ | _ | _ <;> rcases d with _ | _ | _ | _ <;> rfl

theorem and_ge_le_eq_none (c d : Option Ordering) :
    none = and (c.map isGE) (d.map isLE) ↔
      (c = none ∨ d = none) ∧ c ≠ some .lt ∧ d ≠ some .gt := by
  rcases c with _ | _ | _ | _ <;> rcases d with _ | _ | _ | _ <;> decide

section

variable (h : Compares value left value₁ left₁)
include h

theorem sqlCmp_of_isSome (hv : value.isNull = false) (hs : (partialCmp value left).isSome) :
    sqlCmp value₁ left₁ = partialCmp value left := by
  have hl : left.isNull = false := by
    cases left <;> cases value <;> simp_all [partialCmp, isNull]
  rw [sqlCmp, h.1, h.2.1, hv, hl]
  exact h.2.2.2 hs

theorem sqlCmp_eq_none (hv : value.isNull = false) :
    sqlCmp value₁ left₁ = none ↔ left.isNull = true := by
  obtain ⟨hv', hl', ⟨ty, hfv, hfl⟩, -⟩ := h
  rw [sqlCmp, hv', hl', hv]
  cases hl : left.isNull with
  | true => simp
  | false =>
    obtain ⟨o, ho⟩ :=
      Option.isSome_iff_exists.mp (hfv.partialCmp_isSome hfl (hv'.trans hv) (hl'.trans hl))
    simp [ho]

theorem sqlCmp_eq_some (hv : value.isNull = false) (o : Ordering) :
    sqlCmp value₁ left₁ = some o ↔ partialCmp value₁ left₁ = some o := by
  have hv' := h.1.trans hv
  rw [sqlCmp, hv']
  cases hl : left₁.isNull with
  | true =>
    rw [isNull_iff.mp hl]
    cases value₁ <;> simp_all [isNull, partialCmp]
  | false => simp

end

theorem betweenTruth_null :
    none = betweenTruth .null left right ↔ ¬ (left.isNull = true ∧ right.isNull = true) := by
  cases left <;> cases right <;> simp [betweenTruth, partialCmp, isNull]

theorem betweenTruth_eq_iff (hl : Compares value left value₁ left₁)
    (hr : Compares value right value₂ right₂) :
    betweenTruth value left right = and ((sqlCmp value₁ left₁).map isGE)
        ((sqlCmp value₂ right₂).map isLE) ↔
      if value.isNull then ¬ (left.isNull ∧ right.isNull)
      else (partialCmp value left).isSome ∧ (partialCmp value right).isSome ∨
        (left.isNull ∨ right.isNull) ∧ partialCmp value₁ left₁ ≠ some .lt ∧
          partialCmp value₂ right₂ ≠ some .gt := by
  cases hv : value.isNull with
  | true =>
    have h1 : sqlCmp value₁ left₁ = none := by simp [sqlCmp, hl.1, hv]
    have h2 : sqlCmp value₂ right₂ = none := by simp [sqlCmp, hr.1, hv]
    rw [h1, h2, isNull_iff.mp hv, if_pos rfl, ← betweenTruth_null]
    exact eq_comm
  | false =>
    rw [if_neg (by simp)]
    by_cases hs : (partialCmp value left).isSome ∧ (partialCmp value right).isSome
    · refine iff_of_true ?_ (.inl hs)
      rw [sqlCmp_of_isSome hl hv hs.1, sqlCmp_of_isSome hr hv hs.2]
      obtain ⟨c, hc⟩ := Option.isSome_iff_exists.mp hs.1
      obtain ⟨d, hd⟩ := Option.isSome_iff_exists.mp hs.2
      rw [betweenTruth, hc, hd]
      cases c <;> cases d <;> rfl
    · have hnone : betweenTruth value left right = none := by
        unfold betweenTruth
        cases hc : partialCmp value left with
        | none => rfl
        | some c => cases hd : partialCmp value right <;> simp_all
      rw [hnone, and_ge_le_eq_none, sqlCmp_eq_none hl hv, sqlCmp_eq_none hr hv, Ne,
        sqlCmp_eq_some hl hv, Ne, sqlCmp_eq_some hr hv]
      exact ⟨.inr, fun h => h.resolve_left hs⟩

end

section
variable [Conversions] [Arithmetic] {checks negated : Bool} {row : Option (List DataValue)}
  {expr left right : Expression} {e l r : BoundExpression} {value v w : DataValue}

theorem simplifyBetween_eval_eq_ok {x : DataValue} (he : IsOperand checks row expr e value)
    (hl : IsOperand checks row left l v) (hr : IsOperand checks row right r w) :
    (Expression.simplifyBetween negated expr left right).eval checks row = .ok x ↔
      ∃ value₁ left₁ value₂ right₂,
        asCompared expr.returnType left.returnType value v = .ok (value₁, left₁) ∧
        asCompared expr.returnType right.returnType value w = .ok (value₂, right₂) ∧
        x = ofTruth (if negated then not (and ((sqlCmp value₁ left₁).map isGE)
            ((sqlCmp value₂ right₂).map isLE))
          else and ((sqlCmp value₁ left₁).map isGE)
            ((sqlCmp value₂ right₂).map isLE)) := by
  have hleft := fun op isOrder x (hop : orderTest op = some isOrder) =>
    eval_comparison_eq_ok op x hop he hl
  have hright := fun op isOrder x (hop : orderTest op = some isOrder) =>
    eval_comparison_eq_ok op x hop he hr
  cases negated with
  | false =>
    rw [Expression.simplifyBetween, if_neg (by simp), eval_logical_eq_ok rfl rfl rfl]
    constructor
    · rintro ⟨s, t, hs, ht, h⟩
      obtain ⟨value₁, left₁, h₁, rfl⟩ := (hleft .gtEq _ _ rfl).mp hs
      obtain ⟨value₂, right₂, h₂, rfl⟩ := (hright .ltEq _ _ rfl).mp ht
      rw [booleanAndBinaryEval_ofTruth] at h
      exact ⟨value₁, left₁, value₂, right₂, h₁, h₂, (Except.ok.inj h).symm⟩
    · rintro ⟨value₁, left₁, value₂, right₂, h₁, h₂, rfl⟩
      exact ⟨_, _, (hleft .gtEq _ _ rfl).mpr ⟨_, _, h₁, rfl⟩,
        (hright .ltEq _ _ rfl).mpr ⟨_, _, h₂, rfl⟩, booleanAndBinaryEval_ofTruth _ _⟩
  | true =>
    rw [Expression.simplifyBetween, if_pos rfl, eval_logical_eq_ok rfl rfl rfl]
    constructor
    · rintro ⟨s, t, hs, ht, h⟩
      obtain ⟨value₁, left₁, h₁, rfl⟩ := (hleft .lt _ _ rfl).mp hs
      obtain ⟨value₂, right₂, h₂, rfl⟩ := (hright .gt _ _ rfl).mp ht
      rw [booleanOrBinaryEval_ofTruth, or_lt_gt] at h
      exact ⟨value₁, left₁, value₂, right₂, h₁, h₂, (Except.ok.inj h).symm⟩
    · rintro ⟨value₁, left₁, value₂, right₂, h₁, h₂, rfl⟩
      refine ⟨_, _, (hleft .lt _ _ rfl).mpr ⟨_, _, h₁, rfl⟩,
        (hright .gt _ _ rfl).mpr ⟨_, _, h₂, rfl⟩, ?_⟩
      rw [if_pos rfl, ← or_lt_gt]
      exact booleanOrBinaryEval_ofTruth _ _

/-- `BETWEEN` has the value of the comparisons it is rewritten to exactly if these can be made and no
NULL decides differently. -/
theorem between_eval_eq_iff (he : expr.bind = .ok e) (hl : left.bind = .ok l)
    (hr : right.bind = .ok r) (hev : e.eval checks row = .ok value)
    (hlv : l.eval checks row = .ok v) (hrv : r.eval checks row = .ok w)
    (hte : isOperandType expr.returnType = true) (htl : isOperandType left.returnType = true)
    (htr : isOperandType right.returnType = true) (hfe : Fits value expr.returnType)
    (hfl : Fits v left.returnType) (hfr : Fits w right.returnType) :
    (Expression.between negated expr left right).eval checks row =
        (Expression.simplifyBetween negated expr left right).eval checks row ↔
      BetweenAgrees expr.returnType left.returnType right.returnType value v w := by
  have hbetween : (Expression.between negated expr left right).eval checks row =
      .ok (DataValue.between negated value v w) := by
    simp only [Expression.eval, Expression.bind, he, hl, hr, ok_bind, pure_eq,
      BoundExpression.eval, hev, hlv, hrv]
  rw [hbetween, eq_comm, simplifyBetween_eval_eq_ok ⟨he, hev, hte, hfe⟩ ⟨hl, hlv, htl, hfl⟩
    ⟨hr, hrv, htr, hfr⟩,
    between_eq_ofTruth]
  refine exists_congr fun value₁ => exists_congr fun left₁ => exists_congr fun value₂ =>
    exists_congr fun right₂ => and_congr_right fun h₁ => and_congr_right fun h₂ => ?_
  rw [ofTruth_inj, ← betweenTruth_eq_iff (asCompared_spec hte htl hfe hfl h₁)
    (asCompared_spec hte htr hfe hfr h₂)]
  cases negated with
  | false => exact Iff.rfl
  | true => exact Truth.not_inj

end

/-- `5 BETWEEN 1 AND NULL`. -/
theorem between_eval_integers :
    let _ := Conversions.refusing
    let _ := Arithmetic.refusing
    (Expression.between false (.constant (.int32 5)) (.constant (.int32 1))
        (.constant .null)).eval true none =
      (Expression.simplifyBetween false (.constant (.int32 5)) (.constant (.int32 1))
        (.constant .null)).eval true none := by
  intro c a
  have hagrees : BetweenAgrees .integer .integer .sqlNull (.int32 5) (.int32 1) .null :=
    ⟨.int32 5, .int32 1, .int32 5, .null, rfl, rfl, .inr ⟨.inr rfl, by decide, by decide⟩⟩
  exact (between_eval_eq_iff rfl rfl rfl rfl rfl rfl rfl rfl rfl (.int32 5) (.int32 1)
    (.null _)).mpr hagrees

/-- `5 BETWEEN NULL AND 3` is unknown, but `5 >= NULL AND 5 <= 3` does not hold. -/
theorem between_eval_null_bound :
    let _ := Conversions.refusing
    let _ := Arithmetic.refusing
    (Expression.between false (.constant (.int32 5)) (.constant .null)
        (.constant (.int32 3))).eval true none = .ok .null ∧
      (Expression.simplifyBetween false (.constant (.int32 5)) (.constant .null)
        (.constant (.int32 3))).eval true none = .ok (.boolean false) := by
  intro c a
  exact ⟨rfl, rfl⟩

end KiteSQL
