import KiteSQL.Types.Evaluator.Equal

/-! Comparison operators that read their operands in the order in which values are stored. -/
namespace KiteSQL

open DataValue

/-- The operators that a range of values can stand for. -/
def BinaryOperator.isRangeTest : BinaryOperator → Bool
  | .eq | .lt | .ltEq | .gt | .gtEq => true
  | _ => false

/-- The seconds or the fractions of two packed times are equal, or both are ordered alike. -/
def DataValue.TimesAlike (v w : UInt32) (precision : UInt64) : Prop :=
  let unit := 2 ^ (timeShift precision).toNat
  v.toNat % unit = w.toNat % unit ∨ v.toNat / unit = w.toNat / unit ∨
    (v.toNat % unit < w.toNat % unit ↔ v.toNat / unit < w.toNat / unit)

theorem DataValue.TimesAlike.symm {v w : UInt32} {p : UInt64} (h : TimesAlike v w p) :
    TimesAlike w v p := by
  unfold TimesAlike at h ⊢
  dsimp only at h ⊢
  omega

theorem DataValue.compare_unpacked {p : UInt64} {x y s₁ n₁ s₂ n₂ : UInt32} (hp : p ≤ 9)
    (h : TimesAlike x y p) (h₁ : unpackTime x p = .ok (s₁, n₁)) (h₂ : unpackTime y p = .ok (s₂, n₂))
    : (compare s₁ s₂).then (compare n₁ n₂) = compare x y := by
  obtain ⟨k, u, hsplit, hfit⟩ := split_of_le hp
  obtain ⟨s, n, hx, hs, hn⟩ := unpackTime_read hsplit hfit x
  obtain ⟨s', n', hy, hs', hn'⟩ := unpackTime_read hsplit hfit y
  rw [h₁] at hx
  rw [h₂] at hy
  cases hx
  cases hy
  rw [TimesAlike, hsplit.shift] at h
  have hpow := Nat.two_pow_pos k
  have hpacked : compare x.toNat y.toNat =
      (compare (x.toNat / 2 ^ k) (y.toNat / 2 ^ k)).then
        (compare (x.toNat % 2 ^ k) (y.toNat % 2 ^ k)) := by
    have hfields := compare_fields (k := k) (x := x.toNat / 2 ^ k) (y := y.toNat / 2 ^ k)
      (Nat.mod_lt x.toNat hpow) (Nat.mod_lt y.toNat hpow)
    rwa [Nat.mul_comm, Nat.div_add_mod, Nat.mul_comm, Nat.div_add_mod] at hfields
  rw [compare_uInt32, compare_uInt32, compare_uInt32, hs, hs', hn, hn',
    compare_mul_right hsplit.pos, hpacked, lex_comm_iff.mpr h]

section
variable [Arithmetic]

/-- The operator compares the two values as their stored forms are compared: truth values are only
tested for equality, points in time are readable and of one precision, and so are times of day, whose
seconds and fractions are ordered alike if they are not only tested for equality. -/
def DataValue.ReadAsStored (op : BinaryOperator) (v w : DataValue) : Prop :=
  match v, w with
  | .boolean _, .boolean _ => op = .eq
  | .time32 x p, .time32 y q => p = q ∧ p ≤ 9 ∧ (op = .eq ∨ TimesAlike x y p)
  | .time64 _ p _, .time64 _ q _ => p = q ∧ v.isComparable = true ∧ w.isComparable = true
  | _, _ => True

variable {op : BinaryOperator} {isOrder : Ordering → Bool} {v w : DataValue} {t : LogicalType}
  {s : TupleValueSerializableImpl} {evaluator : BinaryEvaluator}

theorem DataValue.ReadAsStored.symm (h : ReadAsStored op v w) : ReadAsStored op w v := by
  cases v with
  | boolean x =>
    cases w with
    | boolean y => exact h
    | _ => trivial
  | time32 x p =>
    cases w with
    | time32 y q =>
      obtain ⟨rfl, hp, halike⟩ := h
      exact ⟨rfl, hp, halike.imp_right TimesAlike.symm⟩
    | _ => trivial
  | time64 x p z =>
    cases w with
    | time64 y q z' =>
      obtain ⟨rfl, hv, hw⟩ := h
      exact ⟨rfl, hw, hv⟩
    | _ => trivial
  | _ => cases w <;> trivial

theorem time_readAsStored {p : Option UInt64} (hop : orderTest op = some isOrder)
    (hrange : op.isRangeTest = true) (hv : Fits v (.time p)) (hw : Fits w (.time p))
    (h : ReadAsStored op v w) (he : timeEvaluator op = some evaluator) :
    evaluator v w = .ok (ofTruth ((sqlCmp v w).map isOrder)) := by
  have heq : evaluator = timeOrderBinary isOrder := by
    cases op <;> cases hrange <;> cases hop <;> cases he <;> rfl
  rw [heq]
  cases hv with
  | null => cases hw <;> rfl
  | time32 x p =>
    cases hw with
    | null => rfl
    | time32 y q =>
      obtain ⟨rfl, hp, halike⟩ := h
      obtain ⟨k, u, hsplit, -⟩ := split_of_le hp
      obtain ⟨s₁, n₁, h₁, -⟩ := unpackTime_spec hsplit x
      obtain ⟨s₂, n₂, h₂, -⟩ := unpackTime_spec hsplit y
      have htest : isOrder ((compare s₁ s₂).then (compare n₁ n₂)) = isOrder (compare x y) := by
        rcases halike with rfl | halike
        · cases hop
          rw [Bool.eq_iff_iff, Ordering.isEq_iff_eq_eq, Ordering.isEq_iff_eq_eq,
            compare_unpacked_eq hp h₁ h₂, Std.compare_eq_iff_eq]
        · rw [compare_unpacked hp halike h₁ h₂]
      rw [timeOrderBinary, h₁, h₂]
      exact congrArg (fun b => Except.ok (boolean b)) htest

theorem timestamp_readAsStored {p : Option UInt64} {zone : Bool}
    (hop : orderTest op = some isOrder) (hrange : op.isRangeTest = true)
    (hv : Fits v (.timeStamp p zone)) (hw : Fits w (.timeStamp p zone))
    (h : ReadAsStored op v w) (he : time64Evaluator op = some evaluator) :
    evaluator v w = .ok (ofTruth ((sqlCmp v w).map isOrder)) := by
  have heq : evaluator = time64Binary isOrder := by
    cases op <;> cases hrange <;> cases hop <;> cases he <;> rfl
  rw [heq]
  cases hv with
  | null => cases hw <;> rfl
  | time64 x p z =>
    cases hw with
    | null => rfl
    | time64 y q z' =>
      obtain ⟨rfl, hx, hy⟩ := h
      exact time64Binary_eq isOrder hx hy

/-- An operator that reads its operands as they are stored tests their order. -/
theorem evaluatorOf_readAsStored (hs : t.serializable = .ok s) (hop : orderTest op = some isOrder)
    (hrange : op.isRangeTest = true) (hv : Fits v t) (hw : Fits w t) (h : ReadAsStored op v w)
    (he : evaluatorOf t op = some evaluator) :
    evaluator v w = .ok (ofTruth ((sqlCmp v w).map isOrder)) := by
  cases t with
  | sqlNull | tuple => cases hs
  | boolean =>
    cases hv with
    | null =>
      cases op <;> cases hrange <;> cases he
      cases hw <;> rfl
    | boolean x =>
      cases hw with
      | null =>
        cases op <;> cases hrange <;> cases he
        rfl
      | boolean y =>
        cases show op = .eq from h
        cases hop
        cases he
        cases x <;> cases y <;> rfl
  | time p => exact time_readAsStored hop hrange hv hw h he
  | timeStamp p z => exact timestamp_readAsStored hop hrange hv hw h he
  | _ => exact evaluatorOf_order rfl hop he hv hw

end

end KiteSQL
