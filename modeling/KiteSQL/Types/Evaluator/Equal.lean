import KiteSQL.Types.Evaluator.Order
import KiteSQL.Types.Serialize

/-! The operator `=` against the equality of values. -/
namespace KiteSQL

open DataValue

/-- The equality of values, unknown if one is NULL. -/
def sqlEq (v w : DataValue) : Option Bool := if v.isNull || w.isNull then none else some (eq v w)

/-- Whether the comparison operators read the value: there are none for truth values, and times need
a known precision and a place in the calendar. -/
def DataValue.isComparable [Arithmetic] : DataValue → Bool
  | .boolean _ => false
  | .time32 _ precision => precision ≤ 9
  | .time64 v precision _ =>
    match fromTimestampPrecision v precision with
    | .ok (some _) => true
    | _ => false
  | _ => true

variable {v : DataValue} {p : Option UInt64}

theorem DataValue.HasType.time_cases (h : HasType v (.time p)) :
    v = .null ∨ ∃ x, v = .time32 x (p.getD 0) := by
  obtain ⟨hfits, hdeclared⟩ := h
  cases hfits with
  | null => exact .inl rfl
  | time32 x => exact .inr ⟨x, hdeclared.symm⟩

theorem DataValue.HasType.timestamp_cases {zone : Bool} (h : HasType v (.timeStamp p zone)) :
    v = .null ∨ ∃ x, v = .time64 x (p.getD 0) zone := by
  obtain ⟨hfits, hdeclared⟩ := h
  cases hfits with
  | null => exact .inl rfl
  | time64 x => exact .inr ⟨x, hdeclared.symm⟩

/-- Packed times are the same exactly if their seconds and fractions are. -/
theorem compare_unpacked_eq {p : UInt64} {x y s₁ n₁ s₂ n₂ : UInt32} (hp : p ≤ 9)
    (h₁ : unpackTime x p = .ok (s₁, n₁)) (h₂ : unpackTime y p = .ok (s₂, n₂)) :
    (compare s₁ s₂).then (compare n₁ n₂) = .eq ↔ x = y := by
  rw [Ordering.then_eq_eq, Std.compare_eq_iff_eq, Std.compare_eq_iff_eq]
  constructor
  · rintro ⟨rfl, rfl⟩
    exact unpackTime_inj hp h₁ h₂
  · rintro rfl
    rw [h₁] at h₂
    cases h₂
    exact ⟨rfl, rfl⟩

section
variable [Arithmetic] {x : Int64} {z : Bool}

theorem timestampPrecision_of_reached {p : UInt64} {nanos : Int}
    (h : fromTimestampPrecision x p = .ok (some nanos)) :
    timestampPrecision nanos p = .ok x.toInt := by
  have hreached : ∀ n : Int, fromTimestampPrecision.reached n = some nanos → nanos = n := by
    intro n hn
    unfold fromTimestampPrecision.reached at hn
    split at hn <;> cases hn
    rfl
  have hle := x.le_toInt
  have hlt := x.toInt_lt
  unfold fromTimestampPrecision at h
  split at h
  · subst p
    obtain rfl := hreached _ (by simpa using h)
    simp [timestampPrecision]
  · split at h
    · subst p
      obtain rfl := hreached _ (by simpa using h)
      simp [timestampPrecision]
    · split at h
      · subst p
        obtain rfl := hreached _ (by simpa using h)
        simp [timestampPrecision]
      · split at h
        · subst p
          obtain rfl := hreached _ (by simpa using h)
          rw [timestampPrecision, if_neg (by decide), if_neg (by decide), if_pos rfl,
            if_pos ⟨hle, hlt⟩]
        · cases h

theorem isComparable_time64 {p : UInt64} :
    (time64 x p z).isComparable = true ↔
      ∃ nanos, fromTimestampPrecision x p = .ok (some nanos) := by
  have heq : (time64 x p z).isComparable = match fromTimestampPrecision x p with
    | .ok (some _) => true
    | _ => false := rfl
  rw [heq]
  split
  · next nanos h => simp [h]
  · next h =>
    simp only [Bool.false_eq_true, false_iff, not_exists]
    exact h

/-- Readable points in time of one precision are compared as they are stored. -/
theorem time64Binary_eq {p : UInt64} {y : Int64} {z' : Bool} (isOrder : Ordering → Bool)
    (hx : (time64 x p z).isComparable = true) (hy : (time64 y p z').isComparable = true) :
    time64Binary isOrder (.time64 x p z) (.time64 y p z') =
      .ok (.boolean (isOrder (compare x y))) := by
  obtain ⟨n₁, h₁⟩ := isComparable_time64.mp hx
  obtain ⟨n₂, h₂⟩ := isComparable_time64.mp hy
  have hcmp : compare x y = compare x.toInt y.toInt := by
    simp only [compare, compareOfLessAndEq, Int64.lt_iff_toInt_lt, ← Int64.toInt_inj]
  have hx' : time64? (.time64 x p z) = some (x, p) := rfl
  have hy' : time64? (.time64 y p z') = some (y, p) := rfl
  rw [time64Binary, nullableBinary_some hx' hy', hcmp]
  simp only [h₁, h₂, Result.ok_bind, ite_self, timestampPrecision_of_reached h₁,
    timestampPrecision_of_reached h₂]
  rfl

end

end KiteSQL
