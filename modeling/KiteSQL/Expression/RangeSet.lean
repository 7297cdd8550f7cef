import KiteSQL.Expression.SingleRange
import KiteSQL.Lib.Cut
import KiteSQL.Types.Evaluator.Rows

/-! The values that a range contains, as places in the order of their type. -/
namespace KiteSQL

open DataValue Cut Option

namespace Bound

/-- A value that compares with others by `order` is not below the bound. -/
def startsBefore (order : DataValue → Option Ordering) : Bound DataValue → Bool
  | .included value => order value = some .gt || order value = some .eq
  | .excluded value => order value = some .gt
  | .unbounded => true

/-- A value that compares with others by `order` is not above the bound. -/
def endsBehind (order : DataValue → Option Ordering) : Bound DataValue → Bool
  | .included value => order value = some .lt || order value = some .eq
  | .excluded value => order value = some .lt
  | .unbounded => true

end Bound

namespace Range

mutual

/-- The range has a value that compares with others by `order`. -/
def has (order : DataValue → Option Ordering) : Range → Bool
  | .scope min max => min.startsBefore order && max.endsBehind order
  | .eq value => order value = some .eq
  | .dummy => false
  | .sortedRanges ranges => anyHas order ranges

def anyHas (order : DataValue → Option Ordering) : List Range → Bool
  | [] => false
  | range :: ranges => range.has order || anyHas order ranges

end

/-- The range of a column has the value, where NULL is the greatest one. -/
def contains (range : Range) (value : DataValue) : Bool := range.has (tupleElementPartialCmp value)

end Range

/-- The values of a type are ordered as their ranks in a linear order are, NULL last. -/
def Ranks {α : Type} [LinearOrder α] (t : LogicalType) (rank : DataValue → α) : Prop :=
  ∀ v w, Fits v t → Fits w t → tupleElementPartialCmp v w = some (compare (rank v) (rank w))

/-- The key of a value that is a machine word. -/
def DataValue.wordKey : DataValue → Nat
  | .boolean v => v.toNat
  | .int8 v => (v.toUInt8 ^^^ 0x80).toNat
  | .int16 v => (v.toUInt16 ^^^ 0x8000).toNat
  | .int32 v | .date32 v => (v.toUInt32 ^^^ 0x80000000).toNat
  | .int64 v | .date64 v | .time64 v _ _ => (v.toUInt64 ^^^ 0x8000000000000000).toNat
  | .uInt8 v => v.toNat
  | .uInt16 v => v.toNat
  | .uInt32 v | .time32 v _ => v.toNat
  | .uInt64 v => v.toNat
  | _ => 0

def DataValue.floatKey : DataValue → Int
  | .float32 v => FloatBits.binary32.place v.toNat
  | .float64 v => FloatBits.binary64.place v.toNat
  | _ => 0

def DataValue.decimalKey : DataValue → ℚ
  | .decimal v => v.toRat
  | _ => 0

def DataValue.textKey : DataValue → Bytes
  | .utf8 v _ _ => asBytes v
  | _ => []

section Existence

variable {K : Type} [LinearOrder K] {t : LogicalType}

/-- A key of the values that are not NULL ranks all values. -/
theorem ranks_of_key (key : DataValue → K)
    (h : ∀ v w, Fits v t → Fits w t → v.isNull = false → w.isNull = false →
      partialCmp v w = some (compare (key v) (key w))) :
    Ranks t fun v => if v.isNull then (⊤ : WithTop K) else key v := by
  intro v w hv hw
  dsimp only
  rw [tupleElementPartialCmp]
  cases nv : v.isNull with
  | true =>
    obtain rfl := isNull_iff.mp nv
    cases nw : w.isNull with
    | true =>
      obtain rfl := isNull_iff.mp nw
      simp [nullsLast]
    | false =>
      rw [nullsLast_null_left nw, if_pos rfl, if_neg Bool.false_ne_true,
        compare_gt_iff_gt.mpr (WithTop.coe_lt_top _)]
  | false =>
    cases nw : w.isNull with
    | true =>
      obtain rfl := isNull_iff.mp nw
      rw [nullsLast_null_right nv, if_pos rfl, if_neg Bool.false_ne_true,
        compare_lt_iff_lt.mpr (WithTop.coe_lt_top _)]
    | false =>
      rw [nullsLast_of_ne nv nw, h v w hv hw nv nw, if_neg Bool.false_ne_true,
        if_neg Bool.false_ne_true]
      exact congrArg some ((WithTop.coe_strictMono (α := K)).compare_eq (key v) (key w)).symm

theorem compare_toNat (a b : Bool) : compare a b = compare a.toNat b.toNat := by
  cases a <;> cases b <;> rfl

/-- The values of a type that columns can have are ranked. -/
theorem exists_ranks {s : TupleValueSerializableImpl} (hs : t.serializable = .ok s) :
    ∃ (α : Type) (_ : LinearOrder α) (rank : DataValue → α), Ranks t rank := by
  cases t with
  | sqlNull | tuple => cases hs
  | float | double =>
    refine ⟨_, _, _, ranks_of_key floatKey fun v w hv hw nv nw => ?_⟩
    cases hv <;> cases hw <;>
      simp_all [isNull, partialCmp, floatKey, FloatBits.orderedCmp_eq_compare_place]
  | decimal p q =>
    refine ⟨_, _, _, ranks_of_key decimalKey fun v w hv hw nv nw => ?_⟩
    cases hv <;> cases hw <;>
      simp_all [isNull, partialCmp, decimalKey, Decimal.cmp_eq_compare_toRat]
  | char len unit | varchar len unit =>
    refine ⟨_, _, _, @ranks_of_key _ (linearOrderOfOrd Bytes) _ textKey fun v w hv hw nv nw => ?_⟩
    cases hv <;> cases hw <;> simp_all [isNull, partialCmp, textKey]
  | _ =>
    refine ⟨_, _, _, ranks_of_key wordKey fun v w hv hw nv nw => ?_⟩
    cases hv <;> cases hw <;> simp_all only [isNull, partialCmp, wordKey, compare_int8,
      compare_int16, compare_int32, compare_int64, compare_uInt8, compare_uInt16, compare_uInt32,
      compare_uInt64, compare_toNat, Bool.true_eq_false]

end Existence

variable {α : Type} [LinearOrder α] {rank : DataValue → α} {t : LogicalType}
  {s : TupleValueSerializableImpl}

namespace Bound

def lowerCut (rank : DataValue → α) : Bound DataValue → Cut α
  | .included value => Cut.before (rank value)
  | .excluded value => Cut.after (rank value)
  | .unbounded => ⊥

def upperCut (rank : DataValue → α) : Bound DataValue → Cut α
  | .included value => Cut.after (rank value)
  | .excluded value => Cut.before (rank value)
  | .unbounded => ⊤

/-- Where the source takes an upper bound to be below a lower one. -/
def Clears (rank : DataValue → α) (l : Bound DataValue) : Bound DataValue → Prop
  | .included value => l.upperCut rank ≤ Cut.before (rank value)
  | .excluded value => l.upperCut rank < Cut.before (rank value)
  | .unbounded => False

variable {l r bound : Bound DataValue} {x v w : DataValue}

theorem startsBefore_iff (hrank : Ranks t rank) (hb : bound.All (Fits · t)) (hx : Fits x t) :
    bound.startsBefore (tupleElementPartialCmp x) = true ↔
      bound.lowerCut rank ≤ before (rank x) := by
  cases bound with
  | included v =>
    simp only [startsBefore, lowerCut, hrank x v hx hb, Bool.or_eq_true, decide_eq_true_eq,
      some.injEq, compare_gt_iff_gt, compare_eq_iff_eq, before_le_before]
    rw [le_iff_lt_or_eq, eq_comm]
  | excluded v =>
    simp only [startsBefore, lowerCut, hrank x v hx hb, decide_eq_true_eq, some.injEq,
      compare_gt_iff_gt, after_le_before]
  | unbounded => simp [startsBefore, lowerCut]

theorem endsBehind_iff (hrank : Ranks t rank) (hb : bound.All (Fits · t)) (hx : Fits x t) :
    bound.endsBehind (tupleElementPartialCmp x) = true ↔
      before (rank x) < bound.upperCut rank := by
  cases bound with
  | included v =>
    simp only [endsBehind, upperCut, hrank x v hx hb, Bool.or_eq_true, decide_eq_true_eq,
      some.injEq, compare_lt_iff_lt, compare_eq_iff_eq, before_lt_after]
    rw [le_iff_lt_or_eq]
  | excluded v =>
    simp only [endsBehind, upperCut, hrank x v hx hb, decide_eq_true_eq, some.injEq,
      compare_lt_iff_lt, before_lt_before]
  | unbounded => simp [endsBehind, upperCut]

theorem Clears.upper_le (h : l.Clears rank r) : l.upperCut rank ≤ r.lowerCut rank := by
  cases r with
  | included v => exact h
  | excluded v => exact h.le.trans (before_lt_after.mpr le_rfl).le
  | unbounded => exact h.elim

/-- Values of a column are compared by their ranks, whichever bounds they stand in. -/
theorem rangeValueCmp_eq (hs : t.serializable = .ok s) (hrank : Ranks t rank) (hv : Fits v t)
    (hw : Fits w t) (a b : Bool) : rangeValueCmp v w a b = some (compare (rank v) (rank w)) := by
  rw [← hrank v w hv hw, tupleElementPartialCmp]
  cases hv with
  | null => cases hw <;> rfl
  | tupleNil | tupleCons => cases hs
  | _ => cases hw <;> rfl

section Compared

variable (hs : t.serializable = .ok s) (hrank : Ranks t rank) (hl : l.All (Fits · t))
  (hr : r.All (Fits · t))
include hs hrank hl hr

theorem boundCompared_lower :
    boundCompared l r false false = some (compare (l.lowerCut rank) (r.lowerCut rank)) := by
  cases l with
  | unbounded =>
    cases r with
    | unbounded => simp [boundCompared, lowerCut]
    | included w =>
      rw [lowerCut, lowerCut, compare_lt_iff_lt.mpr bot_lt_before]
      rfl
    | excluded w =>
      rw [lowerCut, lowerCut, compare_lt_iff_lt.mpr bot_lt_after]
      rfl
  | included v =>
    cases r with
    | unbounded =>
      rw [lowerCut, lowerCut, compare_gt_iff_gt.mpr bot_lt_before]
      rfl
    | included w => rw [boundCompared, rangeValueCmp_eq hs hrank hl hr, lowerCut, lowerCut,
        compare_before]
    | excluded w =>
      rw [boundCompared, rangeValueCmp_eq hs hrank hl hr, lowerCut, lowerCut, compare_before_after]
      rfl
  | excluded v =>
    cases r with
    | unbounded =>
      rw [lowerCut, lowerCut, compare_gt_iff_gt.mpr bot_lt_after]
      rfl
    | included w =>
      rw [boundCompared, rangeValueCmp_eq hs hrank hl hr, lowerCut, lowerCut, compare_after_before]
      rfl
    | excluded w => rw [boundCompared, rangeValueCmp_eq hs hrank hl hr, lowerCut, lowerCut,
        compare_after]

theorem boundCompared_upper :
    boundCompared l r true true = some (compare (l.upperCut rank) (r.upperCut rank)) := by
  cases l with
  | unbounded =>
    cases r with
    | unbounded => simp [boundCompared, upperCut]
    | included w =>
      rw [upperCut, upperCut, compare_gt_iff_gt.mpr after_lt_top]
      rfl
    | excluded w =>
      rw [upperCut, upperCut, compare_gt_iff_gt.mpr before_lt_top]
      rfl
  | included v =>
    cases r with
    | unbounded =>
      rw [upperCut, upperCut, compare_lt_iff_lt.mpr after_lt_top]
      rfl
    | included w => rw [boundCompared, rangeValueCmp_eq hs hrank hl hr, upperCut, upperCut,
        compare_after]
    | excluded w =>
      rw [boundCompared, rangeValueCmp_eq hs hrank hl hr, upperCut, upperCut, compare_after_before]
      rfl
  | excluded v =>
    cases r with
    | unbounded =>
      rw [upperCut, upperCut, compare_lt_iff_lt.mpr before_lt_top]
      rfl
    | included w =>
      rw [boundCompared, rangeValueCmp_eq hs hrank hl hr, upperCut, upperCut, compare_before_after]
      rfl
    | excluded w => rw [boundCompared, rangeValueCmp_eq hs hrank hl hr, upperCut, upperCut,
        compare_before]

theorem boundCompared_across_lt : boundCompared l r true false = some .lt ↔ l.Clears rank r := by
  cases l with
  | unbounded =>
    cases r <;> simp [boundCompared, Clears, upperCut, isMinThenReverse, before_lt_top.ne]
  | included v =>
    cases r with
    | unbounded => simp [boundCompared, Clears, isMinThenReverse]
    | included w =>
      rw [boundCompared, rangeValueCmp_eq hs hrank hl hr, some.injEq, compare_lt_iff_lt,
        Clears, upperCut, after_le_before]
    | excluded w =>
      rw [boundCompared, rangeValueCmp_eq hs hrank hl hr, Clears, upperCut, after_lt_before,
        ← compare_lt_iff_lt]
      cases compare (rank v) (rank w) <;> simp [isMinThenReverse]
  | excluded v =>
    cases r with
    | unbounded => simp [boundCompared, Clears, isMinThenReverse]
    | included w =>
      rw [boundCompared, rangeValueCmp_eq hs hrank hl hr, Clears, upperCut, before_le_before,
        ← not_lt, ← compare_gt_iff_gt]
      cases compare (rank v) (rank w) <;> simp [isMinThenReverse]
    | excluded w =>
      rw [boundCompared, rangeValueCmp_eq hs hrank hl hr, some.injEq, compare_lt_iff_lt,
        Clears, upperCut, before_lt_before]

theorem boundCompared_swap :
    boundCompared l r false true = (boundCompared r l true false).map Ordering.swap := by
  cases l with
  | unbounded => cases r <;> rfl
  | included v =>
    cases r with
    | unbounded => rfl
    | included w =>
      rw [boundCompared, boundCompared, rangeValueCmp_eq hs hrank hl hr,
        rangeValueCmp_eq hs hrank hr hl, map_some, ← Std.OrientedOrd.eq_swap]
    | excluded w =>
      rw [boundCompared, boundCompared, rangeValueCmp_eq hs hrank hl hr,
        rangeValueCmp_eq hs hrank hr hl, Std.OrientedOrd.eq_swap (a := rank v)]
      cases compare (rank w) (rank v) <;> rfl
  | excluded v =>
    cases r with
    | unbounded => rfl
    | included w =>
      rw [boundCompared, boundCompared, rangeValueCmp_eq hs hrank hl hr,
        rangeValueCmp_eq hs hrank hr hl, Std.OrientedOrd.eq_swap (a := rank v)]
      cases compare (rank w) (rank v) <;> rfl
    | excluded w =>
      rw [boundCompared, boundCompared, rangeValueCmp_eq hs hrank hl hr,
        rangeValueCmp_eq hs hrank hr hl, map_some, ← Std.OrientedOrd.eq_swap]

theorem boundCompared_across_gt : boundCompared l r false true = some .gt ↔ r.Clears rank l := by
  rw [boundCompared_swap hs hrank hl hr, ← boundCompared_across_lt hs hrank hr hl]
  cases boundCompared r l true false with
  | none => simp
  | some o => cases o <;> simp

/-- A lower and an upper bound that are found equal have one value. -/
theorem boundCompared_across_eq (h : boundCompared l r false true = some .eq) :
    (∃ v w, l = .included v ∧ r = .included w ∧ rank v = rank w) ∨
      (∃ v w, l = .excluded v ∧ r = .excluded w ∧ rank v = rank w) ∨
      l = .unbounded ∧ r = .unbounded := by
  cases l with
  | unbounded =>
    cases r with
    | unbounded => exact .inr (.inr ⟨rfl, rfl⟩)
    | _ => simp [boundCompared, isMinThenReverse] at h
  | included v =>
    cases r with
    | unbounded => simp [boundCompared, isMinThenReverse] at h
    | included w =>
      rw [boundCompared, rangeValueCmp_eq hs hrank hl hr, some.injEq, compare_eq_iff_eq] at h
      exact .inl ⟨v, w, rfl, rfl, h⟩
    | excluded w =>
      rw [boundCompared, rangeValueCmp_eq hs hrank hl hr] at h
      revert h
      cases compare (rank v) (rank w) <;> simp [isMinThenReverse]
  | excluded v =>
    cases r with
    | unbounded => simp [boundCompared, isMinThenReverse] at h
    | included w =>
      rw [boundCompared, rangeValueCmp_eq hs hrank hl hr] at h
      revert h
      cases compare (rank v) (rank w) <;> simp [isMinThenReverse]
    | excluded w =>
      rw [boundCompared, rangeValueCmp_eq hs hrank hl hr, some.injEq, compare_eq_iff_eq] at h
      exact .inr (.inl ⟨v, w, rfl, rfl, h⟩)

end Compared

end Bound

theorem DataValue.Fits.hasParameter {v : DataValue} (hs : t.serializable = .ok s)
    (h : Fits v t) : v.hasParameter = false := by
  cases h with
  | tupleNil | tupleCons => cases hs
  | _ => rfl

theorem Bound.All.hasParameter {bound : Bound DataValue} (hs : t.serializable = .ok s)
    (h : bound.All (Fits · t)) : bound.hasParameter = false := by
  cases bound with
  | unbounded => rfl
  | _ => exact DataValue.Fits.hasParameter hs h

namespace Range

open KiteSQL.Bound

/-- The places that a range without members covers. -/
def places (rank : DataValue → α) : Range → Set (Cut α)
  | .scope min max => Set.Ico (min.lowerCut rank) (max.upperCut rank)
  | .eq value => Set.Ico (Cut.before (rank value)) (Cut.after (rank value))
  | _ => ∅

variable {left right range : Range} {min max leftMin leftMax rightMin rightMax : Bound DataValue}
  {x v w : DataValue}

theorem contains_iff (hrank : Ranks t rank) (hr : range.Single (Fits · t)) (hx : Fits x t) :
    range.contains x = true ↔ before (rank x) ∈ range.places rank := by
  cases hr with
  | scope hmin hmax =>
    rw [contains, has, Bool.and_eq_true, startsBefore_iff hrank hmin hx,
      endsBehind_iff hrank hmax hx]
    rfl
  | @eq v hv =>
    rw [contains, has, decide_eq_true_eq, hrank x v hx hv, some.injEq, compare_eq_iff_eq,
      places, Set.mem_Ico, before_le_before, before_lt_after, ← le_antisymm_iff, eq_comm]
  | dummy => simp [contains, has, places]

theorem eq_iff_rank (hrank : Ranks t rank) (hv : Fits v t) (hw : Fits w t) :
    v.eq w = true ↔ rank v = rank w := by
  have hcmp := hrank v w hv hw
  constructor
  · intro h
    rw [tupleElementPartialCmp, hv.partialCmp_of_eq h] at hcmp
    have heq : nullsLast v w (some .eq) = some .eq := by
      cases v <;> cases w <;> first | rfl | cases h
    rw [heq, some.injEq, eq_comm] at hcmp
    exact compare_eq_iff_eq.mp hcmp
  · intro h
    rw [compare_eq_iff_eq.mpr h] at hcmp
    exact eq_of_tupleElementPartialCmp hcmp

section And

variable (hs : t.serializable = .ok s) (hrank : Ranks t rank)
include hs hrank

/-- The scope of the later start and the earlier end covers what both scopes cover. -/
theorem andScopeMerge_places (hlm : leftMin.All (Fits · t)) (hlM : leftMax.All (Fits · t))
    (hrm : rightMin.All (Fits · t)) (hrM : rightMax.All (Fits · t)) :
    ∃ range, andScopeMerge leftMin leftMax rightMin rightMax = .ok range ∧
      range.places rank = places rank (.scope leftMin leftMax) ∩
        places rank (.scope rightMin rightMax) := by
  have hmin : ∃ min, min.All (Fits · t) ∧
      (if compare (leftMin.lowerCut rank) (rightMin.lowerCut rank) = .gt then leftMin
        else rightMin) = min ∧
      min.lowerCut rank = leftMin.lowerCut rank ⊔ rightMin.lowerCut rank := by
    by_cases h : compare (leftMin.lowerCut rank) (rightMin.lowerCut rank) = .gt
    · exact ⟨leftMin, hlm, if_pos h, (sup_eq_left.mpr (compare_gt_iff_gt.mp h).le).symm⟩
    · rw [compare_gt_iff_gt, not_lt] at h
      refine ⟨rightMin, hrm, if_neg ?_, (sup_eq_right.mpr h).symm⟩
      rwa [compare_gt_iff_gt, not_lt]
  have hmax : ∃ max, max.All (Fits · t) ∧
      (if compare (leftMax.upperCut rank) (rightMax.upperCut rank) = .lt then leftMax
        else rightMax) = max ∧
      max.upperCut rank = leftMax.upperCut rank ⊓ rightMax.upperCut rank := by
    by_cases h : compare (leftMax.upperCut rank) (rightMax.upperCut rank) = .lt
    · exact ⟨leftMax, hlM, if_pos h, (inf_eq_left.mpr (compare_lt_iff_lt.mp h).le).symm⟩
    · rw [compare_lt_iff_lt, not_lt] at h
      refine ⟨rightMax, hrM, if_neg ?_, (inf_eq_right.mpr h).symm⟩
      rwa [compare_lt_iff_lt, not_lt]
  obtain ⟨min, hmin, hmin', hlow⟩ := hmin
  obtain ⟨max, hmax, hmax', hupp⟩ := hmax
  rw [places, places, Set.Ico_inter_Ico, ← hlow, ← hupp]
  simp only [andScopeMerge, boundCompared_lower hs hrank hlm hrm,
    boundCompared_upper hs hrank hlM hrM, hmin', hmax']
  cases hcmp : boundCompared min max false true with
  | none => exact ⟨_, rfl, rfl⟩
  | some o =>
    cases o with
    | lt => exact ⟨_, rfl, rfl⟩
    | gt =>
      refine ⟨_, rfl, (Set.Ico_eq_empty ?_).symm⟩
      exact not_lt.mpr (((boundCompared_across_gt hs hrank hmin hmax).mp hcmp).upper_le)
    | eq =>
      obtain ⟨v, w, rfl, rfl, hvw⟩ | ⟨v, w, rfl, rfl, hvw⟩ | ⟨rfl, rfl⟩ :=
        boundCompared_across_eq hs hrank hmin hmax hcmp
      · refine ⟨_, rfl, ?_⟩
        rw [places, lowerCut, upperCut, hvw]
      · refine ⟨_, rfl, (Set.Ico_eq_empty ?_).symm⟩
        rw [lowerCut, upperCut, hvw, after_lt_before]
        exact lt_irrefl _
      · exact ⟨_, rfl, rfl⟩

theorem scopeEqMerge_and_places (hm : min.All (Fits · t)) (hM : max.All (Fits · t))
    (hv : Fits v t) :
    ∃ range, scopeEqMerge .and min max v = .ok range ∧
      range.places rank = places rank (.scope min max) ∩ places rank (.eq v) := by
  have hparam : (min.hasParameter || max.hasParameter || v.hasParameter) = false := by
    rw [hm.hasParameter hs, hM.hasParameter hs, hv.hasParameter hs]
    rfl
  have hlow : boundCompared (.included v) min false false =
      some (compare (before (rank v)) (min.lowerCut rank)) :=
    boundCompared_lower hs hrank (show (Bound.included v).All (Fits · t) from hv) hm
  have hupp : boundCompared (.included v) max true true =
      some (compare (after (rank v)) (max.upperCut rank)) :=
    boundCompared_upper hs hrank (show (Bound.included v).All (Fits · t) from hv) hM
  have hcover : ∀ c, c ∈ places rank (.scope min max) ∩ places rank (.eq v) ↔
      c = before (rank v) ∧ min.lowerCut rank ≤ before (rank v) ∧
        before (rank v) < max.upperCut rank := by
    intro c
    rw [Set.mem_inter_iff, places, places, mem_Ico_point]
    constructor
    · rintro ⟨hc, rfl⟩
      exact ⟨rfl, hc⟩
    · rintro ⟨rfl, hc⟩
      exact ⟨hc, rfl⟩
  unfold scopeEqMerge
  rw [hparam, if_neg Bool.false_ne_true]
  simp only [hlow, hupp, getD_some, some.injEq, compare_lt_iff_lt, compare_gt_iff_gt]
  split
  · next h =>
    refine ⟨_, rfl, Set.ext fun c => ?_⟩
    rw [hcover]
    simp only [places, Set.mem_empty_iff_false, false_iff]
    rintro ⟨-, hle, hlt⟩
    rcases h with h | h
    · exact absurd hle (not_le.mpr h)
    · exact absurd (after_le_iff.mpr hlt) (not_le.mpr h)
  · next h =>
    rw [not_or, not_lt, not_lt] at h
    refine ⟨_, rfl, Set.ext fun c => ?_⟩
    rw [hcover, places, mem_Ico_point]
    exact ⟨fun hc => ⟨hc, h.1, after_le_iff.mp h.2⟩, fun hc => hc.1⟩

theorem eqEqMerge_and_places (hv : Fits v t) (hw : Fits w t) :
    ∃ range, eqEqMerge .and v w = .ok range ∧
      range.places rank = places rank (.eq v) ∩ places rank (.eq w) := by
  have hparam : (v.hasParameter || w.hasParameter) = false := by
    rw [hv.hasParameter hs, hw.hasParameter hs]
    rfl
  unfold eqEqMerge
  by_cases heq : v.eq w = true
  · refine ⟨.eq v, by simp [heq], ?_⟩
    simp only [places, (eq_iff_rank hrank hv hw).mp heq, Set.inter_self]
  · refine ⟨.dummy, by simp [heq, hparam], ?_⟩
    rw [eq_iff_rank hrank hv hw] at heq
    refine Set.ext fun c => ?_
    simp only [places, Set.mem_inter_iff, mem_Ico_point, Set.mem_empty_iff_false, false_iff]
    rintro ⟨rfl, h⟩
    refine heq (le_antisymm ?_ ?_)
    · exact before_le_before.mp h.le
    · exact before_le_before.mp h.ge

/-- Two single ranges are merged to one that covers what both cover. -/
theorem mergeFlat_and_places (hl : left.Single (Fits · t)) (hr : right.Single (Fits · t)) :
    ∃ range, mergeFlat .and left right = some (.ok range) ∧ range.Single (Fits · t) ∧
      range.places rank = left.places rank ∩ right.places rank := by
  have hmerge : ∃ range, mergeFlat .and left right = some (.ok range) ∧
      range.places rank = left.places rank ∩ right.places rank := by
    cases hl with
    | dummy => exact ⟨.dummy, by cases hr <;> rfl, by simp [places]⟩
    | @scope leftMin leftMax hlm hlM =>
      cases hr with
      | dummy => exact ⟨.dummy, rfl, by simp [places]⟩
      | scope hrm hrM =>
        obtain ⟨range, hok, hplaces⟩ := andScopeMerge_places hs hrank hlm hlM hrm hrM
        exact ⟨range, congrArg some hok, hplaces⟩
      | eq hw =>
        obtain ⟨range, hok, hplaces⟩ := scopeEqMerge_and_places hs hrank hlm hlM hw
        exact ⟨range, congrArg some hok, hplaces⟩
    | @eq v hv =>
      cases hr with
      | dummy => exact ⟨.dummy, rfl, by simp [places]⟩
      | @scope min max hm hM =>
        obtain ⟨range, hok, hplaces⟩ := scopeEqMerge_and_places hs hrank hm hM hv
        refine ⟨range, ?_, hplaces.trans (Set.inter_comm _ _)⟩
        rw [mergeFlat, hok]
        rfl
      | eq hw =>
        obtain ⟨range, hok, hplaces⟩ := eqEqMerge_and_places hs hrank hv hw
        exact ⟨range, congrArg some hok, hplaces⟩
  obtain ⟨range, hok, hplaces⟩ := hmerge
  obtain ⟨merged, hmerged, hsingle, -⟩ := mergeFlat_single hl hr
  rw [hok, some.injEq] at hmerged
  exact ⟨range, hok, hsingle range hmerged.symm, hplaces⟩

end And

end Range

end KiteSQL
