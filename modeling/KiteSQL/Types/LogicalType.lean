import Mathlib.Tactic

/-! The column types of the engine. -/
namespace KiteSQL

inductive CharLengthUnits where
  | characters
  | octets
deriving DecidableEq

inductive LogicalType where
  | sqlNull
  | boolean
  | tinyint
  | uTinyint
  | smallint
  | uSmallint
  | integer
  | uInteger
  | bigint
  | uBigint
  | float
  | double
  | char (len : UInt32) (unit : CharLengthUnits)
  | varchar (len : Option UInt32) (unit : CharLengthUnits)
  | date
  | dateTime
  | time (precision : Option UInt64)
  | timeStamp (precision : Option UInt64) (zone : Bool)
  | decimal (precision scale : Option UInt8)
  | tuple (types : List LogicalType)

namespace LogicalType

mutual

def eq : LogicalType → LogicalType → Bool
  | .sqlNull, .sqlNull | .boolean, .boolean => true
  | .tinyint, .tinyint | .uTinyint, .uTinyint => true
  | .smallint, .smallint | .uSmallint, .uSmallint => true
  | .integer, .integer | .uInteger, .uInteger => true
  | .bigint, .bigint | .uBigint, .uBigint => true
  | .float, .float | .double, .double => true
  | .char n u, .char m v => n = m ∧ u = v
  | .varchar n u, .varchar m v => n = m ∧ u = v
  | .date, .date | .dateTime, .dateTime => true
  | .time p, .time q => p = q
  | .timeStamp p z, .timeStamp q y => p = q ∧ z = y
  | .decimal p s, .decimal q r => p = q ∧ s = r
  | .tuple ts, .tuple us => eqList ts us
  | _, _ => false

def eqList : List LogicalType → List LogicalType → Bool
  | [], [] => true
  | t :: ts, u :: us => eq t u && eqList ts us
  | _, _ => false

end

/-- Induction with a hypothesis for every component of a tuple type. -/
@[induction_eliminator]
theorem components_induction {motive : LogicalType → Prop} (sqlNull : motive .sqlNull)
    (boolean : motive .boolean) (tinyint : motive .tinyint) (uTinyint : motive .uTinyint)
    (smallint : motive .smallint) (uSmallint : motive .uSmallint) (integer : motive .integer)
    (uInteger : motive .uInteger) (bigint : motive .bigint) (uBigint : motive .uBigint)
    (float : motive .float) (double : motive .double) (char : ∀ n u, motive (.char n u))
    (varchar : ∀ n u, motive (.varchar n u)) (date : motive .date) (dateTime : motive .dateTime)
    (time : ∀ p, motive (.time p)) (timeStamp : ∀ p z, motive (.timeStamp p z))
    (decimal : ∀ p s, motive (.decimal p s))
    (tuple : ∀ ts, (∀ t ∈ ts, motive t) → motive (.tuple ts)) (t : LogicalType) : motive t := by
  refine LogicalType.rec sqlNull boolean tinyint uTinyint smallint uSmallint integer uInteger
    bigint uBigint float double char varchar date dateTime time timeStamp decimal tuple ?_ ?_ t
  · simp
  · intro t ts ht hts
    simpa [ht] using hts

theorem eqList_self {ts : List LogicalType} (h : ∀ t ∈ ts, eq t t = true) :
    eqList ts ts = true := by
  induction ts with
  | nil => rfl
  | cons t ts ih => simp_all [eqList]

theorem eq_self (t : LogicalType) : eq t t = true := by
  induction t with
  | tuple ts ih => simpa [eq] using eqList_self ih
  | _ => simp [eq]

theorem eq_of_eqList {ts us : List LogicalType} (ih : ∀ t ∈ ts, ∀ u, eq t u = true → t = u)
    (h : eqList ts us = true) : ts = us := by
  induction ts generalizing us with
  | nil => cases us <;> simp_all [eqList]
  | cons t ts iht =>
    cases us with
    | nil => simp [eqList] at h
    | cons u us =>
      simp only [eqList, Bool.and_eq_true] at h
      rw [ih t (by simp) u h.1, iht (fun v hv => ih v (by simp [hv])) h.2]

theorem eq_of_eq_true (t u : LogicalType) (h : eq t u = true) : t = u := by
  induction t generalizing u with
  | tuple ts ih =>
    cases u with
    | tuple us => rw [eq_of_eqList ih (by simpa [eq] using h)]
    | _ => simp [eq] at h
  | _ => cases u <;> simp_all [eq]

instance : DecidableEq LogicalType := fun t u =>
  decidable_of_iff (eq t u = true) ⟨eq_of_eq_true t u, fun h => h ▸ eq_self t⟩

end LogicalType

end KiteSQL
