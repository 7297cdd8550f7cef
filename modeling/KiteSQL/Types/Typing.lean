import KiteSQL.Errors

/-! Which values a column type admits. -/
namespace KiteSQL

mutual

/-- No component of the type is a floating-point type. -/
def LogicalType.floatFree : LogicalType → Bool
  | .float | .double => false
  | .tuple types => LogicalType.floatFreeAll types
  | _ => true

def LogicalType.floatFreeAll : List LogicalType → Bool
  | [] => true
  | t :: ts => t.floatFree && LogicalType.floatFreeAll ts

end

namespace DataValue

def checkStringLen (string : String) (len : Nat) (unit : CharLengthUnits) : Bool :=
  match unit with
  | .characters => decide (string.length > len)
  | .octets => decide ((asBytes string).length > len)

/-- The number of digits of a mantissa and of its fraction against the declared ones. -/
def decimalTooLong (d : Decimal) (precision scale : Option UInt8) : Bool :=
  (match precision with
    | some len => decide (d.magnitude ≠ 0 ∧ Nat.log 10 d.magnitude + 1 > len.toNat)
    | none => false) ||
  (match scale with
    | some len => decide (d.scale > len.toNat)
    | none => false)

def isOverLen : DataValue → LogicalType → Bool
  | .utf8 s (.variable _) .characters, .varchar (some len) .characters
  | .utf8 s (.fixed _) .characters, .char len .characters =>
    checkStringLen s len.toNat .characters
  | .utf8 s (.variable _) .octets, .varchar (some len) .octets
  | .utf8 s (.fixed _) .octets, .char len .octets => checkStringLen s len.toNat .octets
  | .decimal d, .decimal precision scale => decimalTooLong d precision scale
  | _, _ => false

def checkLen (value : DataValue) (ty : LogicalType) : Result Unit :=
  if value.isOverLen ty then .error (.error .tooLong) else .ok ()

/-- The value is NULL or has the representation of the type; the declared length and precision
that a string or a time carries along are not compared. -/
inductive Fits : DataValue → LogicalType → Prop
  | null (t) : Fits .null t
  | boolean (v) : Fits (.boolean v) .boolean
  | float32 (u) : Fits (.float32 u) .float
  | float64 (u) : Fits (.float64 u) .double
  | int8 (v) : Fits (.int8 v) .tinyint
  | int16 (v) : Fits (.int16 v) .smallint
  | int32 (v) : Fits (.int32 v) .integer
  | int64 (v) : Fits (.int64 v) .bigint
  | uInt8 (v) : Fits (.uInt8 v) .uTinyint
  | uInt16 (v) : Fits (.uInt16 v) .uSmallint
  | uInt32 (v) : Fits (.uInt32 v) .uInteger
  | uInt64 (v) : Fits (.uInt64 v) .uBigint
  | char (s ty u len unit) : Fits (.utf8 s ty u) (.char len unit)
  | varchar (s ty u len unit) : Fits (.utf8 s ty u) (.varchar len unit)
  | date32 (v) : Fits (.date32 v) .date
  | date64 (v) : Fits (.date64 v) .dateTime
  | time32 (v p q) : Fits (.time32 v p) (.time q)
  | time64 (v p z q y) : Fits (.time64 v p z) (.timeStamp q y)
  | decimal (d p s) : Fits (.decimal d) (.decimal p s)
  | tupleNil : Fits (.tuple []) (.tuple [])
  | tupleCons {v vs t ts} : Fits v t → Fits (.tuple vs) (.tuple ts) →
      Fits (.tuple (v :: vs)) (.tuple (t :: ts))

variable {v w x y : DataValue} {vs ws xs ys : List DataValue} {t : LogicalType}
  {ts : List LogicalType}

theorem fits_tuple_iff : Fits (.tuple vs) (.tuple ts) ↔ List.Forall₂ Fits vs ts := by
  constructor
  · intro h
    induction vs generalizing ts with
    | nil =>
      cases h
      exact .nil
    | cons v vs ih =>
      cases h with
      | tupleCons hv hvs => exact .cons hv (ih hvs)
  · intro h
    induction h with
    | nil => exact .tupleNil
    | cons hv _ ih => exact .tupleCons hv ih

mutual

/-- The value with the string type, precision and zone that its column declares. -/
def retype : DataValue → LogicalType → DataValue
  | .utf8 s _ _, .char len unit => .utf8 s (.fixed len) unit
  | .utf8 s _ _, .varchar len unit => .utf8 s (.variable len) unit
  | .time32 v _, .time precision => .time32 v (precision.getD 0)
  | .time64 v _ _, .timeStamp precision zone => .time64 v (precision.getD 0) zone
  | .tuple vs, .tuple ts => .tuple (retypeAll vs ts)
  | v, _ => v

def retypeAll : List DataValue → List LogicalType → List DataValue
  | v :: vs, t :: ts => v.retype t :: retypeAll vs ts
  | vs, _ => vs

end

mutual

/-- Some component is a NaN whose sign bit is clear. -/
def hasPositiveNan : DataValue → Bool
  | .float32 u => FloatBits.binary32.isPositiveNan u.toNat
  | .float64 u => FloatBits.binary64.isPositiveNan u.toNat
  | .tuple vs => anyPositiveNan vs
  | _ => false

def anyPositiveNan : List DataValue → Bool
  | [] => false
  | v :: vs => v.hasPositiveNan || anyPositiveNan vs

end

mutual

/-- No component is a float or a decimal, whose equality identifies several representations. -/
def isExact : DataValue → Bool
  | .float32 _ | .float64 _ | .decimal _ => false
  | .tuple vs => allExact vs
  | _ => true

def allExact : List DataValue → Bool
  | [] => true
  | v :: vs => v.isExact && allExact vs

end

theorem eq_of_nullsLast (ih : partialCmp x y = some .eq → eq x y = true)
    (h : tupleElementPartialCmp x y = some .eq) : eq x y = true := by
  unfold tupleElementPartialCmp nullsLast at h
  split at h <;> simp_all [eq]

theorem tuplePartialCmp_cons_eq {b c : Bool}
    (h : tuplePartialCmp (x :: xs) (y :: ys) b c = some .eq) :
    tupleElementPartialCmp x y = some .eq ∧ tuplePartialCmp xs ys b c = some .eq := by
  rw [tuplePartialCmp] at h
  unfold tupleElementPartialCmp
  split at h <;> simp_all

theorem eqList_of_tuplePartialCmp (ih : ∀ x ∈ xs, ∀ y, partialCmp x y = some .eq → eq x y = true)
    (h : tuplePartialCmp xs ys false false = some .eq) : eqList xs ys = true := by
  induction xs generalizing ys with
  | nil => cases ys <;> simp_all [tuplePartialCmp, eqList]
  | cons x xs ihx =>
    cases ys with
    | nil => simp [tuplePartialCmp] at h
    | cons y ys =>
      obtain ⟨hx, hxs⟩ := tuplePartialCmp_cons_eq h
      rw [eqList, eq_of_nullsLast (ih x (by simp) y) hx, ihx (fun z hz => ih z (by simp [hz])) hxs]
      rfl

/-- Values that compare equal are equal. -/
theorem eq_of_partialCmp (x y : DataValue) (h : partialCmp x y = some .eq) : eq x y = true := by
  induction x generalizing y with
  | tuple xs ih =>
    cases y with
    | tuple ys => exact eqList_of_tuplePartialCmp ih h
    | _ => simp [partialCmp] at h
  | _ => cases y <;> simp_all [partialCmp, eq, asBytes_inj]

theorem eq_of_tupleElementPartialCmp (h : tupleElementPartialCmp x y = some .eq) : eq x y = true :=
  eq_of_nullsLast (eq_of_partialCmp x y) h

end DataValue

end KiteSQL
