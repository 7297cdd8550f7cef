import KiteSQL.Lib.FloatBits
import KiteSQL.Types.Decimal
import KiteSQL.Types.LogicalType

/-! Runtime values, their equality and their partial order. -/
namespace KiteSQL

inductive Utf8Type where
  | variable (len : Option UInt32)
  | fixed (len : UInt32)
deriving DecidableEq

inductive DataValue where
  | parameter (id : Nat) (ty : LogicalType)
  | null
  | boolean (v : Bool)
  | float32 (bits : UInt32)
  | float64 (bits : UInt64)
  | int8 (v : Int8)
  | int16 (v : Int16)
  | int32 (v : Int32)
  | int64 (v : Int64)
  | uInt8 (v : UInt8)
  | uInt16 (v : UInt16)
  | uInt32 (v : UInt32)
  | uInt64 (v : UInt64)
  | utf8 (value : String) (ty : Utf8Type) (unit : CharLengthUnits)
  | date32 (v : Int32)
  | date64 (v : Int64)
  | time32 (v : UInt32) (precision : UInt64)
  | time64 (v : Int64) (precision : UInt64) (zone : Bool)
  | decimal (v : Decimal)
  | tuple (values : List DataValue)

/-- The bytes of a string, which Rust compares and stores. -/
def asBytes (s : String) : List UInt8 := s.toByteArray.data.toList

namespace DataValue

variable {v w x y : DataValue} {vs ws xs ys : List DataValue}

/-- Induction with a hypothesis for every component of a tuple. -/
@[induction_eliminator]
theorem components_induction {motive : DataValue → Prop}
    (parameter : ∀ id ty, motive (.parameter id ty)) (null : motive .null)
    (boolean : ∀ v, motive (.boolean v)) (float32 : ∀ u, motive (.float32 u))
    (float64 : ∀ u, motive (.float64 u)) (int8 : ∀ v, motive (.int8 v))
    (int16 : ∀ v, motive (.int16 v)) (int32 : ∀ v, motive (.int32 v))
    (int64 : ∀ v, motive (.int64 v)) (uInt8 : ∀ v, motive (.uInt8 v))
    (uInt16 : ∀ v, motive (.uInt16 v)) (uInt32 : ∀ v, motive (.uInt32 v))
    (uInt64 : ∀ v, motive (.uInt64 v)) (utf8 : ∀ s ty u, motive (.utf8 s ty u))
    (date32 : ∀ v, motive (.date32 v)) (date64 : ∀ v, motive (.date64 v))
    (time32 : ∀ v p, motive (.time32 v p)) (time64 : ∀ v p z, motive (.time64 v p z))
    (decimal : ∀ d, motive (.decimal d))
    (tuple : ∀ vs, (∀ v ∈ vs, motive v) → motive (.tuple vs)) (v : DataValue) : motive v := by
  refine DataValue.rec parameter null boolean float32 float64 int8 int16 int32 int64 uInt8 uInt16
    uInt32 uInt64 utf8 date32 date64 time32 time64 decimal tuple ?_ ?_ v
  · simp
  · intro v vs hv hvs
    simpa [hv] using hvs

def isNull : DataValue → Bool
  | .null => true
  | _ => false

theorem isNull_iff : x.isNull = true ↔ x = .null := by
  cases x <;> simp [isNull]

mutual

def logicalType : DataValue → LogicalType
  | .parameter _ ty => ty
  | .null => .sqlNull
  | .boolean _ => .boolean
  | .float32 _ => .float
  | .float64 _ => .double
  | .int8 _ => .tinyint
  | .int16 _ => .smallint
  | .int32 _ => .integer
  | .int64 _ => .bigint
  | .uInt8 _ => .uTinyint
  | .uInt16 _ => .uSmallint
  | .uInt32 _ => .uInteger
  | .uInt64 _ => .uBigint
  | .utf8 _ (.variable len) unit => .varchar len unit
  | .utf8 _ (.fixed len) unit => .char len unit
  | .date32 _ => .date
  | .date64 _ => .dateTime
  | .time32 _ _ => .time none
  | .time64 _ _ _ => .timeStamp none false
  | .decimal _ => .decimal none none
  | .tuple values => .tuple (logicalTypes values)

def logicalTypes : List DataValue → List LogicalType
  | [] => []
  | v :: vs => v.logicalType :: logicalTypes vs

end

mutual

/-- The equality of values; a string's declared type and a time's precision do not count. -/
def eq : DataValue → DataValue → Bool
  | .parameter i t, .parameter j u => i = j ∧ t = u
  | .null, .null => true
  | .boolean a, .boolean b => a = b
  | .float32 a, .float32 b => FloatBits.binary32.orderedCmp a.toNat b.toNat = .eq
  | .float64 a, .float64 b => FloatBits.binary64.orderedCmp a.toNat b.toNat = .eq
  | .int8 a, .int8 b => a = b
  | .int16 a, .int16 b => a = b
  | .int32 a, .int32 b => a = b
  | .int64 a, .int64 b => a = b
  | .uInt8 a, .uInt8 b => a = b
  | .uInt16 a, .uInt16 b => a = b
  | .uInt32 a, .uInt32 b => a = b
  | .uInt64 a, .uInt64 b => a = b
  | .utf8 a _ _, .utf8 b _ _ => a = b
  | .date32 a, .date32 b => a = b
  | .date64 a, .date64 b => a = b
  | .time32 a _, .time32 b _ => a = b
  | .time64 a _ _, .time64 b _ _ => a = b
  | .decimal a, .decimal b => a.cmp b = .eq
  | .tuple as, .tuple bs => eqList as bs
  | _, _ => false

def eqList : List DataValue → List DataValue → Bool
  | [], [] => true
  | v :: vs, w :: ws => eq v w && eqList vs ws
  | _, _ => false

end

/-- Inside a tuple NULL is comparable and sorts last. -/
def nullsLast : DataValue → DataValue → Option Ordering → Option Ordering
  | .null, .null, _ => some .eq
  | .null, _, _ => some .gt
  | _, .null, _ => some .lt
  | _, _, o => o

mutual

def partialCmp : DataValue → DataValue → Option Ordering
  | .boolean a, .boolean b => some (compare a b)
  | .float32 a, .float32 b => some (FloatBits.binary32.orderedCmp a.toNat b.toNat)
  | .float64 a, .float64 b => some (FloatBits.binary64.orderedCmp a.toNat b.toNat)
  | .int8 a, .int8 b => some (compare a b)
  | .int16 a, .int16 b => some (compare a b)
  | .int32 a, .int32 b => some (compare a b)
  | .int64 a, .int64 b => some (compare a b)
  | .uInt8 a, .uInt8 b => some (compare a b)
  | .uInt16 a, .uInt16 b => some (compare a b)
  | .uInt32 a, .uInt32 b => some (compare a b)
  | .uInt64 a, .uInt64 b => some (compare a b)
  | .utf8 a _ _, .utf8 b _ _ => some (compare (asBytes a) (asBytes b))
  | .null, .null => some .eq
  | .date32 a, .date32 b => some (compare a b)
  | .date64 a, .date64 b => some (compare a b)
  | .time32 a _, .time32 b _ => some (compare a b)
  | .time64 a _ _, .time64 b _ _ => some (compare a b)
  | .decimal a, .decimal b => some (a.cmp b)
  | .tuple as, .tuple bs => tuplePartialCmp as bs false false
  | _, _ => none

/-- A tuple that ends first is the smaller one unless its side is an upper bound. -/
def tuplePartialCmp : List DataValue → List DataValue → Bool → Bool → Option Ordering
  | l :: ls, r :: rs, leftIsUpper, rightIsUpper =>
    match nullsLast l r (partialCmp l r) with
    | none => none
    | some .eq => tuplePartialCmp ls rs leftIsUpper rightIsUpper
    | some o => some o
  | _ :: _, [], _, rightIsUpper => if rightIsUpper then some .lt else some .gt
  | [], _ :: _, leftIsUpper, _ => if leftIsUpper then some .gt else some .lt
  | [], [], _, _ => some .eq

end

def tupleElementPartialCmp (l r : DataValue) : Option Ordering := nullsLast l r (partialCmp l r)

end DataValue

end KiteSQL
